import EditableMarkup.Proofs.Record.Clock
import EditableMarkup.Proofs.Tree.Update
import EditableMarkup.Record.History

/-!
# Documents over time

A step either stalls, and then neither the document changes nor the clock is
read, or it renews the tree, the code and the time of the last change with a
single reading.  So over a whole history the times are readings of the clock, in
the order in which they were taken, and the code belongs to the tree.
-/

namespace EditableMarkup

/-! ## Clocks that tick evenly -/

namespace Clock

/-- The times that a clock shows, one reading after the other. -/
def readings (clock : Clock) (count : Nat) : Int :=
  clock.now + count * clock.tick

/-- The clock behind some readings. -/
def behind (clock : Clock) (count : Nat) : Clock :=
  { clock with now := clock.readings count }

theorem read_behind (clock : Clock) (count : Nat) :
    (clock.behind count).read = (timeText (clock.readings count), clock.behind (count + 1)) := by
  have hnext : clock.readings count + clock.tick = clock.readings (count + 1) := by
    rw [readings, readings, Int.natCast_succ, Int.add_mul, Int.one_mul, Int.add_assoc]
  rw [read, behind, behind, hnext]

end Clock

/-! ## Steps by any clock -/

theorem Timed.untimed_ok_bind {ε α β : Type} (result : α) (further : α → Timed ε β) :
    (untimed (.ok result) >>= further) = further result :=
  rfl

namespace Document

theorem making_eq (code name : String) (supply : Supply) (timeline : Timeline) :
    making code name supply timeline =
      match Source.parse code supply with
      | .error failure => (.error failure, timeline)
      | .ok (tree, supply) =>
        (.ok ({ name, code, tree, createdAt := some timeline.text,
                updatedAt := some timeline.text }, supply), timeline.next) := by
  rw [making]
  cases Source.parse code supply <;> rfl

theorem editing_eq (document : Document) (id : String) (changes : Changes) (timeline : Timeline) :
    document.editing id changes timeline =
      match document.tree.update? id changes with
      | .error fault => (.error fault, timeline)
      | .ok none => (.ok document, timeline)
      | .ok (some tree) =>
        match tree.serialize 2 with
        | .error fault => (.error fault, timeline)
        | .ok code =>
          (.ok { document with code, tree, updatedAt := some timeline.text }, timeline.next) := by
  rw [editing]
  cases document.tree.update? id changes with
  | error fault => rfl
  | ok found =>
      cases found with
      | none => rfl
      | some tree =>
          rw [Timed.untimed_ok_bind]
          dsimp only
          cases tree.serialize 2 <;> rfl

theorem recoding_eq (document : Document) (code : String) (supply : Supply) (timeline : Timeline) :
    document.recoding code supply timeline =
      match Source.parse code supply with
      | .error failure => (.error failure, timeline)
      | .ok (tree, supply) =>
        (.ok ({ document with code, tree, updatedAt := some timeline.text }, supply),
          timeline.next) := by
  rw [recoding]
  cases Source.parse code supply <;> rfl

/-- By a clock that ticks evenly a document is made as by any clock that shows its times. -/
theorem ofCode_eq_making (code name : String) (supply : Supply) (clock : Clock) (count : Nat) :
    ofCode code name ⟨supply, clock.behind count⟩ =
      (making code name supply ⟨clock.readings, count⟩).1.map fun made =>
        (made.1, ⟨made.2, clock.behind (making code name supply ⟨clock.readings, count⟩).2.taken⟩) := by
  rw [making_eq, ofCode]
  cases Source.parse code supply with
  | error failure => rfl
  | ok found => simp only [clock.read_behind]; rfl

theorem edit_eq_editing (document : Document) (id : String) (changes : Changes) (clock : Clock)
    (count : Nat) :
    document.edit id changes (clock.behind count) =
      (document.editing id changes ⟨clock.readings, count⟩).1.map fun changed =>
        (changed, clock.behind (document.editing id changes ⟨clock.readings, count⟩).2.taken) := by
  rw [editing_eq, edit]
  cases document.tree.update? id changes with
  | error fault => rfl
  | ok found =>
      cases found with
      | none => rfl
      | some tree =>
          simp only [bind, Except.bind]
          cases tree.serialize 2 with
          | error fault => rfl
          | ok code => simp only [clock.read_behind]; rfl

theorem recode_eq_recoding (document : Document) (code : String) (supply : Supply) (clock : Clock)
    (count : Nat) :
    document.recode code ⟨supply, clock.behind count⟩ =
      (document.recoding code supply ⟨clock.readings, count⟩).1.map fun changed =>
        (changed.1,
          ⟨changed.2, clock.behind (document.recoding code supply ⟨clock.readings, count⟩).2.taken⟩) := by
  rw [recoding_eq, recode]
  cases Source.parse code supply with
  | error failure => rfl
  | ok found => simp only [clock.read_behind]; rfl

end Document

namespace History

/-! ## One step -/

/-- A step fails, or is about a node that is not there. -/
def Stalls (history : History) : Revision → Prop
  | .edit id changes =>
    id ∉ history.document.tree.ids ∨
      ∃ fault, (history.document.editing id changes history.timeline).1 = .error fault
  | .recode code =>
    ∃ failure, (history.document.recoding code history.supply history.timeline).1 = .error failure

/-- The code of the document belongs to its tree: the tree was read from it, or it was printed from
the tree. -/
def Sourced (history : History) : Prop :=
  (history.document.code = history.source ∧ ∃ before after,
      Source.parse history.source before = .ok (history.document.tree, after)) ∨
    history.document.tree.serialize 2 = .ok history.document.code

/-- A history goes on with another code, another tree and one reading of the clock. -/
structure Renews (before after : History) : Prop where
  name_eq : after.document.name = before.document.name
  id_eq : after.document.id = before.document.id
  createdAt_eq : after.document.createdAt = before.document.createdAt
  updatedAt_eq : after.document.updatedAt = some before.timeline.text
  timeline_eq : after.timeline = before.timeline.next
  sourced : after.Sourced

/-- A step changes nothing at all if it stalls, and renews the document otherwise. -/
theorem step_cases (history : History) (revision : Revision) :
    (history.Stalls revision ∧ history.step revision = history) ∨
      (¬history.Stalls revision ∧ history.Renews (history.step revision)) := by
  cases revision with
  | edit id changes =>
      rw [Stalls, step, Document.editing_eq]
      cases hupdate : history.document.tree.update? id changes with
      | error fault => exact .inl ⟨.inr ⟨fault, rfl⟩, rfl⟩
      | ok found =>
          obtain ⟨_, _, hfirst⟩ := exists_of_bind_eq_ok hupdate
          cases found with
          | none => exact .inl ⟨.inl (Node.updateFirst?_eq_ok_none_iff.mp hfirst), rfl⟩
          | some tree =>
              dsimp only
              cases hcode : tree.serialize 2 with
              | error fault => exact .inl ⟨.inr ⟨fault, rfl⟩, rfl⟩
              | ok code =>
                  refine .inr ⟨?_, rfl, rfl, rfl, rfl, rfl, .inr hcode⟩
                  rintro (hmissing | ⟨fault, hfault⟩)
                  · rw [Node.updateFirst?_eq_ok_none_iff.mpr hmissing] at hfirst
                    cases hfirst
                  · cases hfault
  | recode code =>
      rw [Stalls, step, Document.recoding_eq]
      cases hparse : Source.parse code history.supply with
      | error failure => exact .inl ⟨⟨failure, rfl⟩, rfl⟩
      | ok found =>
          refine .inr ⟨?_, rfl, rfl, rfl, rfl, rfl, .inl ⟨rfl, history.supply, found.2, hparse⟩⟩
          rintro ⟨failure, hfailure⟩
          cases hfailure

/-! ## Whole histories -/

/-- Readings that never decrease, from the start of 1970 to the end of 9999. -/
structure Steady (readings : Nat → Int) : Prop where
  monotone : ∀ earlier later, earlier ≤ later → readings earlier ≤ readings later
  nonneg : ∀ count, 0 ≤ readings count
  before_last : ∀ count, readings count < lastTime

theorem Steady.timeText_le {readings : Nat → Int} (h : Steady readings) {earlier later : Nat}
    (hle : earlier ≤ later) : timeText (readings earlier) ≤ timeText (readings later) :=
  EditableMarkup.timeText_le (h.nonneg earlier) (h.monotone earlier later hle) (h.before_last later)

/-- A document that was made under a name at some reading and last changed at a later one. -/
structure Orderly (readings : Nat → Int) (name : String) (created : Nat) (history : History) :
    Prop where
  readings_eq : history.timeline.readings = readings
  name_eq : history.document.name = name
  id_eq : history.document.id = none
  createdAt_eq : history.document.createdAt = some (timeText (readings created))
  updatedAt_eq : ∃ updated, created ≤ updated ∧ updated < history.timeline.taken ∧
    history.document.updatedAt = some (timeText (readings updated))
  sourced : history.Sourced

theorem orderly_of_ofCode {code name : String} {supply : Supply} {readings : Nat → Int}
    {created : Nat} {first : History} {after : Timeline}
    (h : ofCode code name supply ⟨readings, created⟩ = (.ok first, after)) :
    Orderly readings name created first ∧ first.timeline = after ∧ after.taken = created + 1 := by
  have hmade : ofCode code name supply ⟨readings, created⟩ =
      match Source.parse code supply with
      | .error failure => (.error failure, ⟨readings, created⟩)
      | .ok (tree, rest) =>
        (.ok ⟨{ name, code, tree, createdAt := some (timeText (readings created)),
                updatedAt := some (timeText (readings created)) }, code, rest,
                ⟨readings, created + 1⟩⟩, ⟨readings, created + 1⟩) := by
    rw [ofCode, Document.making]
    cases Source.parse code supply <;> rfl
  rw [hmade] at h
  cases hparse : Source.parse code supply with
  | error failure =>
      rw [hparse] at h
      cases h
  | ok found =>
      rw [hparse] at h
      cases h
      exact ⟨⟨rfl, rfl, rfl, rfl, ⟨created, Nat.le_refl _, Nat.lt_succ_self _, rfl⟩,
        .inl ⟨rfl, supply, found.2, hparse⟩⟩, rfl, rfl⟩

/-- Every step keeps a history orderly. -/
theorem Orderly.step {readings : Nat → Int} {name : String} {created : Nat} {history : History}
    (h : Orderly readings name created history) (revision : Revision) :
    Orderly readings name created (history.step revision) := by
  rcases history.step_cases revision with ⟨_, hsame⟩ | ⟨_, hrenews⟩
  · rwa [hsame]
  · obtain ⟨updated, hcreated, hbefore, _⟩ := h.updatedAt_eq
    constructor
    · rw [hrenews.timeline_eq]
      exact h.readings_eq
    · rw [hrenews.name_eq, h.name_eq]
    · rw [hrenews.id_eq, h.id_eq]
    · rw [hrenews.createdAt_eq, h.createdAt_eq]
    · refine ⟨history.timeline.taken, Nat.le_trans hcreated (Nat.le_of_lt hbefore), ?_, ?_⟩
      · rw [hrenews.timeline_eq]
        exact Nat.lt_succ_self _
      · rw [hrenews.updatedAt_eq, Timeline.text, h.readings_eq]
    · exact hrenews.sourced

theorem Orderly.run {readings : Nat → Int} {name : String} {created : Nat} {history : History}
    (h : Orderly readings name created history) (revisions : List Revision) :
    Orderly readings name created (history.run revisions) := by
  induction revisions generalizing history with
  | nil => exact h
  | cons revision revisions ih => exact ih (h.step revision)

/-- Making a document reads the clock once, or not at all if it fails.  From then on the document
keeps its name, its missing identifier and the time at which it was made, which is no later than the
last change; its code belongs to its tree; and a step either stalls, without a reading, or takes one
reading and puts the last change no earlier than before. -/
theorem run_steady {readings : Nat → Int} (hsteady : Steady readings) (code name : String)
    (supply : Supply) (taken : Nat) :
    (∀ failure after, ofCode code name supply ⟨readings, taken⟩ = (.error failure, after) →
        after.taken = taken) ∧
      ∀ first after, ofCode code name supply ⟨readings, taken⟩ = (.ok first, after) →
        after.taken = taken + 1 ∧ ∀ revisions current, first.run revisions = current →
          (current.document.name = name ∧ current.document.id = none ∧
            ∃ created updated, first.document.createdAt = some created ∧
              current.document.createdAt = some created ∧
              current.document.updatedAt = some updated ∧ created ≤ updated) ∧
          current.Sourced ∧
          ∀ revision, (∃ earlier later, current.document.updatedAt = some earlier ∧
              (current.step revision).document.updatedAt = some later ∧ earlier ≤ later) ∧
            (current.Stalls revision → (current.step revision).document = current.document ∧
              (current.step revision).timeline.taken = current.timeline.taken) ∧
            (¬current.Stalls revision →
              (current.step revision).timeline.taken = current.timeline.taken + 1) := by
  constructor
  · intro failure after h
    rw [ofCode, Document.making] at h
    cases hparse : Source.parse code supply <;> rw [hparse] at h <;> cases h
    rfl
  · intro first after h
    obtain ⟨hfirst, _, htaken⟩ := orderly_of_ofCode h
    refine ⟨htaken, fun revisions current hcurrent => ?_⟩
    have horderly : Orderly readings name taken current := hcurrent ▸ hfirst.run revisions
    obtain ⟨updated, hcreated, hbefore, hupdated⟩ := horderly.updatedAt_eq
    refine ⟨⟨horderly.name_eq, horderly.id_eq, _, _, hfirst.createdAt_eq, horderly.createdAt_eq,
      hupdated, hsteady.timeText_le hcreated⟩, horderly.sourced, fun revision => ?_⟩
    rcases current.step_cases revision with ⟨hstalls, hsame⟩ | ⟨hmoves, hrenews⟩
    · rw [hsame]
      exact ⟨⟨_, _, hupdated, hupdated, hsteady.timeText_le (Nat.le_refl updated)⟩,
        fun _ => ⟨rfl, rfl⟩, fun hmoves => absurd hstalls hmoves⟩
    · have hlater : (current.step revision).document.updatedAt =
          some (timeText (readings current.timeline.taken)) := by
        rw [hrenews.updatedAt_eq, Timeline.text, horderly.readings_eq]
      exact ⟨⟨_, _, hupdated, hlater, hsteady.timeText_le (Nat.le_of_lt hbefore)⟩,
        fun hstalls => absurd hstalls hmoves, fun _ => by rw [hrenews.timeline_eq]; rfl⟩

/-- A clock that is read once at the end of a day, and then on the leap day that follows. -/
def leapDay (count : Nat) : Int :=
  if count = 0 then 951782399999999 else 951782400000000

theorem steady_leapDay : Steady leapDay where
  monotone := by
    intro earlier later hle
    rw [leapDay, leapDay]
    split <;> split <;> omega
  nonneg := by
    intro count
    rw [leapDay]
    split <;> decide
  before_last := by
    intro count
    rw [leapDay]
    split <;> decide

/-- An edit that is carried out, and four steps that stall. -/
def leapDayRevisions : List Revision :=
  [.edit (Supply.identifier 0) { tag := some (.named "b") }, .recode "</a>", .edit "nowhere" {},
    .edit (Supply.identifier 0) { tag := some .fragment, attributes := some [("c", .boolean true)] },
    .recode "<a c=\x7b'\\u\x7b110000\x7d'\x7d />"]

/-- The document of the leap day is changed once, on the day after it was made. -/
theorem run_leapDay :
    ∃ first current after, ofCode "<a></a>" "page" ⟨0⟩ ⟨leapDay, 0⟩ = (.ok first, after) ∧
      first.run leapDayRevisions = current ∧ current.document.code = "<b />" ∧
      current.timeline.taken = 2 ∧ current.Sourced ∧
      "2000-02-28T23:59:59.999Z" ≤ "2000-02-29T00:00:00.000Z" ∧
      current.document.createdAt = some "2000-02-28T23:59:59.999Z" ∧
      current.document.updatedAt = some "2000-02-29T00:00:00.000Z" := by
  have hfacts : ((ofCode "<a></a>" "page" ⟨0⟩ ⟨leapDay, 0⟩).1.toOption.map fun first =>
      ((first.run leapDayRevisions).document.code, (first.run leapDayRevisions).timeline.taken,
        (first.run leapDayRevisions).document.createdAt,
        (first.run leapDayRevisions).document.updatedAt)) =
      some ("<b />", 2, some "2000-02-28T23:59:59.999Z", some "2000-02-29T00:00:00.000Z") := by
    decide +kernel
  cases hmade : ofCode "<a></a>" "page" ⟨0⟩ ⟨leapDay, 0⟩ with
  | mk outcome after =>
      rw [hmade] at hfacts
      cases outcome with
      | error failure => cases hfacts
      | ok first =>
          simp only [Except.toOption, Option.map_some, Option.some.injEq, Prod.mk.injEq] at hfacts
          obtain ⟨hcode, htaken, hcreated, hupdated⟩ := hfacts
          obtain ⟨⟨_, _, _, _, _, hcreated', hupdated', hle⟩, hsourced, _⟩ :=
            ((run_steady steady_leapDay "<a></a>" "page" ⟨0⟩ 0).2 first after hmade).2
              leapDayRevisions _ rfl
          rw [hcreated] at hcreated'
          rw [hupdated] at hupdated'
          cases hcreated'
          cases hupdated'
          exact ⟨first, _, after, rfl, rfl, hcode, htaken, hsourced, hle, hcreated, hupdated⟩

end History

end EditableMarkup
