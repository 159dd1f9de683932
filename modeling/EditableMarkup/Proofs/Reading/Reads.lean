import EditableMarkup.Proofs.Reading.Order

/-!
# What a reader keeps

`Reads` says that a reader keeps a reading of its construct from a place.  A
composed reader keeps nothing that its parts do not lead to, and it comes to
every end that they lead to; which one of several ways to an end it keeps is a
matter of precedence.

Most texts that are printed leave no choice.  `Offers` says that every reading
from a place either comes to one given end, or stops at a place where nothing can
go on with it.  Where the reading may have to stand against others, it is free, too:
without cost.
-/

namespace EditableMarkup.Grammar

variable {α β : Type} {free : Prop}

namespace Place

@[simp]
theorem advance_zero (place : Place) : place.advance 0 = place := rfl

theorem advance_add (place : Place) (first second : Nat) :
    place.advance (first + second) = (place.advance first).advance second := by
  simp [advance, List.drop_drop]

end Place

namespace Reading

@[simp]
theorem followedBy_value (first : Reading α) (second : Reading β) :
    (first.followedBy second).value = second.value := rfl

@[simp]
theorem followedBy_used (first : Reading α) (second : Reading β) :
    (first.followedBy second).used = first.used + second.used := rfl

@[simp]
theorem followedBy_cost (first : Reading α) (second : Reading β) :
    (first.followedBy second).cost = first.cost + second.cost := rfl

end Reading

namespace Reader

open Reading

/-- A reader keeps a reading of its construct from a place. -/
def Reads (reader : Reader α) (place : Place) (reading : Reading α) : Prop :=
  reading ∈ (reader place).readings

/-- A reader cannot read its construct from a place. -/
def Fails (reader : Reader α) (place : Place) : Prop :=
  ∀ reading, ¬ Reads reader place reading

/-- The readings from a place stand by strictly ascending ends. -/
def AscendsAt (reader : Reader α) (place : Place) : Prop :=
  Ascending (reader place).readings

theorem AscendsAt.eq_of_used_eq {reader : Reader α} {place : Place}
    (ascends : AscendsAt reader place) {first second : Reading α}
    (hfirst : Reads reader place first) (hsecond : Reads reader place second)
    (hused : first.used = second.used) : first = second :=
  Ascending.eq_of_used_eq ascends hfirst hsecond hused

/-! ## Nothing, one after the other, one of several -/

@[simp]
theorem reads_pure {value : α} {place : Place} {reading : Reading α} :
    Reads (pure value) place reading ↔ reading = ⟨value, 0, 0, 0⟩ :=
  List.mem_singleton

@[simp]
theorem reads_nothing {value : α} {place : Place} {reading : Reading α} :
    Reads (nothing value) place reading ↔ reading = ⟨value, 0, 0, 0⟩ :=
  List.mem_singleton

section Bind

variable {first : Reader α} {second : α → Reader β} {place : Place}

theorem bind_eq_mergeAll :
    (first >>= second) place =
      Outcome.mergeAll { readings := [], reach := (first place).reach } (first place).readings
        fun reading => Outcome.behind reading
          (second reading.value (place.advance reading.used)) := rfl

/-- What is read one after the other was read by both. -/
theorem exists_of_reads_bind {reading : Reading β} (h : Reads (first >>= second) place reading) :
    ∃ before, Reads first place before ∧
      ∃ after, Reads (second before.value) (place.advance before.used) after ∧
        reading = before.followedBy after := by
  rw [Reads, bind_eq_mergeAll] at h
  rcases Outcome.mem_of_mem_mergeAll h with hnone | ⟨before, hbefore, hbehind⟩
  · cases hnone
  · obtain ⟨after, hafter, rfl⟩ := List.mem_map.mp hbehind
    exact ⟨before, hbefore, after, hafter, rfl⟩

/-- Where both can be read, one after the other comes to their common end. -/
theorem reaches_bind {before : Reading α} {after : Reading β} (hbefore : Reads first place before)
    (hafter : Reads (second before.value) (place.advance before.used) after) :
    Reaches ((first >>= second) place).readings (before.used + after.used)
      (before.cost + after.cost) := by
  rw [bind_eq_mergeAll, ← followedBy_used, ← followedBy_cost]
  exact Outcome.reaches_mergeAll hbefore (List.mem_map_of_mem hafter)

theorem ascendsAt_bind : AscendsAt (first >>= second) place := by
  rw [AscendsAt, bind_eq_mergeAll]
  exact Outcome.ascending_mergeAll List.Pairwise.nil

theorem fails_bind (h : Fails first place) : Fails (first >>= second) place := by
  intro reading hreading
  obtain ⟨before, hbefore, _⟩ := exists_of_reads_bind hreading
  exact h before hbefore

theorem fails_bind_of_fails
    (h : ∀ before, Reads first place before →
      Fails (second before.value) (place.advance before.used)) :
    Fails (first >>= second) place := by
  intro reading hreading
  obtain ⟨before, hbefore, after, hafter, _⟩ := exists_of_reads_bind hreading
  exact h before hbefore after hafter

end Bind

section Map

variable {f : α → β} {reader : Reader α} {place : Place}

theorem map_eq_bind : f <$> reader = reader >>= fun value => pure (f value) := rfl

/-- A mapped reader keeps the readings of the reader with mapped values. -/
theorem exists_of_reads_map {reading : Reading β} (h : Reads (f <$> reader) place reading) :
    ∃ before, Reads reader place before ∧ reading.used = before.used ∧
      reading.cost = before.cost ∧ reading.value = f before.value := by
  rw [map_eq_bind] at h
  obtain ⟨before, hbefore, after, hafter, rfl⟩ := exists_of_reads_bind h
  rw [reads_pure.mp hafter]
  exact ⟨before, hbefore, rfl, rfl, rfl⟩

theorem reaches_map {before : Reading α} (h : Reads reader place before) :
    Reaches ((f <$> reader) place).readings before.used before.cost := by
  have hvalue : Reads (pure (f before.value)) (place.advance before.used)
      ⟨f before.value, 0, 0, 0⟩ := reads_pure.mpr rfl
  rw [map_eq_bind]
  exact @reaches_bind _ _ reader (fun value => pure (f value)) place before _ h hvalue

theorem fails_map (h : Fails reader place) : Fails (f <$> reader) place := by
  rw [map_eq_bind]
  exact fails_bind h

end Map

section OneOf

variable {readers : List (Reader α)} {place : Place}

theorem oneOf_eq_mergeAll :
    oneOf readers place =
      Outcome.mergeAll Outcome.none readers fun reader => reader place := rfl

theorem exists_of_reads_oneOf {reading : Reading α} (h : Reads (oneOf readers) place reading) :
    ∃ reader ∈ readers, Reads reader place reading := by
  rw [Reads, oneOf_eq_mergeAll] at h
  rcases Outcome.mem_of_mem_mergeAll h with hnone | hfound
  · cases hnone
  · exact hfound

theorem reaches_oneOf {reader : Reader α} (hreader : reader ∈ readers) {reading : Reading α}
    (h : Reads reader place reading) :
    Reaches (oneOf readers place).readings reading.used reading.cost := by
  rw [oneOf_eq_mergeAll]
  exact Outcome.reaches_mergeAll hreader h

theorem ascendsAt_oneOf : AscendsAt (oneOf readers) place := by
  rw [AscendsAt, oneOf_eq_mergeAll]
  exact Outcome.ascending_mergeAll List.Pairwise.nil

theorem fails_oneOf (h : ∀ reader ∈ readers, Fails reader place) : Fails (oneOf readers) place := by
  intro reading hreading
  obtain ⟨reader, hreader, hreads⟩ := exists_of_reads_oneOf hreading
  exact h reader hreader reading hreads

end OneOf

/-! ## Slices and costs -/

theorem reads_sliced {reader : Reader (Slice → α)} {place : Place} {reading : Reading α} :
    Reads (sliced reader) place reading ↔
      ∃ before, Reads reader place before ∧
        reading = { before with value := before.value (sliceOf place before) } := by
  simp only [Reads, sliced, List.mem_map]
  constructor
  · rintro ⟨before, hbefore, rfl⟩
    exact ⟨before, hbefore, rfl⟩
  · rintro ⟨before, hbefore, rfl⟩
    exact ⟨before, hbefore, rfl⟩

theorem fails_sliced {reader : Reader (Slice → α)} {place : Place} (h : Fails reader place) :
    Fails (sliced reader) place := by
  intro reading hreading
  obtain ⟨before, hbefore, _⟩ := reads_sliced.mp hreading
  exact h before hbefore

theorem reads_extending {form : Form} {reader : Reader (List Form)} {place : Place}
    {reading : Reading Form} :
    Reads (extending form reader) place reading ↔
      ∃ behind, Reads reader place behind ∧
        reading = { behind with
          value := .plain (form.slice.extend behind.used) (form :: behind.value) } := by
  simp only [Reads, extending, List.mem_map]
  constructor
  · rintro ⟨behind, hbehind, rfl⟩
    exact ⟨behind, hbehind, rfl⟩
  · rintro ⟨behind, hbehind, rfl⟩
    exact ⟨behind, hbehind, rfl⟩

theorem fails_extending {form : Form} {reader : Reader (List Form)} {place : Place}
    (h : Fails reader place) : Fails (extending form reader) place := by
  intro reading hreading
  obtain ⟨behind, hbehind, _⟩ := reads_extending.mp hreading
  exact h behind hbehind

theorem reads_counted {reader : Reader α} {place : Place} {reading : Reading α} :
    Reads (counted reader) place reading ↔
      ∃ before, Reads reader place before ∧ reading = { before with cost := before.cost + 1 } := by
  simp only [Reads, counted, List.mem_map]
  constructor
  · rintro ⟨before, hbefore, rfl⟩
    exact ⟨before, hbefore, rfl⟩
  · rintro ⟨before, hbefore, rfl⟩
    exact ⟨before, hbefore, rfl⟩

/-! ## Readers without a choice -/

/-- Every reading from a place comes to one end, where it is free if it has to be and has a value of
some kind, or it stops at a dead place; and the end is reached and alive. -/
structure Offers (free : Prop) (reader : Reader α) (place : Place) (used : Nat) (kind : α → Prop)
    (dead : Place → Prop) : Prop where
  alive : ¬ dead (place.advance used)
  reaches : ∃ reading, Reads reader place reading ∧ reading.used = used
  only : ∀ reading, Reads reader place reading →
    (reading.used = used ∧ (free → reading.cost = 0) ∧ kind reading.value) ∨
      dead (place.advance reading.used)

/-- Every reading from a place comes to one end, where it is free if it has to be and has a value of
some kind. -/
abbrev Settles (free : Prop) (reader : Reader α) (place : Place) (used : Nat) (kind : α → Prop) :
    Prop :=
  Offers free reader place used kind fun _ => False

namespace Offers

variable {reader : Reader α} {place : Place} {used : Nat} {kind : α → Prop} {dead : Place → Prop}

/-- The reading that a reader offers. -/
theorem reads (offers : Offers free reader place used kind dead) :
    ∃ reading, Reads reader place reading ∧ reading.used = used ∧ (free → reading.cost = 0) ∧
      kind reading.value := by
  obtain ⟨reading, hreading, hused⟩ := offers.reaches
  rcases offers.only reading hreading with ⟨_, hcost, hkind⟩ | hdead
  · exact ⟨reading, hreading, hused, hcost, hkind⟩
  · exact absurd (hused ▸ hdead) offers.alive

/-- Nothing ends elsewhere than what settles. -/
theorem used_eq (settles : Settles True reader place used kind) {reading : Reading α}
    (h : Reads reader place reading) : reading.used = used :=
  ((settles.only reading h).resolve_right id).1

/-- The same readings from another place, where the same ends are dead. -/
theorem transfer (offers : Offers free reader place used kind dead) {reader' : Reader α}
    {place' : Place} (h : reader' place' = reader place)
    (hdead : ∀ count, dead (place'.advance count) ↔ dead (place.advance count)) :
    Offers free reader' place' used kind dead where
  alive hstop := offers.alive ((hdead used).mp hstop)
  reaches := by
    obtain ⟨reading, hreading, hused⟩ := offers.reaches
    exact ⟨reading, by rwa [Reads, h], hused⟩
  only reading hreading := by
    rw [Reads, h] at hreading
    exact (offers.only reading hreading).imp_right (hdead reading.used).mpr

theorem imp (offers : Offers free reader place used kind dead) {kind' : α → Prop}
    (h : ∀ value, kind value → kind' value) : Offers free reader place used kind' dead where
  alive := offers.alive
  reaches := offers.reaches
  only reading hreading :=
    (offers.only reading hreading).imp_left fun ⟨hused, hcost, hkind⟩ =>
      ⟨hused, hcost, h _ hkind⟩

/-- More ends may count as dead. -/
theorem deader (offers : Offers free reader place used kind dead) {dead' : Place → Prop}
    (h : ∀ place, dead place → dead' place) (halive : ¬ dead' (place.advance used)) :
    Offers free reader place used kind dead' where
  alive := halive
  reaches := offers.reaches
  only reading hreading := (offers.only reading hreading).imp_right (h _)

/-- A reader without a choice may be seen as one with dead ends. -/
theorem weaken (offers : Settles free reader place used kind)
    (halive : ¬ dead (place.advance used)) :
    Offers free reader place used kind dead where
  alive := halive
  reaches := offers.reaches
  only reading hreading := Or.inl ((offers.only reading hreading).resolve_right id)

theorem pure {value : α} (h : kind value) :
    Settles free (Pure.pure value : Reader α) place 0 kind where
  alive := id
  reaches := ⟨_, reads_pure.mpr rfl, rfl⟩
  only reading hreading := by
    rw [reads_pure.mp hreading]
    exact Or.inl ⟨rfl, fun _ => rfl, h⟩

/-- Go on with a second reader that leads from the first one's dead ends to dead ends only. -/
theorem bindInto (offers : Offers free reader place used kind dead) {second : α → Reader β}
    {used' : Nat}
    {kind' : β → Prop} {dead' : Place → Prop}
    (hdead : ∀ value place, dead place → ∀ reading, Reads (second value) place reading →
      dead' (place.advance reading.used))
    (next : ∀ value, kind value →
      Offers free (second value) (place.advance used) used' kind' dead') :
    Offers free (reader >>= second) place (used + used') kind' dead' where
  alive := by
    obtain ⟨reading, _, _, _, hkind⟩ := offers.reads
    rw [Place.advance_add]
    exact (next reading.value hkind).alive
  reaches := by
    obtain ⟨before, hbefore, rfl, hcost, hkind⟩ := offers.reads
    obtain ⟨after, hafter, rfl, hcost', _⟩ := (next before.value hkind).reads
    obtain ⟨reading, hreading, hused, _⟩ := reaches_bind hbefore hafter
    exact ⟨reading, hreading, hused⟩
  only reading hreading := by
    obtain ⟨before, hbefore, after, hafter, rfl⟩ := exists_of_reads_bind hreading
    rcases offers.only before hbefore with ⟨rfl, hcost, hkind⟩ | hstop
    · rcases (next before.value hkind).only after hafter with ⟨rfl, hcost', hkind'⟩ | hstop'
      · exact Or.inl ⟨rfl, fun h => by simp [hcost h, hcost' h], hkind'⟩
      · rw [followedBy_used, Place.advance_add]
        exact Or.inr hstop'
    · rw [followedBy_used, Place.advance_add]
      exact Or.inr (hdead _ _ hstop after hafter)

/-- Go on with a second reader where the first one's dead ends are dead for the second, too. -/
theorem bind (offers : Offers free reader place used kind dead) {second : α → Reader β}
    {used' : Nat}
    {kind' : β → Prop} {dead' : Place → Prop}
    (hdead : ∀ value place, dead place → Fails (second value) place)
    (next : ∀ value, kind value →
      Offers free (second value) (place.advance used) used' kind' dead') :
    Offers free (reader >>= second) place (used + used') kind' dead' :=
  offers.bindInto (fun value place hstop reading hreading =>
    absurd hreading (hdead value place hstop reading)) next

/-- Go on with a second reader behind one without a choice. -/
theorem andThen (offers : Settles free reader place used kind) {second : α → Reader β} {used' : Nat}
    {kind' : β → Prop} {dead' : Place → Prop}
    (next : ∀ value, kind value →
      Offers free (second value) (place.advance used) used' kind' dead') :
    Offers free (reader >>= second) place (used + used') kind' dead' :=
  offers.bind (fun _ _ => False.elim) next

theorem map (offers : Offers free reader place used kind dead) {f : α → β} {kind' : β → Prop}
    (h : ∀ value, kind value → kind' (f value)) :
    Offers free (f <$> reader) place used kind' dead where
  alive := offers.alive
  reaches := by
    obtain ⟨before, hbefore, rfl, _⟩ := offers.reads
    obtain ⟨reading, hreading, hused, _⟩ := reaches_map (f := f) hbefore
    exact ⟨reading, hreading, hused⟩
  only reading hreading := by
    obtain ⟨before, hbefore, hused, hcost, hvalue⟩ := exists_of_reads_map hreading
    rw [hused, hcost, hvalue]
    exact (offers.only before hbefore).imp_left fun ⟨hused, hcost, hkind⟩ =>
      ⟨hused, hcost, h _ hkind⟩

theorem returning (offers : Offers free reader place used kind dead) {f : α → β} {kind' : β → Prop}
    (h : ∀ value, kind value → kind' (f value)) :
    Offers free (reader >>= fun value => Pure.pure (f value)) place used kind' dead :=
  offers.map h

/-- One of several readers offers a reading, and all others fail or come to dead ends. -/
theorem oneOf (offers : Offers free reader place used kind dead) {readers : List (Reader α)}
    (hreader : reader ∈ readers)
    (hothers : ∀ other ∈ readers, other = reader ∨ ∀ reading, Reads other place reading →
      dead (place.advance reading.used)) :
    Offers free (Reader.oneOf readers) place used kind dead where
  alive := offers.alive
  reaches := by
    obtain ⟨before, hbefore, rfl, _⟩ := offers.reads
    obtain ⟨reading, hreading, hused, _⟩ := reaches_oneOf hreader hbefore
    exact ⟨reading, hreading, hused⟩
  only reading hreading := by
    obtain ⟨other, hother, hreads⟩ := exists_of_reads_oneOf hreading
    rcases hothers other hother with rfl | hdead
    · exact offers.only reading hreads
    · exact Or.inr (hdead reading hreads)

/-- One of several readers offers a reading, and all others fail. -/
theorem choose (offers : Offers free reader place used kind dead) {readers : List (Reader α)}
    (hreader : reader ∈ readers)
    (hothers : ∀ other ∈ readers, other = reader ∨ Fails other place) :
    Offers free (Reader.oneOf readers) place used kind dead :=
  offers.oneOf hreader fun other hother =>
    (hothers other hother).imp_right fun hfails reading hreading => absurd hreading (hfails reading)

/-- A part that cannot be read is missing. -/
theorem missing {reader : Reader α} {place : Place} {value : α} (h : Fails reader place) :
    Settles free (Reader.oneOf [reader, nothing value]) place 0 (· = value) := by
  have hnothing : Settles free (nothing value) place 0 (· = value) := .pure rfl
  refine hnothing.choose (by simp) ?_
  intro other hother
  simp only [List.mem_cons, List.not_mem_nil, or_false] at hother
  rcases hother with rfl | rfl
  · exact Or.inr h
  · exact Or.inl rfl

/-- More can be read neither behind the offered end nor behind a dead one. -/
theorem maybeMore (offers : Offers free reader place used kind dead) {more : α → Reader α}
    (hlast : ∀ value, kind value → Fails (more value) (place.advance used))
    (hdead : ∀ value place, dead place → Fails (more value) place) :
    Offers free (Reader.maybeMore reader more) place used kind dead where
  alive := offers.alive
  reaches := by
    obtain ⟨before, hbefore, rfl, _⟩ := offers.reads
    have hmem : (fun _ => reader place : Reader α) ∈
        [fun _ => reader place, Reader.andThen (fun _ => reader place) more] :=
      List.mem_cons_self ..
    obtain ⟨reading, hreading, hused, _⟩ := @reaches_oneOf _ _ place _ hmem before hbefore
    exact ⟨reading, hreading, hused⟩
  only reading hreading := by
    obtain ⟨other, hother, hreads⟩ := exists_of_reads_oneOf hreading
    rcases List.mem_cons.mp hother with rfl | hother
    · exact offers.only reading hreads
    · rw [List.mem_singleton.mp hother] at hreads
      obtain ⟨before, hbefore, after, hafter, _⟩ :=
        @exists_of_reads_bind _ _ (fun _ => reader place) more place reading hreads
      rcases offers.only before hbefore with ⟨rfl, _, hkind⟩ | hstop
      · exact absurd hafter (hlast before.value hkind after)
      · exact absurd hafter (hdead before.value _ hstop after)

theorem sliced {reader : Reader (Slice → α)} {kind : (Slice → α) → Prop} {kind' : α → Prop}
    (offers : Offers free reader place used kind dead)
    (h : ∀ value slice, kind value → kind' (value slice)) :
    Offers free (Reader.sliced reader) place used kind' dead where
  alive := offers.alive
  reaches := by
    obtain ⟨before, hbefore, rfl, _⟩ := offers.reads
    exact ⟨_, reads_sliced.mpr ⟨before, hbefore, rfl⟩, rfl⟩
  only reading hreading := by
    obtain ⟨before, hbefore, rfl⟩ := reads_sliced.mp hreading
    exact (offers.only before hbefore).imp_left fun ⟨hused, hcost, hkind⟩ =>
      ⟨hused, hcost, h _ _ hkind⟩

/-- A construct is of a kind whichever slice it is given. -/
theorem slicedAny {reader : Reader (Slice → α)} {kind : α → Prop}
    (offers : Offers free reader place used (fun make => ∀ slice, kind (make slice)) dead) :
    Offers free (Reader.sliced reader) place used kind dead :=
  offers.sliced fun _ slice hmake => hmake slice

theorem extending {reader : Reader (List Form)} {kind : List Form → Prop} {kind' : Form → Prop}
    (offers : Offers free reader place used kind dead) {form : Form}
    (h : ∀ inside, kind inside → kind' (.plain (form.slice.extend used) (form :: inside))) :
    Offers free (Reader.extending form reader) place used kind' dead where
  alive := offers.alive
  reaches := by
    obtain ⟨before, hbefore, rfl, _⟩ := offers.reads
    exact ⟨_, reads_extending.mpr ⟨before, hbefore, rfl⟩, rfl⟩
  only reading hreading := by
    obtain ⟨before, hbefore, rfl⟩ := reads_extending.mp hreading
    rcases offers.only before hbefore with ⟨rfl, hcost, hkind⟩ | hstop
    · exact Or.inl ⟨rfl, hcost, h _ hkind⟩
    · exact Or.inr hstop

/-- Where all readings come to one end there is one reading. -/
theorem readings_eq (settles : Settles free reader place used kind)
    (ascends : AscendsAt reader place) :
    ∃ reading, (reader place).readings = [reading] ∧ reading.used = used ∧
      (free → reading.cost = 0) ∧ kind reading.value := by
  obtain ⟨reading, hreading, hused, hcost, hkind⟩ := settles.reads
  refine ⟨reading, ?_, hused, hcost, hkind⟩
  have hall : ∀ other ∈ (reader place).readings, other = reading := by
    intro other hother
    rcases settles.only other hother with ⟨hotherUsed, _⟩ | hfalse
    · exact ascends.eq_of_used_eq hother hreading (hotherUsed.trans hused.symm)
    · exact hfalse.elim
  cases hlist : (reader place).readings with
  | nil =>
      rw [Reads, hlist] at hreading
      cases hreading
  | cons first rest =>
      rw [hlist] at hall
      have hfirst := hall first (List.mem_cons_self ..)
      cases rest with
      | nil => rw [hfirst]
      | cons second rest =>
          have hsecond := hall second (by simp)
          rw [AscendsAt, hlist, hfirst, hsecond] at ascends
          have hless := (List.pairwise_cons.mp ascends).1 reading (List.mem_cons_self ..)
          exact absurd hless (Nat.lt_irrefl _)

/-- What is counted costs something. -/
theorem counted (offers : Offers free reader place used kind dead) :
    Offers False (Reader.counted reader) place used kind dead where
  alive := offers.alive
  reaches := by
    obtain ⟨before, hbefore, rfl, _⟩ := offers.reads
    exact ⟨_, reads_counted.mpr ⟨before, hbefore, rfl⟩, rfl⟩
  only reading hreading := by
    obtain ⟨before, hbefore, rfl⟩ := reads_counted.mp hreading
    exact (offers.only before hbefore).imp_left fun ⟨hused, _, hkind⟩ => ⟨hused, False.elim, hkind⟩

end Offers

end Reader

end EditableMarkup.Grammar
