import EditableMarkup.Grammar.Reading

/-!
# Readings by their ends

The readings of an outcome stand by strictly ascending ends, so an end has one
reading.  Putting a reading among others loses an end never, and displaces a
reading only by a cheaper one with the same end.  Merged outcomes inherit both
facts, and everything that a composed reader keeps is decided by them.
-/

namespace EditableMarkup.Grammar

variable {α β ι : Type}

namespace Reading

/-- The ends of readings ascend strictly. -/
def Ascending (readings : List (Reading α)) : Prop :=
  readings.Pairwise fun first second => first.used < second.used

/-- Some reading comes to an end at no more than a given cost. -/
def Reaches (readings : List (Reading α)) (used cost : Nat) : Prop :=
  ∃ reading ∈ readings, reading.used = used ∧ reading.cost ≤ cost

/-- Two of ascending readings with the same end are the same reading. -/
theorem Ascending.eq_of_used_eq {readings : List (Reading α)}
    (ascending : Ascending readings) {first second : Reading α}
    (hfirst : first ∈ readings) (hsecond : second ∈ readings)
    (hused : first.used = second.used) : first = second := by
  induction readings with
  | nil => cases hfirst
  | cons head rest ih =>
      obtain ⟨hhead, hrest⟩ := List.pairwise_cons.mp ascending
      rcases List.mem_cons.mp hfirst with rfl | hfirstRest
      · rcases List.mem_cons.mp hsecond with rfl | hsecondRest
        · rfl
        · have := hhead second hsecondRest
          omega
      · rcases List.mem_cons.mp hsecond with rfl | hsecondRest
        · have := hhead first hfirstRest
          omega
        · exact ih hrest hfirstRest hsecondRest

/-! ## One reading among others -/

/-- What stands among readings after an insertion was inserted or stood there before. -/
theorem eq_or_mem_of_mem_insert {reading other : Reading α} {readings : List (Reading α)}
    (h : other ∈ reading.insert readings) : other = reading ∨ other ∈ readings := by
  induction readings with
  | nil => simpa [insert] using h
  | cons head rest ih =>
      unfold insert at h
      split at h
      · simpa using h
      · split at h
        · split at h
          · rcases List.mem_cons.mp h with rfl | h
            · exact Or.inl rfl
            · exact Or.inr (List.mem_cons_of_mem _ h)
          · exact Or.inr h
        · rcases List.mem_cons.mp h with rfl | h
          · exact Or.inr (List.mem_cons_self ..)
          · exact (ih h).imp_right (List.mem_cons_of_mem _)

/-- A reading stays where no cheaper one with the same end is inserted. -/
theorem mem_insert_of_mem {reading other : Reading α} {readings : List (Reading α)}
    (h : other ∈ readings) (hcost : reading.used = other.used → other.cost ≤ reading.cost) :
    other ∈ reading.insert readings := by
  induction readings with
  | nil => cases h
  | cons head rest ih =>
      unfold insert
      split
      · exact List.mem_cons_of_mem _ h
      · split
        · split
          next hused hcheaper =>
            rcases List.mem_cons.mp h with rfl | h
            · have := hcost hused
              omega
            · exact List.mem_cons_of_mem _ h
          next => exact h
        · rcases List.mem_cons.mp h with rfl | h
          · exact List.mem_cons_self ..
          · exact List.mem_cons_of_mem _ (ih h)

/-- A reading with a new end is taken up. -/
theorem mem_insert_self {reading : Reading α} {readings : List (Reading α)}
    (h : ∀ other ∈ readings, other.used ≠ reading.used) : reading ∈ reading.insert readings := by
  induction readings with
  | nil => simp [insert]
  | cons head rest ih =>
      unfold insert
      split
      · exact List.mem_cons_self ..
      · split
        next hused => exact absurd hused.symm (h head (List.mem_cons_self ..))
        next =>
          exact List.mem_cons_of_mem _ (ih fun other hother => h other (List.mem_cons_of_mem _ hother))

/-- The end of an inserted reading is reached at its cost. -/
theorem reaches_insert_self (reading : Reading α) (readings : List (Reading α)) :
    Reaches (reading.insert readings) reading.used reading.cost := by
  induction readings with
  | nil => exact ⟨reading, by simp [insert], rfl, Nat.le_refl _⟩
  | cons head rest ih =>
      unfold insert
      split
      · exact ⟨reading, List.mem_cons_self .., rfl, Nat.le_refl _⟩
      · split
        next hused =>
          split
          · exact ⟨reading, List.mem_cons_self .., rfl, Nat.le_refl _⟩
          next hcost => exact ⟨head, List.mem_cons_self .., hused.symm, by omega⟩
        next =>
          obtain ⟨other, hother, hused, hcost⟩ := ih
          exact ⟨other, List.mem_cons_of_mem _ hother, hused, hcost⟩

/-- An insertion loses no end and makes none dearer. -/
theorem Reaches.insert {readings : List (Reading α)} {used cost : Nat}
    (h : Reaches readings used cost) (reading : Reading α) :
    Reaches (reading.insert readings) used cost := by
  obtain ⟨other, hother, hused, hcost⟩ := h
  by_cases hkept : reading.used = other.used → other.cost ≤ reading.cost
  · exact ⟨other, mem_insert_of_mem hother hkept, hused, hcost⟩
  · obtain ⟨found, hfound, hfoundUsed, hfoundCost⟩ := reaches_insert_self reading readings
    exact ⟨found, hfound, by omega, by omega⟩

/-- Insertion keeps the ends ascending. -/
theorem Ascending.insert {readings : List (Reading α)} (ascending : Ascending readings)
    (reading : Reading α) : Ascending (reading.insert readings) := by
  induction readings with
  | nil => simp [Ascending, Reading.insert]
  | cons head rest ih =>
      obtain ⟨hhead, hrest⟩ := List.pairwise_cons.mp ascending
      unfold Reading.insert
      split
      next hless =>
        refine List.pairwise_cons.mpr ⟨fun other hother => ?_, ascending⟩
        rcases List.mem_cons.mp hother with rfl | hother
        · exact hless
        · exact Nat.lt_trans hless (hhead other hother)
      next hless =>
        split
        next hused =>
          split
          · exact List.pairwise_cons.mpr ⟨fun other hother => hused ▸ hhead other hother, hrest⟩
          · exact ascending
        next hused =>
          refine List.pairwise_cons.mpr ⟨fun other hother => ?_, ih hrest⟩
          rcases eq_or_mem_of_mem_insert hother with rfl | hother
          · omega
          · exact hhead other hother

/-! ## Several readings among others -/

theorem insertAll_cons (head : Reading α) (rest others : List (Reading α)) :
    insertAll (head :: rest) others = insertAll rest (head.insert others) := rfl

theorem mem_or_mem_of_mem_insertAll {readings others : List (Reading α)} {reading : Reading α}
    (h : reading ∈ insertAll readings others) : reading ∈ readings ∨ reading ∈ others := by
  induction readings generalizing others with
  | nil => exact Or.inr h
  | cons head rest ih =>
      rw [insertAll_cons] at h
      rcases ih h with hrest | hothers
      · exact Or.inl (List.mem_cons_of_mem _ hrest)
      · rcases eq_or_mem_of_mem_insert hothers with rfl | hothers
        · exact Or.inl (List.mem_cons_self ..)
        · exact Or.inr hothers

theorem mem_insertAll_of_mem {readings others : List (Reading α)} {reading : Reading α}
    (h : reading ∈ others)
    (hcost : ∀ other ∈ readings, other.used = reading.used → reading.cost ≤ other.cost) :
    reading ∈ insertAll readings others := by
  induction readings generalizing others with
  | nil => exact h
  | cons head rest ih =>
      rw [insertAll_cons]
      refine ih ?_ fun other hother => hcost other (List.mem_cons_of_mem _ hother)
      exact mem_insert_of_mem h (hcost head (List.mem_cons_self ..))

theorem Reaches.insertAll {others : List (Reading α)} {used cost : Nat}
    (h : Reaches others used cost) (readings : List (Reading α)) :
    Reaches (insertAll readings others) used cost := by
  induction readings generalizing others with
  | nil => exact h
  | cons head rest ih => exact ih (h.insert head)

theorem reaches_insertAll_of_mem {readings others : List (Reading α)} {reading : Reading α}
    (h : reading ∈ readings) : Reaches (insertAll readings others) reading.used reading.cost := by
  induction readings generalizing others with
  | nil => cases h
  | cons head rest ih =>
      rcases List.mem_cons.mp h with rfl | h
      · exact (reaches_insert_self reading others).insertAll rest
      · exact ih h

theorem Ascending.insertAll {others : List (Reading α)} (ascending : Ascending others)
    (readings : List (Reading α)) : Ascending (insertAll readings others) := by
  induction readings generalizing others with
  | nil => exact ascending
  | cons head rest ih => exact ih (ascending.insert head)

theorem insertAll_append (first second others : List (Reading α)) :
    insertAll (first ++ second) others = insertAll second (insertAll first others) :=
  List.foldl_append ..

/-! ## Readings behind shorter ones -/

/-- Among readings, one stands behind shorter ones only. -/
def Leads (readings : List (Reading α)) (reading : Reading α) : Prop :=
  ∃ before after, readings = before ++ reading :: after ∧
    ∀ other ∈ before, other.used < reading.used

section Leads

variable {readings others : List (Reading α)} {reading other : Reading α}

theorem Leads.mem (h : Leads readings reading) : reading ∈ readings := by
  obtain ⟨before, after, rfl, _⟩ := h
  simp

theorem leads_cons (reading : Reading α) (rest : List (Reading α)) :
    Leads (reading :: rest) reading :=
  ⟨[], rest, rfl, by simp⟩

theorem Leads.cons (h : Leads readings reading) (hless : other.used < reading.used) :
    Leads (other :: readings) reading := by
  obtain ⟨before, after, rfl, hbefore⟩ := h
  refine ⟨other :: before, after, rfl, fun shorter hshorter => ?_⟩
  rcases List.mem_cons.mp hshorter with rfl | hshorter
  · exact hless
  · exact hbefore shorter hshorter

/-- The leading reading comes first, or it leads behind a shorter one. -/
theorem Leads.cases_cons (h : Leads (other :: readings) reading) :
    other = reading ∨ other.used < reading.used ∧ Leads readings reading := by
  obtain ⟨before, after, hsplit, hbefore⟩ := h
  cases before with
  | nil => exact Or.inl (List.cons.inj hsplit).1
  | cons head before =>
      obtain ⟨rfl, rfl⟩ := List.cons.inj hsplit
      exact Or.inr ⟨hbefore _ (List.mem_cons_self ..), before, after, rfl, fun shorter hshorter =>
        hbefore shorter (List.mem_cons_of_mem _ hshorter)⟩

theorem Ascending.leads (ascending : Ascending readings) (h : reading ∈ readings) :
    Leads readings reading := by
  obtain ⟨before, after, rfl⟩ := List.append_of_mem h
  refine ⟨before, after, rfl, fun other hother => ?_⟩
  exact (List.pairwise_append.mp ascending).2.2 other hother reading (List.mem_cons_self ..)

theorem Leads.map (h : Leads readings reading) {f : Reading α → Reading β}
    (hused : ∀ first second : Reading α, first.used < second.used →
      (f first).used < (f second).used) : Leads (readings.map f) (f reading) := by
  obtain ⟨before, after, rfl, hbefore⟩ := h
  refine ⟨before.map f, after.map f, by simp, fun other hother => ?_⟩
  obtain ⟨shorter, hshorter, rfl⟩ := List.mem_map.mp hother
  exact hused shorter reading (hbefore shorter hshorter)

/-- A search that passes over all shorter readings finds the leading one. -/
theorem Leads.find? (h : Leads readings reading) {test : Reading α → Bool}
    (htest : test reading = true)
    (hshorter : ∀ other ∈ readings, other.used < reading.used → test other = false) :
    readings.find? test = some reading := by
  obtain ⟨before, after, rfl, hbefore⟩ := h
  have hnone : before.find? test = none := by
    refine List.find?_eq_none.mpr fun other hother => ?_
    rw [hshorter other (by simp [hother]) (hbefore other hother)]
    exact Bool.false_ne_true
  rw [List.find?_append, hnone, List.find?_cons_of_pos htest]
  rfl

/-- A leading reading goes on leading where no cheaper one with the same end is inserted. -/
theorem Leads.insert (h : Leads readings reading)
    (hcost : other.used = reading.used → reading.cost ≤ other.cost) :
    Leads (other.insert readings) reading := by
  induction readings with
  | nil => exact absurd h.mem (by simp)
  | cons head rest ih =>
      rcases h.cases_cons with rfl | ⟨hless, hrest⟩
      · unfold Reading.insert
        split
        next hshorter => exact (leads_cons head rest).cons hshorter
        next hshorter =>
          split
          next hused =>
            rw [if_neg (Nat.not_lt.mpr (hcost hused))]
            exact leads_cons head rest
          next hused => exact leads_cons head _
      · unfold Reading.insert
        split
        next hshorter => exact h.cons (Nat.lt_trans hshorter hless)
        next hshorter =>
          split
          next hused =>
            split
            · exact hrest.cons (hused ▸ hless)
            · exact h
          next hused => exact (ih hrest).cons hless

theorem Leads.insertAll (h : Leads others reading)
    (hcost : ∀ other ∈ readings, other.used = reading.used → reading.cost ≤ other.cost) :
    Leads (insertAll readings others) reading := by
  induction readings generalizing others with
  | nil => exact h
  | cons head rest ih =>
      rw [insertAll_cons]
      exact ih (h.insert (hcost head (List.mem_cons_self ..))) fun other hother =>
        hcost other (List.mem_cons_of_mem _ hother)

/-- A leading reading is taken up where its end is new and no other one is cheaper. -/
theorem Leads.mem_insertAll (h : Leads readings reading)
    (hothers : ∀ other ∈ others, other.used ≠ reading.used)
    (hcost : ∀ other ∈ readings, other.used = reading.used → reading.cost ≤ other.cost) :
    reading ∈ Reading.insertAll readings others := by
  obtain ⟨before, after, rfl, hbefore⟩ := h
  rw [insertAll_append, insertAll_cons]
  refine mem_insertAll_of_mem (mem_insert_self fun other hother => ?_) fun other hother =>
    hcost other (by simp [hother])
  rcases mem_or_mem_of_mem_insertAll hother with hshorter | hother
  · exact Nat.ne_of_lt (hbefore other hshorter)
  · exact hothers other hother

end Leads

end Reading

/-! ## Merged outcomes -/

namespace Outcome

open Reading

/-- The outcomes of several attempts, merged into a first one. -/
def mergeAll (first : Outcome α) (attempts : List ι) (outcome : ι → Outcome α) : Outcome α :=
  attempts.foldl (fun merged attempt => merged.merge (outcome attempt)) first

variable {first : Outcome α} {attempts : List ι} {outcome : ι → Outcome α} {reading : Reading α}

theorem mergeAll_cons (attempt : ι) :
    mergeAll first (attempt :: attempts) outcome =
      mergeAll (first.merge (outcome attempt)) attempts outcome := rfl

theorem mem_of_mem_mergeAll (h : reading ∈ (mergeAll first attempts outcome).readings) :
    reading ∈ first.readings ∨ ∃ attempt ∈ attempts, reading ∈ (outcome attempt).readings := by
  induction attempts generalizing first with
  | nil => exact Or.inl h
  | cons head rest ih =>
      rw [mergeAll_cons] at h
      rcases ih h with hmerged | ⟨attempt, hattempt, hfound⟩
      · rcases mem_or_mem_of_mem_insertAll hmerged with hhead | hfirst
        · exact Or.inr ⟨head, List.mem_cons_self .., hhead⟩
        · exact Or.inl hfirst
      · exact Or.inr ⟨attempt, List.mem_cons_of_mem _ hattempt, hfound⟩

theorem mem_mergeAll_of_mem (h : reading ∈ first.readings)
    (hcost : ∀ attempt ∈ attempts, ∀ other ∈ (outcome attempt).readings,
      other.used = reading.used → reading.cost ≤ other.cost) :
    reading ∈ (mergeAll first attempts outcome).readings := by
  induction attempts generalizing first with
  | nil => exact h
  | cons head rest ih =>
      rw [mergeAll_cons]
      refine ih ?_ fun attempt hattempt => hcost attempt (List.mem_cons_of_mem _ hattempt)
      exact mem_insertAll_of_mem h (hcost head (List.mem_cons_self ..))

theorem reaches_mergeAll_of_reaches {used cost : Nat} (h : Reaches first.readings used cost) :
    Reaches (mergeAll first attempts outcome).readings used cost := by
  induction attempts generalizing first with
  | nil => exact h
  | cons head rest ih =>
      rw [mergeAll_cons]
      exact ih (h.insertAll _)

theorem reaches_mergeAll {attempt : ι} (hattempt : attempt ∈ attempts)
    (h : reading ∈ (outcome attempt).readings) :
    Reaches (mergeAll first attempts outcome).readings reading.used reading.cost := by
  induction attempts generalizing first with
  | nil => cases hattempt
  | cons head rest ih =>
      rw [mergeAll_cons]
      rcases List.mem_cons.mp hattempt with rfl | hattempt
      · exact reaches_mergeAll_of_reaches (reaches_insertAll_of_mem h)
      · exact ih hattempt

theorem ascending_mergeAll (h : Ascending first.readings) :
    Ascending (mergeAll first attempts outcome).readings := by
  induction attempts generalizing first with
  | nil => exact h
  | cons head rest ih =>
      rw [mergeAll_cons]
      exact ih (h.insertAll _)

/-- The first attempt that comes to an end decides the reading of this end, if none is cheaper. -/
theorem mem_mergeAll {before after : List ι} {attempt : ι}
    (hattempts : attempts = before ++ attempt :: after)
    (h : Leads (outcome attempt).readings reading)
    (hfirst : ∀ other ∈ first.readings, other.used ≠ reading.used)
    (hbefore : ∀ earlier ∈ before, ∀ other ∈ (outcome earlier).readings,
      other.used ≠ reading.used)
    (hcost : ∀ later ∈ attempt :: after, ∀ other ∈ (outcome later).readings,
      other.used = reading.used → reading.cost ≤ other.cost) :
    reading ∈ (mergeAll first attempts outcome).readings := by
  subst hattempts
  induction before generalizing first with
  | nil =>
      rw [List.nil_append, mergeAll_cons]
      exact mem_mergeAll_of_mem (h.mem_insertAll hfirst (hcost attempt (List.mem_cons_self ..)))
        fun later hlater => hcost later (List.mem_cons_of_mem _ hlater)
  | cons head rest ih =>
      rw [List.cons_append, mergeAll_cons]
      refine ih (fun other hother => ?_) fun earlier hearlier =>
        hbefore earlier (List.mem_cons_of_mem _ hearlier)
      rcases mem_or_mem_of_mem_insertAll hother with hhead | hfirst'
      · exact hbefore head (List.mem_cons_self ..) other hhead
      · exact hfirst other hfirst'

end Outcome

end EditableMarkup.Grammar
