import EditableMarkup.Proofs.Reading.Tags

/-!
# Runs of children

Printed children leave no choice: behind every child there is one way to go on.
So the runs of children from a place are the beginnings of one run, and all but
the last of them stop where no closing tag stands.
-/

namespace EditableMarkup.Grammar

open Place Reader Rule

variable {free : Prop}

namespace Reader

variable {α : Type} {reader : Reader α} {place : Place}

theorem readings_eq_nil (h : Fails reader place) : (reader place).readings = [] := by
  refine List.eq_nil_iff_forall_not_mem.mpr fun reading hreading => ?_
  exact h reading hreading

end Reader

/-- A place from which no angle bracket leads to a closing tag. -/
def Astray (place : Place) : Prop :=
  ∀ reading, Reads (Reader.sign "<") place reading →
    Fails (Reader.sign "/") (place.advance reading.used)

/-- Children from an end with children of some kind to a last end, one by one. -/
inductive RunChain (free : Prop) (place : Place) (last : Nat)
    (lastKind : List (Child Form) → Prop) :
    Nat → (List (Child Form) → Prop) → Prop where
  | stop (h : Fails child (place.advance last)) : RunChain free place last lastKind last lastKind
  | next {used count : Nat} {kind nextKind : List (Child Form) → Prop} {childKind : Child Form → Prop}
      (astray : Astray (place.advance used)) (hcount : 0 < count)
      (settles : Settles free child (place.advance used) count fun found => childKind found.child)
      (hkind : ∀ children found, kind children → childKind found → nextKind (children ++ [found]))
      (chain : RunChain free place last lastKind (used + count) nextKind) :
      RunChain free place last lastKind used kind

namespace RunChain

variable {place : Place} {last used : Nat} {lastKind kind : List (Child Form) → Prop}

theorem le (chain : RunChain free place last lastKind used kind) : used ≤ last := by
  induction chain with
  | stop h => exact Nat.le_refl _
  | next astray hcount settles hkind chain ih => omega

theorem ascendsAt_child {place : Place} : AscendsAt child place :=
  ascendsAt_oneOf

theorem grow_nil (fuel : Nat) : (Run.grow child place fuel []).1 = [] := by
  cases fuel <;> rfl

theorem grow_singleton (fuel : Nat) (run : Run) :
    (Run.grow child place (fuel + 1) [run]).1 =
      run :: (Run.grow child place fuel
        (((child (place.advance run.used)).readings.map
          (run.append (place.advance run.used).gaps)).foldl (fun runs run => run.insert runs) [])).1 :=
  rfl

/-- The runs that start at the beginning of a chain end on the chain, and one of them at its end. -/
theorem grow (chain : RunChain free place last lastKind used kind) {run : Run}
    (hused : run.used = used)
    (hcost : free → run.cost = 0) (hkind : kind run.children) {fuel : Nat}
    (hfuel : last < fuel + used) :
    (∀ found ∈ (Run.grow child place fuel [run]).1,
      (found.used = last ∧ (free → found.cost = 0) ∧ lastKind found.children) ∨
        Astray (place.advance found.used)) ∧
      ∃ found ∈ (Run.grow child place fuel [run]).1, found.used = last := by
  induction chain generalizing run fuel with
  | stop h =>
      obtain ⟨fuel, rfl⟩ : ∃ count, fuel = count + 1 := ⟨fuel - 1, by omega⟩
      rw [grow_singleton, hused, readings_eq_nil h, List.map_nil, List.foldl_nil, grow_nil]
      refine ⟨fun found hfound => ?_, run, List.mem_cons_self .., hused⟩
      rw [List.mem_singleton.mp hfound]
      exact Or.inl ⟨hused, hcost, hkind⟩
  | @next used count kind nextKind childKind astray hcount settles hnext chain ih =>
      have hle := chain.le
      obtain ⟨fuel, rfl⟩ : ∃ count, fuel = count + 1 := ⟨fuel - 1, by omega⟩
      obtain ⟨reading, hreadings, hcountUsed, hzero, hchild⟩ := settles.readings_eq ascendsAt_child
      rw [grow_singleton, hused, hreadings]
      have hlonger : ([reading].map (run.append (place.advance used).gaps)).foldl
          (fun runs run => run.insert runs) [] = [run.append (place.advance used).gaps reading] := rfl
      rw [hlonger]
      have hnextUsed : (run.append (place.advance used).gaps reading).used = used + count := by
        rw [← hused, ← hcountUsed]
        rfl
      have hnextCost : free → (run.append (place.advance used).gaps reading).cost = 0 := by
        intro hfree
        change run.cost + reading.cost = 0
        rw [hcost hfree, hzero hfree]
      obtain ⟨hall, hlast⟩ := ih hnextUsed hnextCost (hnext _ _ hkind hchild)
        (show last < fuel + (used + count) by omega)
      constructor
      · intro found hfound
        rcases List.mem_cons.mp hfound with rfl | hfound
        · rw [hused]
          exact Or.inr astray
        · exact hall found hfound
      · obtain ⟨found, hfound, hfoundUsed⟩ := hlast
        exact ⟨found, List.mem_cons_of_mem _ hfound, hfoundUsed⟩

end RunChain

/-! ## Up to the closing tag -/

namespace Inside

theorem eq_or_mem_of_mem_insert {reading other : Reading Inside} {readings : List (Reading Inside)}
    (h : other ∈ insert reading readings) : other = reading ∨ other ∈ readings := by
  induction readings with
  | nil => simpa [insert] using h
  | cons head rest ih =>
      unfold insert at h
      split at h
      · simpa using h
      · split at h
        · split at h
          · rcases List.mem_cons.mp h with rfl | h
            · exact Or.inl rfl
            · exact Or.inr (List.mem_cons_of_mem _ h)
          · exact Or.inr h
        · rcases List.mem_cons.mp h with rfl | h
          · exact Or.inr (List.mem_cons_self ..)
          · exact (ih h).imp_right (List.mem_cons_of_mem _)

/-- An insertion loses no end, and takes up the new one. -/
theorem exists_used_insert {reading : Reading Inside} {readings : List (Reading Inside)} {used : Nat}
    (h : reading.used = used ∨ ∃ other ∈ readings, other.used = used) :
    ∃ other ∈ insert reading readings, other.used = used := by
  induction readings with
  | nil =>
      refine ⟨reading, List.mem_singleton.mpr rfl, ?_⟩
      rcases h with h | ⟨other, hother, _⟩
      · exact h
      · cases hother
  | cons head rest ih =>
      have hsplit : reading.used = used ∨ head.used = used ∨ ∃ other ∈ rest, other.used = used := by
        rcases h with h | ⟨other, hother, hused⟩
        · exact Or.inl h
        · rcases List.mem_cons.mp hother with rfl | hother
          · exact Or.inr (Or.inl hused)
          · exact Or.inr (Or.inr ⟨other, hother, hused⟩)
      unfold insert
      split
      · rcases hsplit with h | h | ⟨other, hother, h⟩
        · exact ⟨reading, List.mem_cons_self .., h⟩
        · exact ⟨head, by simp, h⟩
        · exact ⟨other, by simp [hother], h⟩
      · split
        next hsame =>
          split
          · rcases hsplit with h | h | ⟨other, hother, h⟩
            · exact ⟨reading, List.mem_cons_self .., h⟩
            · exact ⟨reading, List.mem_cons_self .., hsame.trans h⟩
            · exact ⟨other, List.mem_cons_of_mem _ hother, h⟩
          · rcases hsplit with h | h | ⟨other, hother, h⟩
            · exact ⟨head, List.mem_cons_self .., hsame.symm.trans h⟩
            · exact ⟨head, List.mem_cons_self .., h⟩
            · exact ⟨other, List.mem_cons_of_mem _ hother, h⟩
        next =>
          rcases hsplit with h | h | hrest
          · obtain ⟨other, hother, hused⟩ := ih (Or.inl h)
            exact ⟨other, List.mem_cons_of_mem _ hother, hused⟩
          · exact ⟨head, List.mem_cons_self .., h⟩
          · obtain ⟨other, hother, hused⟩ := ih (Or.inr hrest)
            exact ⟨other, List.mem_cons_of_mem _ hother, hused⟩

/-- Several readings put among others. -/
def insertAll (readings others : List (Reading Inside)) : List (Reading Inside) :=
  readings.foldl (fun found reading => insert reading found) others

theorem mem_or_mem_of_mem_insertAll {readings others : List (Reading Inside)}
    {reading : Reading Inside} (h : reading ∈ insertAll readings others) :
    reading ∈ readings ∨ reading ∈ others := by
  induction readings generalizing others with
  | nil => exact Or.inr h
  | cons head rest ih =>
      rcases ih h with hrest | hothers
      · exact Or.inl (List.mem_cons_of_mem _ hrest)
      · rcases eq_or_mem_of_mem_insert hothers with rfl | hothers
        · exact Or.inl (List.mem_cons_self ..)
        · exact Or.inr hothers

theorem exists_used_insertAll {readings others : List (Reading Inside)} {used : Nat}
    (h : (∃ reading ∈ readings, reading.used = used) ∨ ∃ other ∈ others, other.used = used) :
    ∃ other ∈ insertAll readings others, other.used = used := by
  induction readings generalizing others with
  | nil =>
      rcases h with ⟨reading, hreading, _⟩ | h
      · cases hreading
      · exact h
  | cons head rest ih =>
      refine ih ?_
      rcases h with ⟨reading, hreading, hused⟩ | h
      · rcases List.mem_cons.mp hreading with rfl | hreading
        · exact Or.inr (exists_used_insert (Or.inl hused))
        · exact Or.inl ⟨reading, hreading, hused⟩
      · exact Or.inr (exists_used_insert (Or.inr h))

end Inside

/-- Behind a run of children, the readings up to the angle bracket of a closing tag. -/
def Run.closings (place : Place) (run : Run) : List (Reading Inside) :=
  let behind := place.advance run.used
  (Reader.sign "<" behind).readings.map fun reading =>
    { value :=
        { children := run.children, closing := Trail.of behind.gaps reading.lead
          arrivals := run.arrivals }
      lead := run.used + reading.lead
      used := run.used + reading.used
      cost := run.cost + reading.cost }

/-- The readings behind several runs, put among others. -/
def Run.closingsAll (place : Place) (runs : List Run) (others : List (Reading Inside)) :
    List (Reading Inside) :=
  runs.foldl (fun found run => Inside.insertAll (run.closings place) found) others

theorem readings_inside (place : Place) :
    (Rule.inside place).readings =
      Run.closingsAll place (Run.grow child place (place.length + 1) [Run.empty]).1 [] :=
  (List.foldl_hom Outcome.readings fun _ _ => rfl).symm

theorem mem_of_mem_closingsAll {place : Place} {runs : List Run} {others : List (Reading Inside)}
    {reading : Reading Inside} (h : reading ∈ Run.closingsAll place runs others) :
    (∃ run ∈ runs, reading ∈ run.closings place) ∨ reading ∈ others := by
  induction runs generalizing others with
  | nil => exact Or.inr h
  | cons run runs ih =>
      rcases ih h with ⟨found, hfound, hreading⟩ | hothers
      · exact Or.inl ⟨found, List.mem_cons_of_mem _ hfound, hreading⟩
      · rcases Inside.mem_or_mem_of_mem_insertAll hothers with hrun | hothers
        · exact Or.inl ⟨run, List.mem_cons_self .., hrun⟩
        · exact Or.inr hothers

/-- Where no child is read, the angle bracket of the closing tag stands at once. -/
theorem exists_of_reads_inside {place : Place} (h : Fails child place) {reading : Reading Inside}
    (hreading : Reads Rule.inside place reading) :
    ∃ bracket, Reads (Reader.sign "<") place bracket ∧ reading.used = bracket.used := by
  have hnext : (child place).readings = [] := List.eq_nil_iff_forall_not_mem.mpr h
  have hruns : ∀ run ∈ (Run.grow child place (place.length + 1) [Run.empty]).1, run.used = 0 := by
    have hrest : (Run.grow child place place.length []).1 = [] := by
      cases place.length <;> rfl
    simp [Run.grow, Run.empty, hnext, hrest]
  rw [Reads, readings_inside] at hreading
  rcases mem_of_mem_closingsAll hreading with ⟨run, hrun, hclosing⟩ | hnone
  · obtain ⟨bracket, hbracket, rfl⟩ := List.mem_map.mp hclosing
    rw [hruns run hrun] at hbracket ⊢
    exact ⟨bracket, hbracket, Nat.zero_add _⟩
  · cases hnone

theorem exists_used_closingsAll {place : Place} {runs : List Run} {others : List (Reading Inside)}
    {used : Nat} (h : (∃ run ∈ runs, ∃ reading ∈ run.closings place, reading.used = used) ∨
      ∃ other ∈ others, other.used = used) :
    ∃ reading ∈ Run.closingsAll place runs others, reading.used = used := by
  induction runs generalizing others with
  | nil =>
      rcases h with ⟨run, hrun, _⟩ | h
      · cases hrun
      · exact h
  | cons run runs ih =>
      refine ih ?_
      rcases h with ⟨found, hfound, hreading⟩ | h
      · rcases List.mem_cons.mp hfound with rfl | hfound
        · exact Or.inr (Inside.exists_used_insertAll (Or.inl hreading))
        · exact Or.inl ⟨found, hfound, hreading⟩
      · exact Or.inr (Inside.exists_used_insertAll (Or.inr h))

/-- Children that are read one by one are the children up to the closing tag. -/
theorem RunChain.offers_inside {place : Place} {last count : Nat}
    {kind lastKind : List (Child Form) → Prop}
    (chain : RunChain free place last lastKind 0 kind) (hnone : kind [])
    (hlast : last ≤ place.length)
    (bracket : Settles free (Reader.sign "<") (place.advance last) count fun _ => True)
    (halive : ¬ Fails (Reader.sign "/") (place.advance (last + count))) :
    Offers free Rule.inside place (last + count) (fun inside => lastKind inside.children)
      (Fails (Reader.sign "/")) := by
  obtain ⟨hall, hfound⟩ := chain.grow (show Run.empty.used = 0 from rfl) (fun _ => rfl) hnone
    (show last < place.length + 1 + 0 by omega)
  refine ⟨halive, ?_, ?_⟩
  · obtain ⟨run, hrun, hused⟩ := hfound
    obtain ⟨reading, hreading, hreadingUsed⟩ := bracket.reaches
    have hclosing : ∃ closing ∈ run.closings place, closing.used = last + count := by
      rw [← hused] at hreading
      exact ⟨_, List.mem_map_of_mem hreading, by rw [hused, hreadingUsed]⟩
    obtain ⟨found, hfound, hfoundUsed⟩ := exists_used_closingsAll (Or.inl ⟨run, hrun, hclosing⟩)
    exact ⟨found, by rwa [Reads, readings_inside], hfoundUsed⟩
  · intro reading hreading
    rw [Reads, readings_inside] at hreading
    rcases mem_of_mem_closingsAll hreading with ⟨run, hrun, hclosing⟩ | hnone
    · obtain ⟨bracketReading, hbracket, rfl⟩ := List.mem_map.mp hclosing
      rcases hall run hrun with ⟨hused, hcost, hkind⟩ | astray
      · rw [hused] at hbracket
        rcases bracket.only bracketReading hbracket with ⟨hcount, hzero, _⟩ | hfalse
        · exact Or.inl ⟨by rw [hused, hcount], fun hfree => by rw [hcost hfree, hzero hfree], hkind⟩
        · exact hfalse.elim
      · refine Or.inr ?_
        rw [advance_add]
        exact astray bracketReading hbracket
    · cases hnone

end EditableMarkup.Grammar
