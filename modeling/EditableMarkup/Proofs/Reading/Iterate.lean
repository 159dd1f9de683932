import EditableMarkup.Proofs.Reading.Reads

/-!
# Repetition

`Reader.grow` works off an agenda of readings, nearest end first.  A property
that holds of the first readings and passes over every step holds of all
readings that are kept.  Where every step leads further, the agenda never
returns to an end, so its fuel suffices and every step from a kept reading is
taken.  A reading that leads the agenda and is cheap enough is never displaced.
-/

namespace EditableMarkup.Grammar

variable {α β : Type} {free : Prop}

namespace Reader

open Reading

/-! ## The agenda -/

section Grow

variable {step : α → Reader α} {place : Place}

/-- What is put on the agenda behind a reading. -/
def nextOf (step : α → Reader α) (place : Place) (reading : Reading α) : List (Reading α) :=
  (Outcome.behind reading (step reading.value (place.advance reading.used))).readings

theorem mem_nextOf {reading other : Reading α} :
    other ∈ nextOf step place reading ↔
      ∃ after, Reads (step reading.value) (place.advance reading.used) after ∧
        other = reading.followedBy after := by
  simp only [nextOf, Outcome.behind, List.mem_map, Reads]
  constructor
  · rintro ⟨after, hafter, rfl⟩
    exact ⟨after, hafter, rfl⟩
  · rintro ⟨after, hafter, rfl⟩
    exact ⟨after, hafter, rfl⟩

theorem grow_zero (agenda : List (Reading α)) :
    (grow step place 0 agenda).readings = agenda := by
  cases agenda <;> rfl

theorem grow_nil (fuel : Nat) : (grow step place fuel []).readings = [] := by
  cases fuel <;> rfl

theorem grow_cons (fuel : Nat) (reading : Reading α) (agenda : List (Reading α)) :
    (grow step place (fuel + 1) (reading :: agenda)).readings =
      reading :: (grow step place fuel (insertAll (nextOf step place reading) agenda)).readings :=
  rfl

/-- A property of the agenda that passes over every step holds of all that is kept. -/
theorem grow_induction (property : Reading α → Prop)
    (hstep : ∀ reading after, property reading →
      Reads (step reading.value) (place.advance reading.used) after →
      property (reading.followedBy after))
    (fuel : Nat) {agenda : List (Reading α)} (hagenda : ∀ reading ∈ agenda, property reading) :
    ∀ reading ∈ (grow step place fuel agenda).readings, property reading := by
  induction fuel generalizing agenda with
  | zero =>
      rw [grow_zero]
      exact hagenda
  | succ fuel ih =>
      cases agenda with
      | nil =>
          rw [grow_nil]
          exact hagenda
      | cons head rest =>
          have hhead := hagenda head (List.mem_cons_self ..)
          rw [grow_cons]
          intro reading hreading
          rcases List.mem_cons.mp hreading with rfl | hreading
          · exact hhead
          · refine ih (fun other hother => ?_) reading hreading
            rcases mem_or_mem_of_mem_insertAll hother with hnext | hrest
            · obtain ⟨after, hafter, rfl⟩ := mem_nextOf.mp hnext
              exact hstep head after hhead hafter
            · exact hagenda other (List.mem_cons_of_mem _ hrest)

/-- No end on the agenda is lost. -/
theorem reaches_grow (fuel : Nat) {agenda : List (Reading α)} {used cost : Nat}
    (h : Reaches agenda used cost) : Reaches (grow step place fuel agenda).readings used cost := by
  induction fuel generalizing agenda with
  | zero => rwa [grow_zero]
  | succ fuel ih =>
      cases agenda with
      | nil => rwa [grow_nil]
      | cons head rest =>
          rw [grow_cons]
          obtain ⟨reading, hreading, hused, hcost⟩ := h
          rcases List.mem_cons.mp hreading with rfl | hreading
          · exact ⟨reading, List.mem_cons_self .., hused, hcost⟩
          · have hrest : Reaches rest used cost := ⟨reading, hreading, hused, hcost⟩
            obtain ⟨found, hfound, hfoundUsed, hfoundCost⟩ :=
              ih (hrest.insertAll (nextOf step place head))
            exact ⟨found, List.mem_cons_of_mem _ hfound, hfoundUsed, hfoundCost⟩

/-- Every step from a kept reading within the place is taken, if all steps lead further. -/
theorem reaches_grow_step (property : Reading α → Prop)
    (hstep : ∀ reading after, property reading →
      Reads (step reading.value) (place.advance reading.used) after →
      0 < after.used ∧ property (reading.followedBy after))
    (fuel start : Nat) {agenda : List (Reading α)} (ascending : Ascending agenda)
    (hagenda : ∀ reading ∈ agenda, property reading ∧ start ≤ reading.used)
    (hfuel : place.length < fuel + start) {reading after : Reading α}
    (hreading : reading ∈ (grow step place fuel agenda).readings)
    (hused : reading.used ≤ place.length)
    (hafter : Reads (step reading.value) (place.advance reading.used) after) :
    Reaches (grow step place fuel agenda).readings (reading.used + after.used)
      (reading.cost + after.cost) := by
  induction fuel generalizing agenda start with
  | zero =>
      rw [grow_zero] at hreading
      have := (hagenda reading hreading).2
      omega
  | succ fuel ih =>
      cases agenda with
      | nil =>
          rw [grow_nil] at hreading
          cases hreading
      | cons head rest =>
          obtain ⟨hhead, hrest⟩ := List.pairwise_cons.mp ascending
          obtain ⟨hproperty, hstart⟩ := hagenda head (List.mem_cons_self ..)
          rw [grow_cons] at hreading ⊢
          have hreached : ∀ used cost, Reaches
              (grow step place fuel (insertAll (nextOf step place head) rest)).readings used cost →
              Reaches (head ::
                (grow step place fuel (insertAll (nextOf step place head) rest)).readings)
                used cost := by
            rintro used cost ⟨found, hfound, hfoundUsed, hfoundCost⟩
            exact ⟨found, List.mem_cons_of_mem _ hfound, hfoundUsed, hfoundCost⟩
          apply hreached
          rcases List.mem_cons.mp hreading with rfl | hreading
          · rw [← followedBy_used, ← followedBy_cost]
            exact reaches_grow fuel (reaches_insertAll_of_mem (mem_nextOf.mpr ⟨after, hafter, rfl⟩))
          · refine ih (head.used + 1) (Ascending.insertAll hrest _) (fun other hother => ?_) (by omega)
              hreading
            rcases mem_or_mem_of_mem_insertAll hother with hnext | hother
            · obtain ⟨further, hfurther, rfl⟩ := mem_nextOf.mp hnext
              obtain ⟨hpositive, hkept⟩ := hstep head further hproperty hfurther
              refine ⟨hkept, ?_⟩
              rw [followedBy_used]
              omega
            · exact ⟨(hagenda other (List.mem_cons_of_mem _ hother)).1, hhead other hother⟩

/-- A reading that leads the agenda goes on leading, if no way to its end is cheaper. -/
theorem leads_grow (property : Reading α → Prop)
    (hstep : ∀ reading after, property reading →
      Reads (step reading.value) (place.advance reading.used) after →
      property (reading.followedBy after))
    (fuel : Nat) {agenda : List (Reading α)} (hagenda : ∀ reading ∈ agenda, property reading)
    {reading : Reading α} (leads : Leads agenda reading)
    (hcost : ∀ other, property other → other.used = reading.used → reading.cost ≤ other.cost) :
    Leads (grow step place fuel agenda).readings reading := by
  induction fuel generalizing agenda with
  | zero =>
      rw [grow_zero]
      exact leads
  | succ fuel ih =>
      cases agenda with
      | nil => exact absurd leads.mem (by simp)
      | cons head rest =>
          rw [grow_cons]
          rcases leads.cases_cons with rfl | ⟨hless, hrest⟩
          · exact leads_cons head _
          · have hnext : ∀ other ∈ nextOf step place head, property other := by
              intro other hother
              obtain ⟨after, hafter, rfl⟩ := mem_nextOf.mp hother
              exact hstep head after (hagenda head (List.mem_cons_self ..)) hafter
            refine Leads.cons (ih (fun other hother => ?_) ?_) hless
            · rcases mem_or_mem_of_mem_insertAll hother with hother | hother
              · exact hnext other hother
              · exact hagenda other (List.mem_cons_of_mem _ hother)
            · exact hrest.insertAll fun other hother => hcost other (hnext other hother)

end Grow

/-! ## Iteration -/

section Iterate

variable {first : Reader α} {step : α → Reader α} {place : Place}

/-- A property of the first readings that passes over every step holds of all that is kept. -/
theorem iterate_induction (property : Reading α → Prop)
    (hfirst : ∀ reading, Reads first place reading → property reading)
    (hstep : ∀ reading after, property reading →
      Reads (step reading.value) (place.advance reading.used) after →
      property (reading.followedBy after))
    {reading : Reading α} (h : Reads (iterate first step) place reading) : property reading :=
  grow_induction property hstep _ hfirst reading h

theorem reaches_iterate {reading : Reading α} (h : Reads first place reading) :
    Reaches (iterate first step place).readings reading.used reading.cost :=
  reaches_grow _ ⟨reading, h, rfl, Nat.le_refl _⟩

theorem reaches_iterate_step (property : Reading α → Prop) (ascends : AscendsAt first place)
    (hfirst : ∀ reading, Reads first place reading → property reading)
    (hstep : ∀ reading after, property reading →
      Reads (step reading.value) (place.advance reading.used) after →
      0 < after.used ∧ property (reading.followedBy after))
    {reading after : Reading α} (h : Reads (iterate first step) place reading)
    (hused : reading.used ≤ place.length)
    (hafter : Reads (step reading.value) (place.advance reading.used) after) :
    Reaches (iterate first step place).readings (reading.used + after.used)
      (reading.cost + after.cost) :=
  reaches_grow_step property hstep _ 0 ascends
    (fun reading hreading => ⟨hfirst reading hreading, Nat.zero_le _⟩)
    (Nat.lt_succ_self _) h hused hafter

/-- Where the first readings settle and no step can be taken, iteration adds nothing. -/
theorem Offers.iterate {used : Nat} {kind : α → Prop} {dead : Place → Prop}
    (offers : Offers free first place used kind dead)
    (hlast : ∀ value, kind value → Fails (step value) (place.advance used))
    (hdead : ∀ value place, dead place → Fails (step value) place) :
    Offers free (iterate first step) place used kind dead where
  alive := offers.alive
  reaches := by
    obtain ⟨reading, hreading, rfl, _⟩ := offers.reads
    have hreached : Reaches (Reader.iterate first step place).readings reading.used reading.cost :=
      reaches_iterate hreading
    obtain ⟨found, hfound, hused, _⟩ := hreached
    exact ⟨found, hfound, hused⟩
  only reading hreading := by
    refine iterate_induction
      (fun reading => (reading.used = used ∧ (free → reading.cost = 0) ∧ kind reading.value) ∨
        dead (place.advance reading.used))
      offers.only (fun before after hbefore hafter => ?_) hreading
    rcases hbefore with ⟨hused, _, hkind⟩ | hdead'
    · rw [hused] at hafter
      exact absurd hafter (hlast _ hkind after)
    · exact absurd hafter (hdead _ _ hdead' after)

end Iterate

end Reader

end EditableMarkup.Grammar
