import EditableMarkup.Proofs.Reading.Iterate

/-!
# Chains of steps

An iterated reader may step from one end to the next along a chain of ends.
If all steps from the ends of a chain lead to the next end, or to places where
no step can go on, then the iterated reader comes to the end of the chain, and
all its other ends lie on the chain or at such places.
-/

namespace EditableMarkup.Grammar.Reader

open Reading

variable {α : Type} {free : Prop}

/-- A chain of steps from an end with values of some kind to a last end: a step may stop at a dead
place instead of the next end, and `left` can be said of all ends before the last. -/
inductive Chain (free : Prop) (step : α → Reader α) (place : Place) (dead left : Place → Prop)
    (last : Nat)
    (lastKind : α → Prop) : Nat → (α → Prop) → Prop where
  | stop (h : ∀ value, lastKind value → Fails (step value) (place.advance last)) :
      Chain free step place dead left last lastKind last lastKind
  | next {used count : Nat} {kind nextKind : α → Prop} (hleft : left (place.advance used))
      (halive : ¬ dead (place.advance used)) (hcount : 0 < count)
      (offers : ∀ value, kind value →
        Offers free (step value) (place.advance used) count nextKind dead)
      (chain : Chain free step place dead left last lastKind (used + count) nextKind) :
      Chain free step place dead left last lastKind used kind

namespace Chain

variable {step : α → Reader α} {place : Place} {dead left : Place → Prop} {last used : Nat}
variable {lastKind kind : α → Prop}

theorem le (chain : Chain free step place dead left last lastKind used kind) : used ≤ last := by
  induction chain with
  | stop h => exact Nat.le_refl _
  | next hleft halive hcount offers chain ih => omega

/-- A reading ends on a chain with a value of the right kind, or at a dead place. -/
def Follows (free : Prop) (step : α → Reader α) (place : Place) (dead left : Place → Prop)
    (last : Nat)
    (lastKind : α → Prop) (reading : Reading α) : Prop :=
  (∃ kind, Chain free step place dead left last lastKind reading.used kind ∧ kind reading.value ∧
    (free → reading.cost = 0)) ∨ dead (place.advance reading.used)

/-- A step from a reading on a chain leads further, and it stays on the chain or stops at a dead
place. -/
theorem follows_step (hdead : ∀ value place, dead place → Fails (step value) place)
    {reading after : Reading α} (h : Follows free step place dead left last lastKind reading)
    (hafter : Reads (step reading.value) (place.advance reading.used) after) :
    0 < after.used ∧ Follows free step place dead left last lastKind
      (reading.followedBy after) := by
  rcases h with ⟨kind, chain, hkind, hcost⟩ | hstop
  · generalize hused : reading.used = used at chain
    rw [hused] at hafter
    cases chain with
    | stop hlast => exact absurd hafter (hlast reading.value hkind after)
    | next hleft halive hcount offers chain =>
        rcases (offers reading.value hkind).only after hafter with ⟨rfl, hzero, hnext⟩ | hstop
        · refine ⟨hcount, Or.inl ⟨_, ?_, hnext, ?_⟩⟩
          · rw [followedBy_used, hused]
            exact chain
          · exact fun hfree => by rw [followedBy_cost, hcost hfree, hzero hfree]
        · constructor
          · refine Nat.pos_of_ne_zero fun hzero => halive ?_
            rwa [hzero, Place.advance_zero] at hstop
          · refine Or.inr ?_
            rwa [followedBy_used, hused, Place.advance_add]
  · exact absurd hafter (hdead _ _ hstop after)

end Chain

section Iterate

variable {first : Reader α} {step : α → Reader α} {place : Place} {used last : Nat}
variable {kind lastKind : α → Prop} {dead left : Place → Prop}

/-- All that an iterated reader keeps follows a chain, if all first parts do. -/
theorem Chain.follows_iterate (hdead : ∀ value place, dead place → Fails (step value) place)
    (hfirst : ∀ reading, Reads first place reading →
      Chain.Follows free step place dead left last lastKind reading)
    {reading : Reading α} (h : Reads (Reader.iterate first step) place reading) :
    Chain.Follows free step place dead left last lastKind reading := by
  refine iterate_induction _ hfirst ?_ h
  intro reading after hfollows hafter
  exact (Chain.follows_step hdead hfollows hafter).2

/-- From every end on a chain the last one is reached. -/
theorem Chain.reaches_last (ascends : AscendsAt first place)
    (hdead : ∀ value place, dead place → Fails (step value) place)
    (hfirst : ∀ reading, Reads first place reading →
      Chain.Follows free step place dead left last lastKind reading)
    (hlast : last ≤ place.length) (fuel : Nat) {reading : Reading α}
    (h : Reads (Reader.iterate first step) place reading) (hfuel : last ≤ reading.used + fuel)
    (halive : ¬ dead (place.advance reading.used)) :
    ∃ found, Reads (Reader.iterate first step) place found ∧ found.used = last := by
  induction fuel generalizing reading with
  | zero =>
      rcases Chain.follows_iterate hdead hfirst h with ⟨kind, chain, _, _⟩ | hstop
      · exact ⟨reading, h, Nat.le_antisymm chain.le hfuel⟩
      · exact absurd hstop halive
  | succ fuel ih =>
      rcases Chain.follows_iterate hdead hfirst h with ⟨kind, chain, hkind, _⟩ | hstop
      · have hle := chain.le
        generalize hused : reading.used = used at chain hle
        cases chain with
        | stop _ => exact ⟨reading, h, hused⟩
        | next _ _ hcount next chain =>
            obtain ⟨after, hafter, hafterUsed⟩ := (next reading.value hkind).reaches
            have halive' := (next reading.value hkind).alive
            rw [← hused] at hafter halive'
            obtain ⟨found, hfound, hfoundUsed, _⟩ :=
              reaches_iterate_step _ ascends hfirst (fun _ _ => Chain.follows_step hdead) h
                (by omega) hafter
            refine ih hfound (by omega) ?_
            rw [hfoundUsed, hafterUsed, Place.advance_add]
            exact halive'
      · exact absurd hstop halive

/-- An iterated reader comes to the end of a chain that starts where its first part ends. -/
theorem Offers.chain (offers : Offers free first place used kind dead)
    (chain : Chain free step place dead left last lastKind used kind)
    (ascends : AscendsAt first place)
    (hdead : ∀ value place, dead place → Fails (step value) place)
    (hlast : last ≤ place.length) (halive : ¬ left (place.advance last))
    (hleft : ∀ place, dead place → left place) :
    Offers free (Reader.iterate first step) place last lastKind left where
  alive := halive
  reaches := by
    have hfirst : ∀ reading, Reads first place reading →
        Chain.Follows free step place dead left last lastKind reading := by
      intro reading hreading
      rcases offers.only reading hreading with ⟨rfl, hcost, hkind⟩ | hstop
      · exact Or.inl ⟨kind, chain, hkind, hcost⟩
      · exact Or.inr hstop
    obtain ⟨reading, hreading, hused⟩ := offers.reaches
    obtain ⟨found, hfound, hfoundUsed, _⟩ := @reaches_iterate _ first step place reading hreading
    refine Chain.reaches_last ascends hdead hfirst hlast last hfound (by omega) ?_
    rw [hfoundUsed, hused]
    exact offers.alive
  only reading hreading := by
    have hfollows : Chain.Follows free step place dead left last lastKind reading := by
      refine Chain.follows_iterate hdead ?_ hreading
      intro reading hreading
      rcases offers.only reading hreading with ⟨rfl, hcost, hkind⟩ | hstop
      · exact Or.inl ⟨kind, chain, hkind, hcost⟩
      · exact Or.inr hstop
    rcases hfollows with ⟨kind, chain, hkind, hcost⟩ | hstop
    · generalize reading.used = used at chain
      cases chain with
      | stop _ => exact Or.inl ⟨rfl, hcost, hkind⟩
      | next hmid _ _ _ _ => exact Or.inr hmid
    · exact Or.inr (hleft _ hstop)

end Iterate

end EditableMarkup.Grammar.Reader
