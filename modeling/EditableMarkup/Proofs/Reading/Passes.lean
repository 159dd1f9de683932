import EditableMarkup.Proofs.Reading.Keeps

/-!
# How far every reading leads

All readings of a construct may lead into the last part of a text, whichever way
is taken.  The part is given by the numbers of characters that are left over:
with a number it holds all smaller ones, so what is read behind such a reading
cannot leave it again.
-/

namespace EditableMarkup.Grammar

variable {free : Prop}

namespace Place

theorem length_advance (place : Place) (count : Nat) :
    (place.advance count).length = place.length - count :=
  List.length_drop

/-- Places with as many characters left over are the same. -/
theorem advance_eq_of_left {place : Place} {used other : Nat}
    (h : place.length - used = place.length - other) :
    place.advance used = place.advance other := by
  refine List.drop_eq_drop_iff.mpr ?_
  omega

end Place

/-- A last part of a text, as the numbers of characters that may be left over there. -/
def Closing (part : Nat → Prop) : Prop :=
  ∀ more fewer, fewer ≤ more → part more → part fewer

namespace Reader

open Reading

variable {α β : Type} {part : Nat → Prop}

/-- Every reading from a place leads into a part of the text. -/
def Passes (reader : Reader α) (place : Place) (part : Nat → Prop) : Prop :=
  ∀ reading, Reads reader place reading → part (place.length - reading.used)

section Passes

variable {reader : Reader α} {place : Place}

theorem Fails.passes (h : Fails reader place) : Passes reader place part :=
  fun reading hreading => absurd hreading (h reading)

theorem Offers.passes {used : Nat} {kind : α → Prop} (settles : Settles free reader place used kind)
    (h : part (place.length - used)) : Passes reader place part := by
  intro reading hreading
  rw [((settles.only reading hreading).resolve_right id).1]
  exact h

theorem Passes.imp {part' : Nat → Prop} (passes : Passes reader place part)
    (h : ∀ left, part left → part' left) : Passes reader place part' :=
  fun reading hreading => h _ (passes reading hreading)

/-- The same readings from another place of the same length. -/
theorem Passes.transfer (passes : Passes reader place part) {reader' : Reader α} {place' : Place}
    (h : reader' place' = reader place) (hlength : place'.length = place.length) :
    Passes reader' place' part := by
  intro reading hreading
  rw [hlength]
  exact passes reading (by rwa [Reads, ← h])

theorem Passes.sliced {reader : Reader (Slice → α)} (passes : Passes reader place part) :
    Passes (Reader.sliced reader) place part := by
  intro reading hreading
  obtain ⟨before, hbefore, rfl⟩ := reads_sliced.mp hreading
  exact passes before hbefore

theorem Passes.counted (passes : Passes reader place part) :
    Passes (Reader.counted reader) place part := by
  intro reading hreading
  obtain ⟨before, hbefore, rfl⟩ := reads_counted.mp hreading
  exact passes before hbefore

theorem passes_oneOf {readers : List (Reader α)}
    (h : ∀ reader ∈ readers, Passes reader place part) : Passes (oneOf readers) place part := by
  intro reading hreading
  obtain ⟨reader, hreader, hreads⟩ := exists_of_reads_oneOf hreading
  exact h reader hreader reading hreads

/-- A reading that the first part of a construct leads to goes on from there. -/
theorem passes_bind {second : α → Reader β}
    (h : ∀ before, Reads reader place before →
      Passes (second before.value) (place.advance before.used) part) :
    Passes (reader >>= second) place part := by
  intro reading hreading
  obtain ⟨before, hbefore, after, hafter, rfl⟩ := exists_of_reads_bind hreading
  have hpart := h before hbefore after hafter
  rwa [Place.length_advance, Nat.sub_sub] at hpart

/-- Behind a reader without a choice it is the second one that leads far enough. -/
theorem Offers.bindPasses {used : Nat} {kind : α → Prop}
    (settles : Settles True reader place used kind)
    {second : α → Reader β}
    (next : ∀ value, kind value → Passes (second value) (place.advance used) part) :
    Passes (reader >>= second) place part := by
  refine passes_bind fun before hbefore => ?_
  obtain ⟨hused, _, hkind⟩ := (settles.only before hbefore).resolve_right id
  rw [hused]
  exact next before.value hkind

theorem Passes.returning (passes : Passes reader place part) {f : α → β} :
    Passes (reader >>= fun value => Pure.pure (f value)) place part := by
  intro reading hreading
  obtain ⟨before, hbefore, hused, _⟩ := exists_of_reads_returning hreading
  rw [hused]
  exact passes before hbefore

/-! ## Nothing leads back -/

section Closing

variable (closing : Closing part)

include closing

theorem Passes.bind (passes : Passes reader place part) {second : α → Reader β} :
    Passes (reader >>= second) place part := by
  intro reading hreading
  obtain ⟨before, hbefore, after, _, rfl⟩ := exists_of_reads_bind hreading
  refine closing _ _ ?_ (passes before hbefore)
  rw [followedBy_used]
  omega

theorem Passes.map (passes : Passes reader place part) {f : α → β} :
    Passes (f <$> reader) place part :=
  passes.bind closing

theorem Passes.maybeMore (passes : Passes reader place part) {more : α → Reader α} :
    Passes (Reader.maybeMore reader more) place part := by
  refine passes_oneOf fun other hother => ?_
  rcases List.mem_cons.mp hother with rfl | hother
  · exact passes
  · rw [List.mem_singleton.mp hother]
    exact @Passes.bind α α part (fun _ => reader place) place closing passes more

theorem Passes.iterate (passes : Passes reader place part) {step : α → Reader α} :
    Passes (Reader.iterate reader step) place part := by
  intro reading hreading
  refine iterate_induction (fun reading => part (place.length - reading.used)) passes ?_ hreading
  intro before after hbefore _
  refine closing _ _ ?_ hbefore
  rw [followedBy_used]
  omega

/-- From within the part everything leads further into it. -/
theorem passes_of_part (h : part place.length) : Passes reader place part :=
  fun _ _ => closing _ _ (Nat.sub_le ..) h

end Closing

/-! ## Ends in front of the part -/

/-- Some ends are outside of a part, all others lie in it. -/
def Halts (length : Nat) (stops : List Nat) (part : Nat → Prop) (left : Nat) : Prop :=
  (∃ stop ∈ stops, left = length - stop) ∨ part left

theorem Passes.halts (passes : Passes reader place part) (stops : List Nat) :
    Passes reader place (Halts place.length stops part) :=
  passes.imp fun _ => Or.inr

theorem Passes.halts_mono {stops stops' : List Nat}
    (passes : Passes reader place (Halts place.length stops part)) (h : stops ⊆ stops') :
    Passes reader place (Halts place.length stops' part) :=
  passes.imp fun _ => Or.imp_left fun ⟨stop, hstop, heq⟩ => ⟨stop, h hstop, heq⟩

/-- Behind a reader without a choice the ends of the second one count from its own place. -/
theorem Offers.bindHalts {used : Nat} {kind : α → Prop}
    (settles : Settles True reader place used kind)
    {second : α → Reader β} {stops : List Nat}
    (next : ∀ value, kind value → Passes (second value) (place.advance used)
      (Halts (place.advance used).length stops part)) :
    Passes (reader >>= second) place (Halts place.length (stops.map (used + ·)) part) := by
  refine settles.bindPasses fun value hvalue => (next value hvalue).imp fun left hleft => ?_
  rcases hleft with ⟨stop, hstop, rfl⟩ | hpart
  · refine Or.inl ⟨used + stop, List.mem_map_of_mem hstop, ?_⟩
    rw [Place.length_advance, Nat.sub_sub]
  · exact Or.inr hpart

/-- Where no step goes on from the ends outside of the part, they stay the only ones. -/
theorem Passes.iterate_of_halts {stops : List Nat} (closing : Closing part)
    (passes : Passes reader place (Halts place.length stops part)) {step : α → Reader α}
    (h : ∀ stop ∈ stops, ∀ value, Fails (step value) (place.advance stop)) :
    Passes (Reader.iterate reader step) place (Halts place.length stops part) := by
  intro reading hreading
  refine iterate_induction
    (fun reading => Halts place.length stops part (place.length - reading.used)) passes ?_ hreading
  intro before after hbefore hafter
  rcases hbefore with ⟨stop, hstop, hleft⟩ | hpart
  · rw [Place.advance_eq_of_left hleft] at hafter
    exact absurd hafter (h stop hstop before.value after)
  · refine Or.inr (closing _ _ ?_ hpart)
    rw [followedBy_used]
    omega

/-- If a construct goes on from its first ends into the part only, it is read any number of times up
to one of these ends or into the part. -/
theorem Passes.many {stops : List Nat} (closing : Closing part)
    (passes : Passes reader place (Halts place.length stops part))
    (hnext : ∀ stop ∈ stops, Passes reader (place.advance stop) part) :
    Passes (Reader.many reader) place (Halts place.length (0 :: stops) part) := by
  intro reading hreading
  refine iterate_induction
    (fun reading => Halts place.length (0 :: stops) part (place.length - reading.used)) ?_ ?_ hreading
  · intro reading hreading
    rw [reads_nothing.mp hreading]
    exact Or.inl ⟨0, List.mem_cons_self .., rfl⟩
  · intro before after hbefore hafter
    obtain ⟨next, hnextReads, hused, _⟩ := exists_of_reads_returning hafter
    rw [followedBy_used, hused, ← Nat.sub_sub]
    rcases hbefore with ⟨stop, hstop, hleft⟩ | hpart
    · rw [Place.advance_eq_of_left hleft] at hnextReads
      rw [hleft]
      rcases List.mem_cons.mp hstop with rfl | hstop
      · exact passes.halts_mono (List.subset_cons_self ..) next hnextReads
      · have hpart := hnext stop hstop next hnextReads
        rw [Place.length_advance] at hpart
        exact Or.inr hpart
    · exact Or.inr (closing _ _ (Nat.sub_le ..) hpart)

/-- What goes on from the ends outside of the part decides where all readings lead. -/
theorem Passes.bind_halts {stops : List Nat} {target : Nat → Prop} (closing : Closing part)
    (passes : Passes reader place (Halts place.length stops part)) {second : α → Reader β}
    (hpart : ∀ left, part left → target left)
    (h : ∀ stop ∈ stops, ∀ value, Passes (second value) (place.advance stop) target) :
    Passes (reader >>= second) place target := by
  refine passes_bind fun before hbefore => ?_
  rcases passes before hbefore with ⟨stop, hstop, hleft⟩ | hleft
  · rw [Place.advance_eq_of_left hleft]
    exact h stop hstop before.value
  · exact (passes_of_part closing (by rwa [Place.length_advance])).imp hpart

/-- What fails behind the ends outside of the part leads into the part. -/
theorem Passes.bind_of_halts {stops : List Nat} (closing : Closing part)
    (passes : Passes reader place (Halts place.length stops part)) {second : α → Reader β}
    (h : ∀ stop ∈ stops, ∀ value, Fails (second value) (place.advance stop)) :
    Passes (reader >>= second) place part :=
  passes.bind_halts closing (fun _ => id) fun stop hstop value => (h stop hstop value).passes

/-- What is missing at the ends outside of the part leads nowhere from there. -/
theorem Passes.bind_missing {stops : List Nat} (closing : Closing part)
    (passes : Passes reader place (Halts place.length stops part)) {second : α → Reader β}
    (h : ∀ stop ∈ stops, ∀ value reading,
      Reads (second value) (place.advance stop) reading → reading.used = 0) :
    Passes (reader >>= second) place (Halts place.length stops part) := by
  refine passes.bind_halts closing (fun _ => Or.inr) fun stop hstop value reading hreading => ?_
  rw [h stop hstop value reading hreading, Place.length_advance]
  exact Or.inl ⟨stop, hstop, rfl⟩

end Passes

end Reader

end EditableMarkup.Grammar
