import EditableMarkup.Tree.Supply

/-!
# Minted identifiers

A supply never mints an identifier twice: the number of an identifier can be
read off its digits.  What mints identifiers may also fail, and succeeds only
if all of its steps do.
-/

namespace EditableMarkup

/-- A step behind another one succeeds only if both do. -/
theorem exists_of_bind_eq_ok {ε α β : Type} {first : Except ε α} {second : α → Except ε β} {result : β}
    (h : (do let found ← first; second found) = .ok result) :
    ∃ found, first = .ok found ∧ second found = .ok result := by
  cases first with
  | error fault => cases h
  | ok found => exact ⟨found, rfl, h⟩

/-! ## Digits of base 36 -/

/-- The number that a digit of base 36 stands for. -/
def base36Value (c : Char) : Nat :=
  if c.toNat < 'a'.toNat then c.toNat - '0'.toNat else c.toNat - 'a'.toNat + 10

theorem base36Value_base36Digit {n : Nat} (h : n < 36) : base36Value (base36Digit n) = n := by
  revert n
  decide

/-- The number that digits of base 36 stand for. -/
def base36Number (digits : List Char) : Nat :=
  digits.foldl (fun number c => number * 36 + base36Value c) 0

theorem base36Number_append_singleton (digits : List Char) (c : Char) :
    base36Number (digits ++ [c]) = base36Number digits * 36 + base36Value c := by
  rw [base36Number, List.foldl_append]
  rfl

/-- The digits of a number stand for the number, if there is room for them. -/
theorem base36Number_base36 {fuel count n : Nat} (h : n + count ≤ fuel) :
    base36Number (base36 fuel count n) = n := by
  induction fuel generalizing count n with
  | zero =>
      obtain rfl : n = 0 := by omega
      rfl
  | succ fuel ih =>
      rw [base36]
      split
      · next hdone => exact hdone.2.symm
      · next hmore =>
          have hroom : n / 36 + (count - 1) ≤ fuel := by omega
          rw [base36Number_append_singleton, ih hroom,
            base36Value_base36Digit (Nat.mod_lt n (by decide)), Nat.mul_comm, Nat.div_add_mod]

namespace Supply

/-- Different numbers have different identifiers. -/
theorem identifier_inj {m n : Nat} (h : identifier m = identifier n) : m = n := by
  have hdigits := congrArg base36Number (String.ofList_injective h)
  rwa [base36Number_base36 (Nat.le_refl _), base36Number_base36 (Nat.le_refl _)] at hdigits

theorem identifier_ne_empty (n : Nat) : identifier n ≠ "" := by
  intro h
  have hdigits : base36 (n + 9) 9 n = [] := String.ofList_injective h
  simp [base36] at hdigits

/-! ## Runs of minted identifiers -/

/-- Identifiers that are minted between two states of the supply, each of them once. -/
structure Mints (before after : Supply) (ids : List String) : Prop where
  le : before.next ≤ after.next
  nodup : ids.Nodup
  minted : ∀ id ∈ ids, ∃ n, before.next ≤ n ∧ n < after.next ∧ id = identifier n

theorem Mints.nil (supply : Supply) : Mints supply supply [] where
  le := Nat.le_refl _
  nodup := List.nodup_nil
  minted := nofun

/-- Identifiers of two runs, one behind the other, are minted in one run. -/
theorem Mints.append {a b c : Supply} {first second : List String} (hfirst : Mints a b first)
    (hsecond : Mints b c second) : Mints a c (first ++ second) where
  le := Nat.le_trans hfirst.le hsecond.le
  nodup := by
    refine List.nodup_append.mpr ⟨hfirst.nodup, hsecond.nodup, fun id hid other hother heq => ?_⟩
    obtain ⟨m, _, hm, rfl⟩ := hfirst.minted id hid
    obtain ⟨n, hn, _, rfl⟩ := hsecond.minted other hother
    exact absurd (identifier_inj heq) (by omega)
  minted := by
    intro id hid
    rcases List.mem_append.mp hid with hid | hid
    · obtain ⟨n, hlow, hhigh, heq⟩ := hfirst.minted id hid
      exact ⟨n, hlow, Nat.lt_of_lt_of_le hhigh hsecond.le, heq⟩
    · obtain ⟨n, hlow, hhigh, heq⟩ := hsecond.minted id hid
      exact ⟨n, Nat.le_trans hfirst.le hlow, hhigh, heq⟩

/-- One more identifier is minted behind others. -/
theorem Mints.mint {a b : Supply} {ids : List String} (h : Mints a b ids) :
    Mints a b.mint.2 (b.mint.1 :: ids) where
  le := Nat.le_succ_of_le h.le
  nodup := by
    refine List.nodup_cons.mpr ⟨fun hmem => ?_, h.nodup⟩
    obtain ⟨n, _, hn, heq⟩ := h.minted _ hmem
    exact absurd (identifier_inj heq) (by omega)
  minted := by
    intro id hid
    rcases List.mem_cons.mp hid with rfl | hid
    · exact ⟨b.next, h.le, Nat.lt_succ_self _, rfl⟩
    · obtain ⟨n, hlow, hhigh, heq⟩ := h.minted id hid
      exact ⟨n, hlow, Nat.lt_succ_of_lt hhigh, heq⟩

end Supply

end EditableMarkup
