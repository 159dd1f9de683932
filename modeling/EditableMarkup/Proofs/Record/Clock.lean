import EditableMarkup.Record.Clock
import Mathlib.Algebra.Group.Nat.Defs

/-!
# The order of times

The text of a time has fields of fixed widths, the larger units first.  So up
to the end of the year 9999 later times have later texts, in the order of their
characters.
-/

namespace EditableMarkup

/-! ## Fields of a fixed width -/

/-- The last decimal digits of a number, a given count of them. -/
def decimalDigits : Nat → Nat → List Char
  | 0, _ => []
  | count + 1, n => decimalDigits count (n / 10) ++ [Nat.digitChar (n % 10)]

theorem length_decimalDigits (count n : Nat) : (decimalDigits count n).length = count := by
  induction count generalizing n with
  | zero => rfl
  | succ count ih => rw [decimalDigits, List.length_append, ih, List.length_singleton]

/-- A number that fits into a field fills it with its digits. -/
theorem replicate_append_toDigits (count : Nat) {n : Nat} (h : n < 10 ^ (count + 1)) :
    List.replicate (count + 1 - (Nat.toDigits 10 n).length) '0' ++ Nat.toDigits 10 n =
      decimalDigits (count + 1) n := by
  induction count generalizing n with
  | zero =>
      have hdigit : n < 10 := by simpa using h
      simp [Nat.toDigits_of_lt_base hdigit, decimalDigits, Nat.mod_eq_of_lt hdigit]
  | succ count ih =>
      rw [decimalDigits]
      by_cases hdigit : n < 10
      · have hfront := @ih 0 (Nat.pow_pos (by decide))
        rw [Nat.toDigits_of_lt_base (by decide : 0 < 10), List.length_singleton,
          Nat.add_sub_cancel] at hfront
        rw [Nat.toDigits_of_lt_base hdigit, Nat.div_eq_of_lt hdigit, Nat.mod_eq_of_lt hdigit, ← hfront,
          List.length_singleton, Nat.add_sub_cancel, List.replicate_succ']
        rfl
      · have hfront := @ih (n / 10) (by rwa [Nat.div_lt_iff_lt_mul (by decide), ← Nat.pow_succ])
        rw [Nat.toDigits_of_base_le (by decide) (by omega), ← hfront, List.length_append,
          List.length_singleton, Nat.add_sub_add_right, List.append_assoc]

/-- What is written in a field of a fixed width. -/
theorem toList_padded (count : Nat) {n : Int} (h : n.toNat < 10 ^ (count + 1)) :
    (padded (count + 1) n).toList = decimalDigits (count + 1) n.toNat := by
  rw [padded, String.toList_ofList, replicate_append_toDigits count h]

/-- Of two texts of one length the earlier one stays the earlier one, whatever stands behind it. -/
theorem append_lt_append {a b : List Char} (hlength : a.length = b.length) (h : a < b)
    (rest rest' : List Char) : a ++ rest < b ++ rest' := by
  induction a generalizing b with
  | nil =>
      cases List.length_eq_zero_iff.mp hlength.symm
      exact absurd h (List.lt_irrefl [])
  | cons c a ih =>
      cases b with
      | nil => cases hlength
      | cons d b =>
          rw [List.cons_append, List.cons_append, List.cons_lt_cons_iff]
          rcases List.cons_lt_cons_iff.mp h with hless | ⟨rfl, hless⟩
          · exact .inl hless
          · exact .inr ⟨rfl, ih (Nat.succ.inj hlength) hless⟩

/-- Smaller numbers have earlier digits. -/
theorem decimalDigits_lt (count : Nat) {m n : Nat} (h : m < n) (hn : n < 10 ^ count) :
    decimalDigits count m < decimalDigits count n := by
  induction count generalizing m n with
  | zero => omega
  | succ count ih =>
      rw [decimalDigits, decimalDigits]
      rcases Nat.lt_or_ge (m / 10) (n / 10) with hless | hge
      · have hfits : n / 10 < 10 ^ count := by
          rwa [Nat.div_lt_iff_lt_mul (by decide), ← Nat.pow_succ]
        refine append_lt_append ?_ (ih hless hfits) _ _
        rw [length_decimalDigits, length_decimalDigits]
      · have hsame : m / 10 = n / 10 := by omega
        have hlast : ∀ n < 10, ∀ m < n, [Nat.digitChar m] < [Nat.digitChar n] := by decide
        rw [hsame]
        exact List.append_left_lt (hlast _ (Nat.mod_lt n (by decide)) _ (by omega))

/-- What stands behind equal texts decides their order. -/
theorem not_append_lt_append (front : List Char) {rest rest' : List Char} (h : ¬rest' < rest) :
    ¬front ++ rest' < front ++ rest := by
  induction front with
  | nil => exact h
  | cons c front ih =>
      rw [List.cons_append, List.cons_append, List.cons_lt_cons_iff]
      rintro (hless | ⟨_, hless⟩)
      · exact Char.lt_irrefl c hless
      · exact ih hless

/-- A field decides the order before what stands behind it. -/
theorem not_padded_append_lt (count : Nat) {m n : Int} (hm : 0 ≤ m) (hn : n.toNat < 10 ^ (count + 1))
    {rest rest' : List Char} (c : Char) (h : m ≤ n) (hrest : m = n → ¬rest' < rest) :
    ¬(padded (count + 1) n).toList ++ c :: rest' < (padded (count + 1) m).toList ++ c :: rest := by
  rcases Int.lt_or_eq_of_le h with hless | rfl
  · have hnat : m.toNat < n.toNat := by omega
    rw [toList_padded count hn, toList_padded count (Nat.lt_trans hnat hn)]
    have hlength : (decimalDigits (count + 1) m.toNat).length =
        (decimalDigits (count + 1) n.toNat).length := by
      rw [length_decimalDigits, length_decimalDigits]
    exact List.lt_asymm
      (append_lt_append hlength (decimalDigits_lt _ hnat hn) (c :: rest) (c :: rest'))
  · exact not_append_lt_append _ (not_append_lt_append [c] (hrest rfl))

/-! ## Days -/

namespace Date

/-- The year of an era of 400 years in which a day of the era lies. Years start in March. -/
def yearOfEra (dayOfEra : Int) : Int :=
  (dayOfEra - dayOfEra / 1460 + dayOfEra / 36524 - dayOfEra / 146096) / 365

/-- The day of the year that a day of an era is. -/
def dayOfYear (dayOfEra : Int) : Int :=
  dayOfEra - (365 * yearOfEra dayOfEra + yearOfEra dayOfEra / 4 - yearOfEra dayOfEra / 100)

/-- A day of an era lies in one of its years. -/
theorem dayOfYear_bounds {dayOfEra : Int} (hfrom : 0 ≤ dayOfEra) (hto : dayOfEra < 146097) :
    0 ≤ yearOfEra dayOfEra ∧ yearOfEra dayOfEra < 400 ∧
      0 ≤ dayOfYear dayOfEra ∧ dayOfYear dayOfEra < 366 := by
  obtain ⟨year, hyear⟩ : ∃ year, year = yearOfEra dayOfEra := ⟨_, rfl⟩
  rw [dayOfYear, ← hyear]
  rw [yearOfEra] at hyear
  rcases Int.lt_or_eq_of_le (show dayOfEra ≤ 146096 by omega) with hbefore | rfl
  · have hcentury : year / 100 = dayOfEra / 36524 := by omega
    have hcycle : year - 4 * (dayOfEra / 1460) = -1 ∨ year - 4 * (dayOfEra / 1460) = 0 ∨
        year - 4 * (dayOfEra / 1460) = 1 ∨ year - 4 * (dayOfEra / 1460) = 2 ∨
        year - 4 * (dayOfEra / 1460) = 3 := by omega
    -- In a fixed year of the leap cycle the bounds are linear.
    rcases hcycle with hcycle | hcycle | hcycle | hcycle | hcycle <;> omega
  · -- The last day of an era is the leap day that the centuries leave out.
    omega

/-- Later days of an era do not lie in earlier years. -/
theorem yearOfEra_le {a b : Int} (h : a ≤ b) (hfrom : 0 ≤ a) (hto : b < 146097) :
    yearOfEra a ≤ yearOfEra b := by
  refine Int.ediv_le_ediv (by decide) ?_
  have hcycles : b / 1460 - a / 1460 ≤ b - a := by omega
  rcases Int.lt_or_eq_of_le (show b ≤ 146096 by omega) with hbefore | rfl
  · omega
  · omega

/-- The number of a month, counted through all years. -/
def monthNumber (date : Date) : Int :=
  12 * date.year + date.month

/-- The months of a day are counted from March, in which its year and its era start. -/
theorem ofDays_parts {days dayOfEra : Int} (hday : dayOfEra = (days + 719468) % 146097) :
    (ofDays days).monthNumber = 12 * ((days + 719468) / 146097 * 400 + yearOfEra dayOfEra) +
        (5 * dayOfYear dayOfEra + 2) / 153 + 3 ∧
      (ofDays days).day =
        dayOfYear dayOfEra - (153 * ((5 * dayOfYear dayOfEra + 2) / 153) + 2) / 5 + 1 ∧
      1 ≤ (ofDays days).month ∧ (ofDays days).month ≤ 12 := by
  have hera : (days + 719468).fdiv 146097 = (days + 719468) / 146097 :=
    Int.fdiv_eq_ediv_of_nonneg _ (by decide)
  have hshifted : days + 719468 - (days + 719468) / 146097 * 146097 = dayOfEra := by omega
  obtain ⟨_, _, hfrom, hto⟩ := @dayOfYear_bounds dayOfEra (by omega) (by omega)
  simp only [monthNumber, ofDays, hera, hshifted]
  rw [← yearOfEra, ← dayOfYear]
  split <;> split <;> omega

/-- A later day has a later month, or the same month and a later day in it. -/
theorem ofDays_lt {a b : Int} (h : a < b) :
    (ofDays a).monthNumber < (ofDays b).monthNumber ∨
      (ofDays a).monthNumber = (ofDays b).monthNumber ∧ (ofDays a).day < (ofDays b).day := by
  obtain ⟨dayA, hdayA⟩ : ∃ day, day = (a + 719468) % 146097 := ⟨_, rfl⟩
  obtain ⟨dayB, hdayB⟩ : ∃ day, day = (b + 719468) % 146097 := ⟨_, rfl⟩
  obtain ⟨hyearA, hyearA', hfromA, htoA⟩ := @dayOfYear_bounds dayA (by omega) (by omega)
  obtain ⟨hyearB, hyearB', hfromB, htoB⟩ := @dayOfYear_bounds dayB (by omega) (by omega)
  obtain ⟨hmonthA, hinA, _⟩ := ofDays_parts hdayA
  obtain ⟨hmonthB, hinB, _⟩ := ofDays_parts hdayB
  rw [hmonthA, hmonthB, hinA, hinB]
  have hera : (a + 719468) / 146097 ≤ (b + 719468) / 146097 := by omega
  rcases Int.lt_or_eq_of_le hera with hless | hsame
  · omega
  · have hyear := @yearOfEra_le dayA dayB (by omega) (by omega) (by omega)
    rcases Int.lt_or_eq_of_le hyear with hless | hyear
    · omega
    · -- In one year the days are counted through, so the later one has the larger number.
      have hday : dayOfYear dayA < dayOfYear dayB := by
        rw [dayOfYear, dayOfYear, hyear]
        omega
      omega

/-- The days from 1970 to 9999 have years of four digits, and months and days of two. -/
theorem ofDays_bounds {days : Int} (hfrom : 0 ≤ days) (hto : days ≤ 2932896) :
    0 ≤ (ofDays days).year ∧ (ofDays days).year ≤ 9999 ∧ 1 ≤ (ofDays days).month ∧
      (ofDays days).month ≤ 12 ∧ 1 ≤ (ofDays days).day ∧ (ofDays days).day ≤ 31 := by
  obtain ⟨day, hday⟩ : ∃ day, day = (days + 719468) % 146097 := ⟨_, rfl⟩
  obtain ⟨hyear, _, hyearFrom, hyearTo⟩ := @dayOfYear_bounds day (by omega) (by omega)
  obtain ⟨hmonth, hin, hmonthFrom, hmonthTo⟩ := ofDays_parts hday
  have hlast : (ofDays days).monthNumber ≤ (ofDays 2932896).monthNumber := by
    rcases Int.lt_or_eq_of_le hto with hless | rfl
    · rcases ofDays_lt hless with hless | ⟨hsame, _⟩
      · exact Int.le_of_lt hless
      · exact Int.le_of_eq hsame
    · exact Int.le_refl _
  have hend : (ofDays 2932896).monthNumber = 12 * 9999 + 12 := by decide
  rw [hend, monthNumber] at hlast
  rw [monthNumber] at hmonth
  omega

end Date

/-! ## Times -/

/-- The text of a time, field by field. -/
theorem toList_timeText (microseconds : Int) :
    (timeText microseconds).toList =
      (padded 4 (Date.ofDays (microseconds / 86400000000)).year).toList ++ '-' ::
      ((padded 2 (Date.ofDays (microseconds / 86400000000)).month).toList ++ '-' ::
      ((padded 2 (Date.ofDays (microseconds / 86400000000)).day).toList ++ 'T' ::
      ((padded 2 (microseconds / 3600000000 % 24)).toList ++ ':' ::
      ((padded 2 (microseconds / 60000000 % 60)).toList ++ ':' ::
      ((padded 2 (microseconds / 1000000 % 60)).toList ++ '.' ::
      ((padded 3 (microseconds / 1000 % 1000)).toList ++ ['Z'])))))) := by
  have hmilliseconds : microseconds.fdiv 1000 = microseconds / 1000 :=
    Int.fdiv_eq_ediv_of_nonneg _ (by decide)
  have hseconds : (microseconds / 1000).fdiv 1000 = microseconds / 1000000 := by
    rw [Int.fdiv_eq_ediv_of_nonneg _ (by decide)]
    omega
  have hdays : (microseconds / 1000000).fdiv 86400 = microseconds / 86400000000 := by
    rw [Int.fdiv_eq_ediv_of_nonneg _ (by decide)]
    omega
  have hhours : (microseconds / 1000000 - microseconds / 86400000000 * 86400) / 3600 =
      microseconds / 3600000000 % 24 := by omega
  have hminutes : (microseconds / 1000000 - microseconds / 86400000000 * 86400) / 60 % 60 =
      microseconds / 60000000 % 60 := by omega
  have hrest : (microseconds / 1000000 - microseconds / 86400000000 * 86400) % 60 =
      microseconds / 1000000 % 60 := by omega
  have hfraction : microseconds / 1000 - microseconds / 1000000 * 1000 =
      microseconds / 1000 % 1000 := by omega
  have hhyphen : "-".toList = ['-'] := rfl
  have hmiddle : "T".toList = ['T'] := rfl
  have hcolon : ":".toList = [':'] := rfl
  have hpoint : ".".toList = ['.'] := rfl
  have hzone : "Z".toList = ['Z'] := rfl
  simp only [timeText, hmilliseconds, hseconds, hdays, hhours, hminutes, hrest, hfraction, hhyphen,
    hmiddle, hcolon, hpoint, hzone, String.toList_append, List.append_assoc, List.cons_append,
    List.nil_append]

/-- The end of the year 9999, in microseconds since the start of 1970. -/
def lastTime : Int := 253402300800000000

/-- Up to the end of the year 9999 a later time has no earlier text. -/
theorem timeText_le {a b : Int} (hfrom : 0 ≤ a) (h : a ≤ b) (hto : b < lastTime) :
    timeText a ≤ timeText b := by
  rw [lastTime] at hto
  obtain ⟨dayA, hdayA⟩ : ∃ day, day = a / 86400000000 := ⟨_, rfl⟩
  obtain ⟨dayB, hdayB⟩ : ∃ day, day = b / 86400000000 := ⟨_, rfl⟩
  obtain ⟨_, _, _, _, _, _⟩ := @Date.ofDays_bounds dayA (by omega) (by omega)
  obtain ⟨_, _, _, _, _, _⟩ := @Date.ofDays_bounds dayB (by omega) (by omega)
  have hdate : (Date.ofDays dayA).monthNumber < (Date.ofDays dayB).monthNumber ∨
      (Date.ofDays dayA).monthNumber = (Date.ofDays dayB).monthNumber ∧
        ((Date.ofDays dayA).day < (Date.ofDays dayB).day ∨
          (Date.ofDays dayA).day = (Date.ofDays dayB).day ∧ dayA = dayB) := by
    rcases Int.lt_or_eq_of_le (show dayA ≤ dayB by omega) with hless | hsame
    · exact (Date.ofDays_lt hless).imp_right fun ⟨hmonth, hday⟩ => ⟨hmonth, .inl hday⟩
    · rw [hsame]
      exact .inr ⟨rfl, .inr ⟨rfl, rfl⟩⟩
  rw [Date.monthNumber, Date.monthNumber] at hdate
  change ¬(timeText b).toList < (timeText a).toList
  rw [toList_timeText, toList_timeText, ← hdayA, ← hdayB]
  refine not_padded_append_lt 3 (by omega) (by omega) '-' (by omega) fun hyear => ?_
  refine not_padded_append_lt 1 (by omega) (by omega) '-' (by omega) fun hmonth => ?_
  refine not_padded_append_lt 1 (by omega) (by omega) 'T' (by omega) fun hin => ?_
  have hday : dayA = dayB := by omega
  refine not_padded_append_lt 1 (by omega) (by omega) ':' (by omega) fun hhour => ?_
  refine not_padded_append_lt 1 (by omega) (by omega) ':' (by omega) fun hminute => ?_
  refine not_padded_append_lt 1 (by omega) (by omega) '.' (by omega) fun hsecond => ?_
  exact not_padded_append_lt 2 (by omega) (by omega) 'Z' (by omega) fun _ => List.lt_irrefl []

end EditableMarkup
