import EditableMarkup.Literal.Numeric
import EditableMarkup.Proofs.Reading.Lexemes
import EditableMarkup.Proofs.Text.Blank
import EditableMarkup.Proofs.Text.Digit
import Mathlib.Algebra.Group.Nat.Defs
import Mathlib.Data.List.Induction

/-!
# The shapes of numeric literals

A numeric literal has digits in a base that it announces, or it is a decimal
with digits of any script, perhaps a point and perhaps an exponent; separators
may stand among the digits.  Its value is made of the values of these parts.
There is one unless the base is all that is announced, or there are too many
digits for an integer.
-/

namespace EditableMarkup

open EditableMarkup.Text

namespace Literal

/-! ## The shapes of numeric literals -/

/-- A decimal exponent with its letter, perhaps a sign, and its digits; or nothing. -/
def ExponentShape (exponent : List Char) : Prop :=
  exponent = [] ∨ ∃ e sign digits, exponent = e :: (sign ++ digits) ∧ (e = 'e' ∨ e = 'E') ∧
    (sign = [] ∨ sign = ['+'] ∨ sign = ['-']) ∧ digits ≠ [] ∧ ∀ d ∈ digits, isDigit d = true

/-- A fraction with its point, or nothing. -/
def PointShape (point fraction : List Char) : Prop :=
  point = [] ∧ fraction = [] ∨ point = '.' :: fraction

/-- Decimal digits with separators, of which some stand behind a point, and an exponent. -/
def DecimalShape (literal : List Char) : Prop :=
  ∃ whole point fraction exponent, literal = whole ++ point ++ exponent ∧
    PointShape point fraction ∧ (∀ d ∈ whole ++ fraction, Grammar.Lexeme.continuesDigits d = true) ∧
    (∃ d ∈ whole ++ fraction, isDigit d = true) ∧ ExponentShape exponent

/-- Digits with separators in a base that is announced in front of them. -/
def RadixShape (literal : List Char) : Prop :=
  ∃ letter digits base, literal = '0' :: letter :: digits ∧ digits ≠ [] ∧
    announcedBase? literal = some base ∧
    ∀ d ∈ digits, d = '_' ∨ isHexDigit d = true ∧ ∃ value < base, hexValue? d = some value

/-- A numeric literal, perhaps with the letter of big integers behind it. -/
def NumeralShape (literal : List Char) : Prop :=
  ∃ core big, literal = core ++ big ∧ (RadixShape core ∨ DecimalShape core) ∧
    (big = [] ∨ big = ['n'])

end Literal

/-! ## What the classes take -/

namespace Grammar.Lexeme

open Literal

variable {text : List Char} {length : Nat}

/-- The front of a text, of a length, has a shape. -/
def Front (text : List Char) (length : Nat) (shape : List Char → Prop) : Prop :=
  ∃ front rest, text = front ++ rest ∧ length = front.length ∧ shape front

theorem Front.imp {shape other : List Char → Prop} (h : Front text length shape)
    (himp : ∀ front, shape front → other front) : Front text length other := by
  obtain ⟨front, rest, hsplit, hlength, hshape⟩ := h
  exact ⟨front, rest, hsplit, hlength, himp front hshape⟩

theorem front_run (test : Char → Bool) (text : List Char) :
    Front text (run test text) fun front => ∀ c ∈ front, test c = true := by
  obtain ⟨front, rest, hsplit, hlength, hall, _⟩ := run_split test text
  exact ⟨front, rest, hsplit, hlength.symm, hall⟩

theorem front_radix {letters : List Char} {test : Char → Bool}
    (h : radix letters test text = some length) :
    Front text length fun front => ∃ letter digits, front = '0' :: letter :: digits ∧
      letter ∈ letters ∧ digits ≠ [] ∧ ∀ d ∈ digits, test d = true := by
  unfold radix at h
  split at h
  next letter rest =>
    split at h
    next hletter =>
      obtain ⟨digits, behind, hsplit, hlength, hall⟩ := front_run test rest
      split at h
      next => cases h
      next count hne =>
        cases h
        refine ⟨'0' :: letter :: digits, behind, by rw [hsplit]; rfl, by simp [hlength], letter, digits,
          rfl, by simpa using hletter, ?_, hall⟩
        rintro rfl
        exact hne hlength
    next => cases h
  next => cases h

/-- A test for digits of a base and for separators. -/
def TestsDigits (base : Nat) (test : Char → Bool) : Prop :=
  ∀ d, test d = true → d = '_' ∨ isHexDigit d = true ∧ ∃ value < base, hexValue? d = some value

theorem testsDigits_sixteen : TestsDigits 16 fun c => isHexDigit c || c == '_' := by
  intro d hd
  rcases Bool.or_eq_true_iff.mp hd with hd | hd
  · exact Or.inr ⟨hd, @forall_isHexDigit (fun c => ∃ value < 16, hexValue? c = some value)
      (by decide) d hd⟩
  · exact Or.inl (beq_iff_eq.mp hd)

theorem testsDigits_two : TestsDigits 2 fun c => c == '0' || c == '1' || c == '_' := by
  intro d hd
  simp only [Bool.or_eq_true, beq_iff_eq] at hd
  rcases hd with (rfl | rfl) | rfl
  · exact Or.inr ⟨rfl, 0, by decide, rfl⟩
  · exact Or.inr ⟨rfl, 1, by decide, rfl⟩
  · exact Or.inl rfl

theorem testsDigits_eight : TestsDigits 8 fun c => ('0' ≤ c && c ≤ '7') || c == '_' := by
  intro d hd
  rcases Bool.or_eq_true_iff.mp hd with hd | hd
  · have hhex : isHexDigit d = true := by
      simp only [Bool.and_eq_true, decide_eq_true_eq] at hd
      have hnine : d ≤ '9' := Char.le_trans hd.2 (by decide)
      simp [isHexDigit, hd.1, hnine]
    exact Or.inr ⟨hhex, @forall_isHexDigit
      (fun c => ('0' ≤ c && c ≤ '7') = true → ∃ value < 8, hexValue? c = some value)
      (by decide) d hhex hd⟩
  · exact Or.inl (beq_iff_eq.mp hd)

/-- Digits in a base that one of some letters announces. -/
theorem radixShape_of {letters : List Char} {test : Char → Bool} (base : Nat)
    (hletters : ∀ letter ∈ letters, ∀ rest, announcedBase? ('0' :: letter :: rest) = some base)
    (htest : TestsDigits base test)
    (h : radix letters test text = some length) : Front text length RadixShape := by
  obtain ⟨front, rest, hsplit, hlength, letter, digits, rfl, hletter, hne, hall⟩ := front_radix h
  exact ⟨_, rest, hsplit, hlength, letter, digits, base, rfl, hne, hletters letter hletter digits,
    fun d hd => htest d (hall d hd)⟩

theorem front_decimal (h : decimal text = some length) :
    Front text length fun front => ∃ whole point fraction, front = whole ++ point ∧
      PointShape point fraction ∧ (∀ d ∈ whole ++ fraction, continuesDigits d = true) ∧
      ∃ d ∈ whole ++ fraction, isDigit d = true := by
  unfold decimal at h
  split at h
  next c rest =>
    split at h
    next hc =>
      obtain ⟨digits, behind, hsplit, hlength, hall⟩ := front_run continuesDigits rest
      cases h
      refine ⟨'.' :: c :: digits, behind, by rw [hsplit]; rfl, by simp [hlength], [],
        '.' :: c :: digits, c :: digits, rfl, Or.inr rfl, ?_, c, by simp, hc⟩
      exact List.forall_mem_cons.mpr ⟨continuesDigits_of_isDigit hc, hall⟩
    next => cases h
  next c rest _ =>
    split at h
    next hc =>
      obtain ⟨digits, behind, rfl, hlength, hall⟩ := front_run continuesDigits rest
      have hwhole : ∀ d ∈ c :: digits, continuesDigits d = true :=
        List.forall_mem_cons.mpr ⟨continuesDigits_of_isDigit hc, hall⟩
      simp only [hlength, Nat.add_sub_cancel, List.drop_left] at h
      split at h
      next _ fraction _ =>
        obtain ⟨digits', behind', rfl, hlength', hall'⟩ := front_run continuesDigits fraction
        cases h
        refine ⟨c :: digits ++ '.' :: digits', behind', by simp, ?_, c :: digits, '.' :: digits',
          digits', rfl, Or.inr rfl, ?_, c, by simp, hc⟩
        · simp only [hlength', List.length_append, List.length_cons]
          omega
        · exact List.forall_mem_append.mpr ⟨hwhole, hall'⟩
      next =>
        cases h
        exact ⟨c :: digits, behind, rfl, rfl, c :: digits, [], [], by simp, Or.inl ⟨rfl, rfl⟩,
          by simpa using hwhole, c, by simp, hc⟩
    next => cases h
  next => cases h

theorem front_exponent (text : List Char) : Front text (exponent text) ExponentShape := by
  have hmissing (text : List Char) : Front text 0 ExponentShape := ⟨[], text, rfl, rfl, Or.inl rfl⟩
  have hdigits (e : Char) (sign rest : List Char) (he : (e == 'e' || e == 'E') = true)
      (hsign : sign = [] ∨ sign = ['+'] ∨ sign = ['-']) (hne : run isDigit rest ≠ 0) :
      Front (e :: (sign ++ rest)) (run isDigit rest + sign.length + 1) ExponentShape := by
    obtain ⟨digits, behind, hsplit, hlength, hall⟩ := front_run isDigit rest
    refine ⟨e :: (sign ++ digits), behind, by simp [hsplit], ?_,
      Or.inr ⟨e, sign, digits, rfl, by simpa using he, hsign, ?_, hall⟩⟩
    · simp only [hlength, List.length_cons, List.length_append]
      omega
    · rintro rfl
      exact hne hlength
  unfold exponent
  split
  next e rest =>
    split
    next he =>
      split
      next => exact hmissing _
      next s digits =>
        split
        next hs =>
          split
          next => exact hmissing _
          next hne =>
            have hsign : [s] = [] ∨ [s] = ['+'] ∨ [s] = ['-'] := by simpa using hs
            exact hdigits e [s] digits he hsign hne
        next =>
          split
          next => exact hmissing _
          next hne => exact hdigits e [] (s :: digits) he (Or.inl rfl) hne
    next => exact hmissing _
  next => exact hmissing _

theorem front_scientific (h : scientific text = some length) :
    Front text length DecimalShape := by
  obtain ⟨count, hcount, h⟩ := Option.bind_eq_some_iff.mp h
  obtain ⟨front, rest, rfl, rfl, whole, point, fraction, rfl, hpoint, hall, hdigit⟩ :=
    front_decimal hcount
  rw [List.drop_left] at h
  obtain ⟨exponent, behind, rfl, hlength, hexponent⟩ := front_exponent rest
  cases h
  exact ⟨whole ++ point ++ exponent, behind, by simp, by simp [hlength, Nat.add_assoc], whole, point, fraction,
    exponent, rfl, hpoint, hall, hdigit, hexponent⟩

/-- A numeric literal has one of the shapes. -/
theorem front_number (h : number text = some length) : Front text length NumeralShape := by
  obtain ⟨count, hcount, h⟩ := Option.bind_eq_some_iff.mp h
  have hcore : Front text count fun core => RadixShape core ∨ DecimalShape core := by
    obtain ⟨taken, htaken, hcount⟩ := List.exists_of_findSome?_eq_some hcount
    simp only [List.mem_cons, List.not_mem_nil, or_false] at htaken
    rcases htaken with rfl | rfl | rfl | rfl
    · exact (radixShape_of 16 (by simp [announcedBase?]) testsDigits_sixteen hcount).imp
        fun _ => Or.inl
    · exact (radixShape_of 2 (by simp [announcedBase?]) testsDigits_two hcount).imp
        fun _ => Or.inl
    · exact (radixShape_of 8 (by simp [announcedBase?]) testsDigits_eight hcount).imp
        fun _ => Or.inl
    · exact (front_scientific hcount).imp fun _ => Or.inr
  obtain ⟨core, rest, rfl, rfl, hshape⟩ := hcore
  rw [List.drop_left] at h
  split at h
  next behind _ =>
    cases h
    exact ⟨core ++ ['n'], behind, by simp, by simp, core, ['n'], rfl, hshape, Or.inr rfl⟩
  next =>
    cases h
    exact ⟨core, rest, rfl, rfl, core, [], by simp, hshape, Or.inl rfl⟩

end Grammar.Lexeme

/-! ## The values of the shapes -/

namespace Literal

/-- Digits of a base stand for a number in it. -/
theorem digitsValue?_eq_numeral {base : Nat} {digits : List Char}
    (h : ∀ d ∈ digits, ∃ value < base, hexValue? d = some value) :
    digitsValue? base digits = some (numeral base digits) := by
  induction digits using List.reverseRecOn with
  | nil => rfl
  | append_singleton digits d ih =>
      obtain ⟨hdigits, hd⟩ := List.forall_mem_append.mp h
      obtain ⟨value, hlt, hvalue⟩ := hd d (List.mem_singleton_self d)
      have hfront := ih hdigits
      unfold digitsValue? at hfront ⊢
      rw [List.foldlM_append, hfront, numeral_concat]
      simp [hvalue, hlt]

/-- A literal without separators. -/
abbrev withoutSeparators (literal : List Char) : List Char :=
  literal.filter (· != '_')

/-- The letters that announce a base. -/
def baseLetters : List Char :=
  ['x', 'X', 'o', 'O', 'b', 'B']

theorem announcedBase?_eq_none_iff {letter : Char} {rest : List Char} :
    announcedBase? ('0' :: letter :: rest) = none ↔ letter ∉ baseLetters := by
  simp only [announcedBase?, baseLetters, Bool.or_eq_true, beq_iff_eq, List.mem_cons,
    List.not_mem_nil, or_false]
  grind

theorem mem_baseLetters {letter : Char} {rest : List Char} {base : Nat}
    (h : announcedBase? ('0' :: letter :: rest) = some base) : letter ∈ baseLetters := by
  by_contra hnone
  rw [announcedBase?_eq_none_iff.mpr hnone] at h
  cases h

theorem withoutSeparators_radix {letter : Char} (h : letter ∈ baseLetters) (digits : List Char) :
    withoutSeparators ('0' :: letter :: digits) = '0' :: letter :: withoutSeparators digits := by
  have hall : baseLetters.all (· != '_') = true := by decide
  have hplain : (letter != '_') = true := List.all_eq_true.mp hall letter h
  simp [withoutSeparators, hplain]

/-- A literal announces a base, and no digit of it follows. -/
def NoDigits (literal : List Char) : Prop :=
  ∃ letter separators, literal = '0' :: letter :: separators ∧ letter ∈ baseLetters ∧
    ∀ d ∈ separators, d = '_'

/-- A literal has more decimal digits than an integer may have, and nothing but digits. -/
def ManyDigits (literal : List Char) : Prop :=
  (∀ d ∈ withoutSeparators literal, isDigit d = true) ∧
    Number.digitLimit < (withoutSeparators literal).length

/-- Digits behind the letter of their base stand for an integer in it. -/
theorem digitsNumber_radix {letter : Char} {digits : List Char} {base : Nat}
    (hbase : announcedBase? ('0' :: letter :: digits) = some base)
    (hdigits : ∀ d ∈ digits, isHexDigit d = true ∧ ∃ value < base, hexValue? d = some value)
    (hne : digits ≠ []) :
    digitsNumber ('0' :: letter :: digits) = .ok (.integer (numeral base digits)) := by
  have htrim : trim digits = digits :=
    trim_eq_self_of_forall fun d hd =>
      @forall_isHexDigit (fun c => isBlank c = false) (by decide) d (hdigits d hd).1
  have hvalue := digitsValue?_eq_numeral fun d hd => (hdigits d hd).2
  obtain ⟨d, digits, rfl⟩ := List.exists_cons_of_ne_nil hne
  simp only [digitsNumber, hbase, List.drop_succ_cons, List.drop_zero, htrim, hvalue]

/-- Digits in a base have a value, if there are any. -/
theorem noDigits_of_radixShape {core : List Char} (shape : RadixShape core) {fault : LiteralFault}
    (h : digitsNumber (withoutSeparators core) = .error fault) :
    fault = .malformedNumber ∧ NoDigits core := by
  obtain ⟨letter, digits, base, rfl, _, hbase, hdigits⟩ := shape
  have hletter := mem_baseLetters hbase
  have hbase' : announcedBase? ('0' :: letter :: withoutSeparators digits) = some base := hbase
  rw [withoutSeparators_radix hletter] at h
  by_cases hempty : withoutSeparators digits = []
  · rw [hempty] at h hbase'
    rw [digitsNumber, hbase'] at h
    cases h
    refine ⟨rfl, letter, digits, rfl, hletter, fun d hd => ?_⟩
    by_contra hne
    have hmem : d ∈ withoutSeparators digits := List.mem_filter.mpr ⟨hd, bne_iff_ne.mpr hne⟩
    rw [hempty] at hmem
    cases hmem
  · rw [digitsNumber_radix hbase' (fun d hd => ?_) hempty] at h
    · cases h
    · obtain ⟨hmem, hne⟩ := List.mem_filter.mp hd
      exact (hdigits d hmem).resolve_left (bne_iff_ne.mp hne)

theorem ExponentShape.stops {exponent : List Char} (shape : ExponentShape exponent) :
    Grammar.Stops isDigit exponent := by
  rcases shape with rfl | ⟨e, sign, digits, rfl, he | he, _⟩
  · rfl
  · rw [he]
    rfl
  · rw [he]
    rfl

/-- What decimals consist of besides digits. -/
def decimalMarks : List Char :=
  ['.', 'e', 'E', '+', '-']

theorem mem_decimal {whole point fraction exponent : List Char}
    (hpoint : PointShape point fraction) (hexponent : ExponentShape exponent) {c : Char}
    (hc : c ∈ whole ++ point ++ exponent) :
    c ∈ whole ++ fraction ∨ isDigit c = true ∨ c ∈ decimalMarks := by
  rcases List.mem_append.mp hc with hc | hc
  · rcases List.mem_append.mp hc with hc | hc
    · exact Or.inl (List.mem_append_left _ hc)
    · rcases hpoint with ⟨rfl, _⟩ | rfl
      · cases hc
      · rcases List.mem_cons.mp hc with rfl | hc
        · exact Or.inr (Or.inr (by decide))
        · exact Or.inl (List.mem_append_right _ hc)
  · rcases hexponent with rfl | ⟨e, sign, digits, rfl, he, hsign, _, hall⟩
    · cases hc
    · rcases List.mem_cons.mp hc with rfl | hc
      · exact Or.inr (Or.inr (by rcases he with rfl | rfl <;> decide))
      · rcases List.mem_append.mp hc with hc | hc
        · exact Or.inr (Or.inr (by
            rcases hsign with rfl | rfl | rfl <;> simp_all [decimalMarks]))
        · exact Or.inr (Or.inl (hall c hc))

/-- The value of an exponent. -/
def exponentValue : List Char → Int
  | _ :: '-' :: digits => -(numeral 10 digits : Int)
  | _ :: '+' :: digits => numeral 10 digits
  | _ :: digits => numeral 10 digits
  | [] => 0

/-- A decimal without separators is cut into its parts. -/
theorem decimalParts?_eq {whole point fraction exponent : List Char}
    (hpoint : PointShape point fraction) (hdigits : ∀ d ∈ whole ++ fraction, isDigit d = true)
    (hne : whole ++ fraction ≠ []) (hexponent : ExponentShape exponent) :
    decimalParts? (whole ++ point ++ exponent) =
      some (whole, fraction, exponentValue exponent) := by
  obtain ⟨hwhole, hfraction⟩ := List.forall_mem_append.mp hdigits
  have hstops := hexponent.stops
  have htake : (whole ++ (point ++ exponent)).takeWhile isDigit = whole := by
    refine Grammar.Lexeme.takeWhile_append_of_stops hwhole ?_
    rcases hpoint with ⟨rfl, _⟩ | rfl
    · exact hstops
    · rfl
  have hempty : (whole.isEmpty && fraction.isEmpty) = false := by
    simpa [List.append_eq_nil_iff] using hne
  rw [List.append_assoc]
  unfold decimalParts?
  simp only [htake, List.drop_left]
  rcases hexponent with rfl | ⟨e, sign, digits, rfl, he, hsign, hne', hall⟩
  · rcases hpoint with ⟨rfl, rfl⟩ | rfl
    · simp at hne
      simp [hne, exponentValue]
    · simp only [List.cons_append, Grammar.Lexeme.takeWhile_append_of_stops hfraction hstops,
        List.drop_left, hempty]
      simp [exponentValue]
  · have hvalue := digitsValue?_eq_numeral fun d hd => hexValue?_of_isDigit (hall d hd)
    obtain ⟨d, digits, rfl⟩ := List.exists_cons_of_ne_nil hne'
    have hd := hall d (List.mem_cons_self ..)
    have hminus : d ≠ '-' := by
      rintro rfl
      exact absurd hd (by decide)
    have hplus : d ≠ '+' := by
      rintro rfl
      exact absurd hd (by decide)
    have hletter : (e == 'e' || e == 'E') = true := by simpa using he
    have hpointless : e ≠ '.' := by
      rintro rfl
      simp at he
    rcases hpoint with ⟨rfl, rfl⟩ | rfl
    · simp at hne
      rcases hsign with rfl | rfl | rfl <;>
        simp [hne, hletter, hvalue, hminus, hplus, hpointless, exponentValue]
    · simp only [List.cons_append, Grammar.Lexeme.takeWhile_append_of_stops hfraction hstops,
        List.drop_left, hempty]
      rcases hsign with rfl | rfl | rfl <;> simp [hletter, hvalue, hminus, hplus, exponentValue]

section Decimal

variable {whole point fraction exponent : List Char}

theorem not_isBlank_of_mem (hpoint : PointShape point fraction)
    (hdigits : ∀ d ∈ whole ++ fraction, isDigit d = true) (hexponent : ExponentShape exponent) :
    ∀ c ∈ whole ++ point ++ exponent, isBlank c = false := by
  intro c hc
  rcases mem_decimal hpoint hexponent hc with hc | hc | hc
  · exact not_isBlank_of_isDigit (hdigits c hc)
  · exact not_isBlank_of_isDigit hc
  · have hall : decimalMarks.all (!isBlank ·) = true := by decide
    exact (Bool.not_eq_true' _).mp (List.all_eq_true.mp hall c hc)

/-- A decimal starts with a digit or with its point. -/
theorem isDigit_or_point (hpoint : PointShape point fraction)
    (hdigits : ∀ d ∈ whole ++ fraction, isDigit d = true) (hne : whole ++ fraction ≠ [])
    {c : Char} {rest : List Char} (h : whole ++ point ++ exponent = c :: rest) :
    isDigit c = true ∨ c = '.' := by
  cases whole with
  | cons d whole =>
      cases h
      exact Or.inl (hdigits c (by simp))
  | nil =>
      rcases hpoint with ⟨_, rfl⟩ | rfl
      · exact absurd rfl hne
      · cases h
        exact Or.inr rfl

/-- No digit is a letter in upper case. -/
theorem toLower_of_isDigit {c : Char} (h : isDigit c = true) : c.toLower = c := by
  have hupper : ∀ n : Fin 0x80, isDigit (Char.ofNat n) = true →
      (Char.ofNat n).toLower = Char.ofNat n := by decide
  by_cases hsmall : c.toNat < 0x80
  · exact @holds_of_toNat_lt (fun c => isDigit c = true → c.toLower = c) hupper c hsmall h
  · have hlarge : ¬ (c.val ≥ 'A'.val ∧ c.val ≤ 'Z'.val) := by
      rintro ⟨_, hle⟩
      have hle' : c.toNat ≤ 90 := hle
      omega
    exact dif_neg hlarge

/-- The double of a decimal without separators is the one nearest to it. -/
theorem doubleValue?_eq (hpoint : PointShape point fraction)
    (hdigits : ∀ d ∈ whole ++ fraction, isDigit d = true) (hne : whole ++ fraction ≠ [])
    (hexponent : ExponentShape exponent) :
    doubleValue? (whole ++ point ++ exponent) =
      some (Decimal.toBinary64 false
        ⟨numeral 10 (whole ++ fraction), exponentValue exponent - fraction.length⟩) := by
  have hstart := @isDigit_or_point whole point fraction exponent hpoint hdigits hne
  have hword {word : String} {d : Char} {rest : List Char} (hword : word.toList = d :: rest)
      (hletter : isDigit d = false ∧ d ≠ '.') :
      (whole ++ point ++ exponent).map Char.toLower ≠ word.toList := by
    intro heq
    obtain ⟨c, behind, htext, hc, _⟩ := List.map_eq_cons_iff.mp (heq.trans hword)
    rcases hstart htext with hdigit | rfl
    · rw [toLower_of_isDigit hdigit] at hc
      rw [hc, hletter.1] at hdigit
      cases hdigit
    · exact hletter.2 hc.symm
  have hnumber : ¬((whole ++ point ++ exponent).map Char.toLower = "inf".toList ∨
      (whole ++ point ++ exponent).map Char.toLower = "infinity".toList) := by
    rintro (h | h)
    · exact hword rfl (by decide) h
    · exact hword rfl (by decide) h
  have hnan : (whole ++ point ++ exponent).map Char.toLower ≠ "nan".toList :=
    hword rfl (by decide)
  have hmagnitude : magnitudeValue? false (whole ++ point ++ exponent) =
      some (Decimal.toBinary64 false
        ⟨numeral 10 (whole ++ fraction), exponentValue exponent - fraction.length⟩) := by
    have hvalue := digitsValue?_eq_numeral fun d hd => hexValue?_of_isDigit (hdigits d hd)
    simp only [magnitudeValue?, if_neg hnumber, if_neg hnan,
      decimalParts?_eq hpoint hdigits hne hexponent, hvalue, bind, Option.bind]
  rw [doubleValue?, trim_eq_self_of_forall (not_isBlank_of_mem hpoint hdigits hexponent)]
  split
  next heq => exact absurd (hstart heq) (by decide)
  next heq => exact absurd (hstart heq) (by decide)
  next => exact hmagnitude

theorem announcedBase?_decimal (hpoint : PointShape point fraction)
    (hdigits : ∀ d ∈ whole ++ fraction, isDigit d = true) (hexponent : ExponentShape exponent) :
    announcedBase? (whole ++ point ++ exponent) = none := by
  match htext : whole ++ point ++ exponent with
  | [] => rfl
  | [c] => simp [announcedBase?]
  | c :: letter :: rest =>
      have hletter : letter ∉ baseLetters := by
        have hall : baseLetters.all (fun c => c ∉ decimalMarks ∧ isDigit c = false) = true := by
          decide
        intro hmem
        obtain ⟨hmark, hdigit⟩ := of_decide_eq_true (List.all_eq_true.mp hall letter hmem)
        have hc : letter ∈ whole ++ point ++ exponent := by simp [htext]
        rcases mem_decimal hpoint hexponent hc with hc | hc | hc
        · rw [hdigits letter hc] at hdigit
          cases hdigit
        · rw [hc] at hdigit
          cases hdigit
        · exact hmark hc
      by_cases hzero : c = '0'
      · rw [hzero]
        exact announcedBase?_eq_none_iff.mpr hletter
      · simp [announcedBase?, hzero]

end Decimal

theorem withoutSeparators_exponent {exponent : List Char} (shape : ExponentShape exponent) :
    withoutSeparators exponent = exponent := by
  have hpoint : PointShape [] [] := Or.inl ⟨rfl, rfl⟩
  refine List.filter_eq_self.mpr fun c hc => ?_
  rw [bne_iff_ne]
  rintro rfl
  have hmem : '_' ∈ [] ++ [] ++ exponent := hc
  exact absurd (mem_decimal hpoint shape hmem) (by decide)

theorem digits_withoutSeparators {whole fraction : List Char}
    (h : ∀ d ∈ whole ++ fraction, Grammar.Lexeme.continuesDigits d = true)
    (hdigit : ∃ d ∈ whole ++ fraction, isDigit d = true) :
    (∀ d ∈ withoutSeparators whole ++ withoutSeparators fraction, isDigit d = true) ∧
      withoutSeparators whole ++ withoutSeparators fraction ≠ [] := by
  rw [← List.filter_append]
  constructor
  · intro d hd
    obtain ⟨hmem, hne⟩ := List.mem_filter.mp hd
    have hcontinues := h d hmem
    simp only [Grammar.Lexeme.continuesDigits, Bool.or_eq_true, beq_iff_eq] at hcontinues
    exact hcontinues.resolve_right (bne_iff_ne.mp hne)
  · obtain ⟨d, hd, hdigit⟩ := hdigit
    refine List.ne_nil_of_mem (List.mem_filter.mpr ⟨hd, ?_⟩)
    rw [bne_iff_ne]
    rintro rfl
    exact absurd hdigit (by decide)

theorem PointShape.withoutSeparators {point fraction : List Char} (h : PointShape point fraction) :
    PointShape (withoutSeparators point) (withoutSeparators fraction) := by
  rcases h with ⟨rfl, rfl⟩ | rfl
  · exact Or.inl ⟨rfl, rfl⟩
  · exact Or.inr rfl

theorem PointShape.withoutSeparators_ne_nil {point fraction : List Char}
    (h : PointShape point fraction) (hne : point ≠ []) :
    Literal.withoutSeparators point ≠ [] := by
  rcases h with ⟨rfl, _⟩ | rfl
  · exact hne
  · exact List.cons_ne_nil _ _

theorem withoutSeparators_decimal {whole point exponent : List Char}
    (hexponent : ExponentShape exponent) :
    withoutSeparators (whole ++ point ++ exponent) =
      withoutSeparators whole ++ withoutSeparators point ++ exponent := by
  have hkept : exponent.filter (· != '_') = exponent := withoutSeparators_exponent hexponent
  rw [withoutSeparators, List.filter_append, List.filter_append, hkept]

/-- Decimal digits alone stand for an integer, if there are not too many of them. -/
theorem digitsNumber_whole {digits : List Char} (hdigits : ∀ d ∈ digits, isDigit d = true)
    (hne : digits ≠ []) :
    digitsNumber digits =
      if Number.digitLimit < digits.length then .error .tooManyDigits
      else .ok (.integer (numeral 10 digits)) := by
  have hpoint : PointShape [] [] := Or.inl ⟨rfl, rfl⟩
  have hexponent : ExponentShape [] := Or.inl rfl
  have hbase := announcedBase?_decimal hpoint (by simpa using hdigits) hexponent
  rw [List.append_nil, List.append_nil] at hbase
  have hall : (!digits.isEmpty && digits.all isDigit) = true := by
    simpa [hne] using hdigits
  have hvalue := digitsValue?_eq_numeral fun d hd => hexValue?_of_isDigit (hdigits d hd)
  simp only [digitsNumber, hbase, hall, if_true, hvalue, Option.getD_some]

/-- A decimal with a point or an exponent stands for the double nearest to it, or for the integer
that this double is. -/
theorem digitsNumber_decimal {whole point fraction exponent : List Char}
    (hpoint : PointShape point fraction) (hdigits : ∀ d ∈ whole ++ fraction, isDigit d = true)
    (hne : whole ++ fraction ≠ []) (hexponent : ExponentShape exponent)
    (hmore : point ≠ [] ∨ exponent ≠ []) :
    digitsNumber (whole ++ point ++ exponent) =
      .ok (integerIfSafe (Decimal.toBinary64 false
        ⟨numeral 10 (whole ++ fraction), exponentValue exponent - fraction.length⟩)) := by
  have hall : (whole ++ point ++ exponent).all isDigit = false := by
    rw [List.all_eq_false]
    rcases hpoint with ⟨rfl, _⟩ | rfl
    · rcases hexponent with rfl | ⟨e, sign, digits, rfl, rfl | rfl, _⟩
      · simp at hmore
      · exact ⟨'e', by simp, by decide⟩
      · exact ⟨'E', by simp, by decide⟩
    · exact ⟨'.', by simp, by decide⟩
  simp only [digitsNumber, announcedBase?_decimal hpoint hdigits hexponent, hall, Bool.and_false,
    doubleValue?_eq hpoint hdigits hne hexponent]
  rfl

/-- A decimal has a value, unless it has too many digits for an integer. -/
theorem manyDigits_of_decimalShape {core : List Char} (shape : DecimalShape core)
    {fault : LiteralFault} (h : digitsNumber (withoutSeparators core) = .error fault) :
    fault = .tooManyDigits ∧ ManyDigits core := by
  obtain ⟨whole, point, fraction, exponent, rfl, hpoint, hall, hdigit, hexponent⟩ := shape
  obtain ⟨hdigits, hne⟩ := digits_withoutSeparators hall hdigit
  by_cases hmore : withoutSeparators point ≠ [] ∨ exponent ≠ []
  · rw [withoutSeparators_decimal hexponent,
      digitsNumber_decimal hpoint.withoutSeparators hdigits hne hexponent hmore] at h
    cases h
  · obtain ⟨hpoint', hexponent'⟩ := not_or.mp hmore
    cases not_not.mp hexponent'
    rcases hpoint with ⟨rfl, rfl⟩ | rfl
    · have hdigits' : ∀ d ∈ withoutSeparators whole, isDigit d = true := by simpa using hdigits
      rw [List.append_nil, List.append_nil] at h ⊢
      rw [digitsNumber_whole hdigits' (by simpa using hne)] at h
      split at h
      next hmany =>
        cases h
        exact ⟨rfl, hdigits', hmany⟩
      next => cases h
    · exact absurd (List.cons_ne_nil _ _) hpoint'

/-- What numeric literals consist of. -/
def inNumeral (c : Char) : Bool :=
  isDigit c || isHexDigit c || ('_' :: 'n' :: (baseLetters ++ decimalMarks)).contains c

theorem NumeralShape.inNumeral {literal : List Char} (shape : NumeralShape literal) :
    ∀ c ∈ literal, Literal.inNumeral c = true := by
  intro c hc
  obtain ⟨core, big, rfl, hcore, hbig⟩ := shape
  rcases List.mem_append.mp hc with hc | hc
  · rcases hcore with ⟨letter, digits, base, rfl, _, hbase, hdigits⟩ |
      ⟨whole, point, fraction, exponent, rfl, hpoint, hall, _, hexponent⟩
    · rcases List.mem_cons.mp hc with rfl | hc
      · rfl
      · rcases List.mem_cons.mp hc with rfl | hc
        · simp [Literal.inNumeral, mem_baseLetters hbase]
        · rcases hdigits c hc with rfl | ⟨hhex, _⟩
          · rfl
          · simp [Literal.inNumeral, hhex]
    · rcases mem_decimal hpoint hexponent hc with hc | hdigit | hmark
      · have hcontinues := hall c hc
        simp only [Grammar.Lexeme.continuesDigits, Bool.or_eq_true, beq_iff_eq] at hcontinues
        rcases hcontinues with hdigit | rfl
        · simp [Literal.inNumeral, hdigit]
        · rfl
      · simp [Literal.inNumeral, hdigit]
      · simp [Literal.inNumeral, hmark]
  · rcases hbig with rfl | rfl
    · cases hc
    · rw [List.mem_singleton.mp hc]
      rfl

theorem NumeralShape.ne_nil {literal : List Char} (shape : NumeralShape literal) : literal ≠ [] := by
  obtain ⟨core, big, rfl, hcore, _⟩ := shape
  rcases hcore with ⟨letter, digits, base, rfl, _⟩ |
    ⟨whole, point, fraction, exponent, rfl, hpoint, _, ⟨d, hd, _⟩, _⟩
  · exact List.cons_ne_nil _ _
  · rcases hpoint with ⟨rfl, rfl⟩ | rfl
    · rw [List.append_nil] at hd
      simp [List.ne_nil_of_mem hd]
    · simp

/-- A numeric literal has a value, unless it announces a base and has no digits, or it has too many
digits for an integer. -/
theorem numberOf?_eq_error {literal : List Char} (shape : NumeralShape literal)
    {fault : LiteralFault} (h : numberOf? (String.ofList literal) = .error fault) :
    fault = .malformedNumber ∧ NoDigits literal ∨ fault = .tooManyDigits ∧ ManyDigits literal := by
  obtain ⟨core, big, rfl, hcore, rfl | rfl⟩ := shape
  · rw [List.append_nil] at h ⊢
    have hdigits : digitsNumber (withoutSeparators core) = .error fault := by
      rw [numberOf?, String.toList_ofList] at h
      split at h
      · cases h
      · cases hnumber : digitsNumber (withoutSeparators core) with
        | ok number =>
            rw [hnumber] at h
            cases h
        | error found =>
            rw [hnumber] at h
            cases h
            rfl
    rcases hcore with hradix | hdecimal
    · exact Or.inl (noDigits_of_radixShape hradix hdigits)
    · exact Or.inr (manyDigits_of_decimalShape hdecimal hdigits)
  · rw [numberOf?, String.toList_ofList, if_pos List.getLast?_concat] at h
    cases h

end Literal

end EditableMarkup
