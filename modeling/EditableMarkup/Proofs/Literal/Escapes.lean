import EditableMarkup.Proofs.Literal.Spelling

/-!
# Strings without a value

Undoing the escapes of a string fails at a code point in braces that lies beyond
the last one, and nowhere else.  An escape starts at a backslash that is not
itself escaped, that is, behind an even number of backslashes; this is what
holds of every place at which undoing looks for an escape.
-/

namespace EditableMarkup

namespace Grammar.Lexeme

theorem quotedRest_split {quote : Char} {lines : Bool} {text : List Char} {length : Nat}
    (h : quotedRest quote lines text = some length) :
    ∃ body rest, text = body ++ quote :: rest ∧ length = body.length + 1 := by
  fun_induction quotedRest quote lines text generalizing length with
  | case1 => cases h
  | case2 => cases h
  | case3 c rest ih =>
      obtain ⟨count, hcount, rfl⟩ := Option.map_eq_some_iff.mp h
      obtain ⟨body, behind, rfl, rfl⟩ := ih hcount
      exact ⟨'\\' :: c :: body, behind, rfl, rfl⟩
  | case4 c rest _ _ hquote =>
      cases h
      exact ⟨[], rest, by rw [beq_iff_eq.mp hquote]; rfl, rfl⟩
  | case5 => cases h
  | case6 c rest _ _ _ _ ih =>
      obtain ⟨count, hcount, rfl⟩ := Option.map_eq_some_iff.mp h
      obtain ⟨body, behind, rfl, rfl⟩ := ih hcount
      exact ⟨c :: body, behind, rfl, rfl⟩

/-- A string literal stands between two equal quotes. -/
theorem string_split {text : List Char} {length : Nat} (h : string text = some length) :
    ∃ quote body rest, (quote = '"' ∨ quote = '\'') ∧
      text = quote :: (body ++ quote :: rest) ∧ length = body.length + 2 := by
  unfold string at h
  split at h
  · next behind =>
      obtain ⟨count, hcount, rfl⟩ := Option.map_eq_some_iff.mp h
      obtain ⟨body, rest, rfl, rfl⟩ := quotedRest_split hcount
      exact ⟨'"', body, rest, Or.inl rfl, rfl, rfl⟩
  · next behind =>
      obtain ⟨count, hcount, rfl⟩ := Option.map_eq_some_iff.mp h
      obtain ⟨body, rest, rfl, rfl⟩ := quotedRest_split hcount
      exact ⟨'\'', body, rest, Or.inr rfl, rfl, rfl⟩
  · cases h

end Grammar.Lexeme

namespace Literal

open EditableMarkup.Text

/-! ## Escapes in a text -/

/-- The number of backslashes at the end of a text. -/
def trailing (text : List Char) : Nat :=
  (text.reverse.takeWhile (· == '\\')).length

/-- A text holds an escape with a code point in braces: its backslash stands behind an even number of
backslashes, so it is not escaped itself. -/
def HoldsEscape (text : List Char) (n : Nat) : Prop :=
  ∃ before digits after, text = before ++ '\\' :: 'u' :: '{' :: (digits ++ '}' :: after) ∧
    trailing before % 2 = 0 ∧ digits ≠ [] ∧ (∀ d ∈ digits, isHexDigit d = true) ∧
    hexNumber digits = n

theorem trailing_concat (text : List Char) (c : Char) :
    trailing (text ++ [c]) = if c = '\\' then trailing text + 1 else 0 := by
  by_cases h : c = '\\' <;> simp [trailing, h]

theorem trailing_append_of_ne (text front : List Char) {c : Char} (h : c ≠ '\\') :
    trailing (text ++ (front ++ [c])) = 0 := by
  rw [← List.append_assoc, trailing_concat, if_neg h]

/-- A front that does not end with a backslash changes nothing. -/
theorem trailing_cons {c : Char} (h : c ≠ '\\') (text : List Char) :
    trailing (c :: text) = trailing text := by
  induction text using List.reverseRecOn with
  | nil => exact (trailing_concat [] c).trans (if_neg h)
  | append_singleton text d ih =>
      rw [← List.cons_append, trailing_concat, trailing_concat, ih]

/-! ## Code points -/

theorem hexValue?_lt {c : Char} (h : isHexDigit c = true) : (hexValue? c).getD 0 < 16 :=
  @forall_isHexDigit (fun c => (hexValue? c).getD 0 < 16) (by decide) c h

theorem hexNumber_lt {digits : List Char} (h : ∀ d ∈ digits, isHexDigit d = true) :
    hexNumber digits < Nat.pow 16 digits.length := by
  induction digits using List.reverseRecOn with
  | nil => decide
  | append_singleton digits c ih =>
      have hc := hexValue?_lt (h c (by simp))
      have hdigits := ih fun d hd => h d (by simp [hd])
      have hpow : Nat.pow 16 (digits.length + 1) = Nat.pow 16 digits.length * 16 := rfl
      rw [hexNumber_concat, List.length_append, List.length_singleton, hpow]
      omega

/-- The fault of a code point beyond the last one. -/
def codePointFault (n : Nat) : LiteralFault :=
  if Nat.pow 2 31 ≤ n then .beyondWords else .beyondCodePoints

theorem codePoint_eq_error {n : Nat} {fault : LiteralFault} (h : codePoint n = .error fault) :
    0x10FFFF < n ∧ fault = codePointFault n := by
  have hpow : Nat.pow 2 31 = 2147483648 := rfl
  unfold codePoint at h
  split at h
  next hwords =>
    cases h
    exact ⟨by omega, by rw [codePointFault, if_pos hwords]⟩
  next hwords =>
    split at h
    · next hlarge =>
        cases h
        exact ⟨hlarge, by rw [codePointFault, if_neg hwords]⟩
    · split at h <;> cases h

theorem bracedDigits?_eq_some {text digits : List Char} (h : bracedDigits? text = some digits) :
    ∃ after, text = digits ++ '}' :: after ∧ digits ≠ [] ∧ ∀ d ∈ digits, isHexDigit d = true := by
  simp only [bracedDigits?] at h
  split at h
  next c rest after htake hdrop =>
    cases h
    have hprefix : text.takeWhile isHexDigit <+: text := List.takeWhile_prefix _
    refine ⟨after, ?_, by simp [htake], fun d hd => ?_⟩
    · rw [← hdrop]
      exact (List.prefix_iff_eq_append.mp hprefix).symm
    · exact List.all_eq_true.mp List.all_takeWhile d hd
  next => cases h

theorem fixedDigits?_eq_some {count : Nat} {text digits : List Char}
    (h : fixedDigits? count text = some digits) :
    ∃ after, text = digits ++ after ∧ digits.length = count ∧
      ∀ d ∈ digits, isHexDigit d = true := by
  simp only [fixedDigits?] at h
  split at h
  next htake =>
    cases h
    exact ⟨text.drop count, (List.take_append_drop ..).symm, htake.1, List.all_eq_true.mp htake.2⟩
  next => cases h

/-- An escape with a code point has its digits in braces, or not more than four of them. -/
theorem codePointEscape?_eq_some {text digits : List Char} {length : Nat}
    (h : codePointEscape? text = some (length, digits)) :
    (∃ after, text = 'u' :: '{' :: (digits ++ '}' :: after) ∧ length = digits.length + 3 ∧
        digits ≠ [] ∧ ∀ d ∈ digits, isHexDigit d = true) ∨
      ∃ letter after, text = letter :: (digits ++ after) ∧ length = digits.length + 1 ∧
        digits ≠ [] ∧ digits.length ≤ 4 ∧ ∀ d ∈ digits, isHexDigit d = true := by
  unfold codePointEscape? at h
  split at h
  · obtain ⟨found, hfound, heq⟩ := Option.map_eq_some_iff.mp h
    cases heq
    obtain ⟨after, rfl, hne, hall⟩ := bracedDigits?_eq_some hfound
    exact Or.inl ⟨after, rfl, rfl, hne, hall⟩
  · obtain ⟨found, hfound, heq⟩ := Option.map_eq_some_iff.mp h
    cases heq
    obtain ⟨after, rfl, hlength, hall⟩ := fixedDigits?_eq_some hfound
    refine Or.inr ⟨'u', after, rfl, by rw [hlength], ?_, Nat.le_of_eq hlength, hall⟩
    exact List.length_pos_iff.mp (by rw [hlength]; decide)
  · obtain ⟨found, hfound, heq⟩ := Option.map_eq_some_iff.mp h
    cases heq
    obtain ⟨after, rfl, hlength, hall⟩ := fixedDigits?_eq_some hfound
    refine Or.inr ⟨'x', after, rfl, by rw [hlength], ?_, by rw [hlength]; decide, hall⟩
    exact List.length_pos_iff.mp (by rw [hlength]; decide)
  · cases h

/-! ## Undoing escapes -/

/-- The digits of an escape do not end with a backslash. -/
theorem trailing_digits {text digits : List Char} (hne : digits ≠ [])
    (h : ∀ d ∈ digits, isHexDigit d = true) : trailing (text ++ digits) = 0 := by
  obtain ⟨front, c, rfl⟩ := (List.eq_nil_or_concat digits).resolve_left hne
  have hc : c ≠ '\\' := by
    rintro rfl
    exact absurd (h '\\' (by simp)) (by decide)
  rw [List.concat_eq_append]
  exact trailing_append_of_ne text front hc

/-- Behind an escape the number of backslashes is as even as in front of it. -/
theorem trailing_escape {before text : List Char} {length : Nat}
    {meaning : Except LiteralFault (List Char)} (h : escape? text = some (length, meaning))
    (heven : trailing before % 2 = 0) :
    trailing (before ++ '\\' :: text.take length) % 2 = 0 := by
  unfold escape? at h
  split at h
  next count digits hescape =>
    cases h
    have hzero : trailing (before ++ '\\' :: text.take length) = 0 := by
      rcases codePointEscape?_eq_some hescape with
        ⟨after, rfl, rfl, _, _⟩ | ⟨letter, after, rfl, rfl, hne, _, hall⟩
      · have htake : ('u' :: '{' :: (digits ++ '}' :: after)).take (digits.length + 3) =
            ('u' :: '{' :: digits) ++ ['}'] := by
          rw [← List.cons_append, ← List.cons_append, List.append_cons]
          exact List.take_left' (by simp)
        rw [htake]
        exact trailing_append_of_ne before ('\\' :: 'u' :: '{' :: digits) (by decide)
      · have htake : (letter :: (digits ++ after)).take (digits.length + 1) = letter :: digits := by
          simp
        rw [htake]
        have hassoc : before ++ '\\' :: letter :: digits = (before ++ ['\\', letter]) ++ digits := by
          simp
        rw [hassoc]
        exact trailing_digits hne hall
    rw [hzero]
  next =>
    split at h
    · cases h
      exact congrArg (· % 2)
        (trailing_append_of_ne before ['\\', '\r'] (show '\n' ≠ '\\' by decide))
    next c rest _ _ =>
      cases h
      have hconcat : before ++ '\\' :: (c :: rest).take 1 = (before ++ ['\\']) ++ [c] := by simp
      rw [hconcat, trailing_concat, trailing_concat]
      split
      · simp only [if_true]
        omega
      · rfl
    · cases h

/-- The only way for an escape to fail. -/
theorem escape?_eq_error {text : List Char} {length : Nat} {fault : LiteralFault}
    (h : escape? text = some (length, .error fault)) :
    ∃ digits after, text = 'u' :: '{' :: (digits ++ '}' :: after) ∧ digits ≠ [] ∧
      (∀ d ∈ digits, isHexDigit d = true) ∧ 0x10FFFF < hexNumber digits ∧
      fault = codePointFault (hexNumber digits) := by
  unfold escape? at h
  split at h
  next count digits hescape =>
    have hfailed : codePoint (hexNumber digits) = .error fault := by
      cases hcode : codePoint (hexNumber digits) with
      | error found =>
          rw [hcode] at h
          cases h
          rfl
      | ok c =>
          rw [hcode] at h
          cases h
    obtain ⟨hlarge, hfault⟩ := codePoint_eq_error hfailed
    rcases codePointEscape?_eq_some hescape with
      ⟨after, rfl, _, hne, hall⟩ | ⟨_, _, _, _, _, hlength, hall⟩
    · exact ⟨digits, after, rfl, hne, hall, hlarge, hfault⟩
    · have hbound := hexNumber_lt hall
      have hpow : Nat.pow 16 digits.length ≤ Nat.pow 16 4 :=
        Nat.pow_le_pow_right (by decide) hlength
      have hfour : Nat.pow 16 4 = 65536 := rfl
      omega
  next =>
    split at h <;> cases h

/-- A backslash is no escape only at the end of a text. -/
theorem escape?_eq_none {text : List Char} (h : escape? text = none) : text = [] := by
  unfold escape? at h
  split at h
  · cases h
  · split at h
    · cases h
    · cases h
    · rfl

theorem eq_error_of_map {α β : Type} {result : Except LiteralFault α} {f : α → β}
    {fault : LiteralFault} (h : (do return f (← result)) = Except.error fault) :
    result = .error fault := by
  cases result with
  | error found =>
      cases h
      rfl
  | ok value => cases h

/-- Where undoing the escapes of a text fails, the text holds an escape beyond the last code point.
The text in front of what is still to be read ends with an even number of backslashes. -/
theorem exists_of_unescapeFrom_eq_error {before text : List Char} {pending : Nat}
    {fault : LiteralFault} (h : unescapeFrom pending text = .error fault)
    (heven : trailing (before ++ text.take pending) % 2 = 0) :
    ∃ n, HoldsEscape (before ++ text) n ∧ 0x10FFFF < n ∧ fault = codePointFault n := by
  induction text generalizing before pending with
  | nil => cases pending <;> cases h
  | cons c rest ih =>
      have hbehind : before ++ c :: rest = (before ++ [c]) ++ rest := by simp
      cases pending with
      | succ pending =>
          rw [hbehind]
          refine ih h ?_
          simpa using heven
      | zero =>
          rw [List.take_zero, List.append_nil] at heven
          rw [unescapeFrom] at h
          split at h
          next hslash =>
            rw [beq_iff_eq] at hslash
            subst hslash
            split at h
            next length meaning hescape =>
              cases meaning with
              | error found =>
                  cases h
                  obtain ⟨digits, after, rfl, hne, hall, hlarge, hfault⟩ := escape?_eq_error hescape
                  exact ⟨_, ⟨before, digits, after, rfl, heven, hne, hall, rfl⟩, hlarge, hfault⟩
              | ok first =>
                  rw [hbehind]
                  refine ih (eq_error_of_map h) ?_
                  simpa using trailing_escape hescape heven
            next hnone =>
              rw [escape?_eq_none hnone] at h
              cases h
          next hslash =>
            rw [hbehind]
            refine ih (eq_error_of_map h) ?_
            rw [List.take_zero, List.append_nil, trailing_concat, if_neg (by simpa using hslash)]

/-- The escapes of a literal can be undone, unless one of them is beyond the last code point. -/
theorem exists_of_unquoted_eq_error {quote : Char} {body : List Char} {fault : LiteralFault}
    (hquote : quote ≠ '\\')
    (h : unquoted (String.ofList (quote :: (body ++ [quote]))) = .error fault) :
    ∃ n, HoldsEscape (quote :: (body ++ [quote])) n ∧ 0x10FFFF < n ∧ fault = codePointFault n := by
  have hinner : inner (quote :: (body ++ [quote])) = body := by simp [inner]
  have hbody : unescapeFrom 0 body = .error fault := by
    rw [unquoted, String.toList_ofList, hinner] at h
    cases hfound : unescapeFrom 0 body with
    | error found =>
        rw [hfound] at h
        cases h
        rfl
    | ok found =>
        rw [hfound] at h
        cases h
  have heven : trailing ([quote] ++ body.take 0) % 2 = 0 := by
    rw [List.take_zero, List.append_nil, trailing_cons hquote]
    rfl
  obtain ⟨n, hholds, hlarge, hfault⟩ := exists_of_unescapeFrom_eq_error hbody heven
  obtain ⟨before, digits, after, heq, hbefore⟩ := hholds
  refine ⟨n, ⟨before, digits, after ++ [quote], ?_, hbefore⟩, hlarge, hfault⟩
  simpa using congrArg (· ++ [quote]) heq

end Literal

end EditableMarkup
