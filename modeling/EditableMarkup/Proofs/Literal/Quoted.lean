import EditableMarkup.Proofs.Literal.Spelling
import Mathlib.Algebra.Group.Nat.Defs

/-!
# Quoted strings read back

A string is put between double quotes by writing each of its characters in one
of the ways that are read back: as it is, behind a backslash as a letter or as
itself, or as its code point.  So undoing the escapes gives the string.  A
character that is written neither ends a literal nor opens an escape that takes
more than was written; hence what is written is one string literal, whatever
follows it.
-/

namespace EditableMarkup.Literal

open EditableMarkup.Grammar EditableMarkup.Text

/-! ## Hexadecimal digits -/

theorem isHexDigit_hexDigit {n : Nat} (h : n < 16) : isHexDigit (hexDigit n) = true := by
  have hall : ∀ k : Fin 16, isHexDigit (hexDigit k) = true := by decide
  exact hall ⟨n, h⟩

theorem hexValue?_hexDigit {n : Nat} (h : n < 16) : hexValue? (hexDigit n) = some n := by
  have hall : ∀ k : Fin 16, hexValue? (hexDigit k) = some k.val := by decide
  exact hall ⟨n, h⟩

theorem length_hexDigits (count n : Nat) : (hexDigits count n).length = count := by
  induction count generalizing n with
  | zero => rfl
  | succ count ih => rw [hexDigits, List.length_append, ih, List.length_singleton]

theorem isHexDigit_of_mem_hexDigits {count n : Nat} {d : Char} (h : d ∈ hexDigits count n) :
    isHexDigit d = true := by
  induction count generalizing n with
  | zero => cases h
  | succ count ih =>
      rcases List.mem_append.mp h with h | h
      · exact ih h
      · rw [List.mem_singleton.mp h]
        exact isHexDigit_hexDigit (Nat.mod_lt n (by decide))

/-- The digits of a number that fits them stand for the number. -/
theorem numeral_hexDigits {count n : Nat} (h : n < 16 ^ count) :
    numeral 16 (hexDigits count n) = n := by
  induction count generalizing n with
  | zero => exact (Nat.lt_one_iff.mp h).symm
  | succ count ih =>
      have hquotient : n / 16 < 16 ^ count := by
        rw [Nat.pow_succ] at h
        omega
      rw [hexDigits, numeral_concat, ih hquotient, hexValue?_hexDigit (Nat.mod_lt n (by decide))]
      exact Nat.div_add_mod n 16

/-! ## The way a string is written -/

theorem writesChar_escaped (c : Char) : WritesChar '"' c (escaped c) := by
  by_cases hquote : c = '"'
  · subst hquote
    exact .itself (by decide)
  by_cases hslash : c = '\\'
  · subst hslash
    exact .itself (by decide)
  by_cases hletter : c ∈ ['\n', '\r', '\t', '\x08', '\x0c']
  · simp only [List.mem_cons, List.not_mem_nil, or_false] at hletter
    rcases hletter with rfl | rfl | rfl | rfl | rfl <;> exact .letter (by decide)
  · simp only [List.mem_cons, List.not_mem_nil, or_false, not_or] at hletter
    by_cases hcontrol : c.toNat < 0x20
    · have hescaped : escaped c = '\\' :: 'u' :: hexDigits 4 c.toNat := by
        simp [escaped, hquote, hslash, hletter, hcontrol]
      rw [hescaped]
      exact .fourDigits ⟨fun _ => isHexDigit_of_mem_hexDigits, numeral_hexDigits (by omega)⟩
        (length_hexDigits 4 _)
    · have hescaped : escaped c = [c] := by
        simp [escaped, hquote, hslash, hletter, hcontrol]
      rw [hescaped]
      exact .raw hslash hquote hletter.1

theorem writes_flatMap_escaped (text : List Char) : Writes '"' text (text.flatMap escaped) := by
  induction text with
  | nil => exact .done
  | cons c text ih => exact .char (writesChar_escaped c) ih

theorem isLiteralFor_quoted (text : String) : IsLiteralFor text (quoted text) := by
  refine ⟨'"', text.toList.flatMap escaped, .inl rfl, ?_, writes_flatMap_escaped text.toList⟩
  rw [quoted, String.toList_ofList, quotedChars]

/-- A quoted string stands for the string. -/
theorem unquoted_quoted (text : String) : unquoted (quoted text) = .ok text :=
  unquoted_of_isLiteralFor (isLiteralFor_quoted text)

/-! ## The literal as a lexeme -/

section Lexeme

variable {quote : Char}

/-- A character neither ends a literal nor escapes the next one. -/
def Inside (quote c : Char) : Prop :=
  c ≠ '\\' ∧ c ≠ quote ∧ c ≠ '\n'

theorem quotedRest_cons {c : Char} (h : Inside quote c) (rest : List Char) :
    Lexeme.quotedRest quote false (c :: rest) =
      (Lexeme.quotedRest quote false rest).map (· + 1) := by
  rw [Lexeme.quotedRest]
  · simp [h.2.1, h.2.2]
  · intro heq
    exact absurd heq h.1
  · intro d rest' heq
    exact absurd heq h.1

theorem quotedRest_append {front : List Char} (h : ∀ c ∈ front, Inside quote c)
    (rest : List Char) :
    Lexeme.quotedRest quote false (front ++ rest) =
      (Lexeme.quotedRest quote false rest).map (· + front.length) := by
  induction front with
  | nil => simp
  | cons c front ih =>
      rw [List.cons_append, quotedRest_cons (h c (List.mem_cons_self ..)),
        ih fun d hd => h d (List.mem_cons_of_mem _ hd), Option.map_map]
      rfl

/-- A backslash takes one character with it, whichever it is. -/
theorem quotedRest_escape (d : Char) {behind : List Char} (h : ∀ c ∈ behind, Inside quote c)
    (rest : List Char) :
    Lexeme.quotedRest quote false ('\\' :: d :: (behind ++ rest)) =
      (Lexeme.quotedRest quote false rest).map (· + (behind.length + 2)) := by
  rw [Lexeme.quotedRest, quotedRest_append h, Option.map_map]
  rfl

/-- A literal goes on behind a written character as if the character were not there. -/
theorem quotedRest_writesChar (hquote : quote = '"' ∨ quote = '\'') {c : Char} {front : List Char}
    (h : WritesChar quote c front) (rest : List Char) :
    Lexeme.quotedRest quote false (front ++ rest) =
      (Lexeme.quotedRest quote false rest).map (· + front.length) := by
  have hinside (d : Char) (hd : isHexDigit d = true ∨ d = '{' ∨ d = '}') : Inside quote d := by
    have hne (sign : Char) (hsign : ¬ (isHexDigit sign = true ∨ sign = '{' ∨ sign = '}')) :
        d ≠ sign := by
      rintro rfl
      exact hsign hd
    refine ⟨hne '\\' (by decide), ?_, hne '\n' (by decide)⟩
    rcases hquote with rfl | rfl
    · exact hne '"' (by decide)
    · exact hne '\'' (by decide)
  cases h with
  | raw hslash hquote hline => exact quotedRest_cons ⟨hslash, hquote, hline⟩ rest
  | letter _ | itself _ =>
      have hnone : ∀ d ∈ ([] : List Char), Inside quote d := nofun
      exact quotedRest_escape _ hnone rest
  | twoDigits h _ | fourDigits h _ =>
      exact quotedRest_escape _ (fun d hd => hinside d (.inl (h.hexadecimal d hd))) rest
  | @braced digits h _ =>
      have hall : ∀ d ∈ '{' :: (digits ++ ['}']), Inside quote d := by
        intro d hd
        simp only [List.mem_cons, List.mem_append, List.not_mem_nil, or_false] at hd
        rcases hd with hd | hd | hd
        · exact hinside d (.inr (.inl hd))
        · exact hinside d (.inl (h.hexadecimal d hd))
        · exact hinside d (.inr (.inr hd))
      exact quotedRest_escape 'u' hall rest

end Lexeme

theorem quotedRest_flatMap_escaped (text rest : List Char) :
    Lexeme.quotedRest '"' false (text.flatMap escaped ++ '"' :: rest) =
      some ((text.flatMap escaped).length + 1) := by
  induction text with
  | nil => rfl
  | cons c text ih =>
      rw [List.flatMap_cons, List.append_assoc,
        quotedRest_writesChar (.inl rfl) (writesChar_escaped c), ih]
      simp only [Option.map_some, List.length_append, Option.some.injEq]
      omega

/-- A quoted text is one string literal, whatever follows it. -/
theorem string_quotedChars (text rest : List Char) :
    Lexeme.string (quotedChars text ++ rest) = some (quotedChars text).length := by
  have hrest := quotedRest_flatMap_escaped text rest
  simp only [quotedChars, List.cons_append, List.append_assoc, List.nil_append, Lexeme.string,
    hrest, Option.map_some, List.length_cons, List.length_append, List.length_nil]

/-! ## Every way to write a string -/

/-- Undoing the escapes gives a text back from every literal for it. The quoted text is one of these
literals, and it is a string literal as a whole. -/
theorem unquoted_literal (text : String) :
    (∀ literal, IsLiteralFor text literal → unquoted literal = .ok text) ∧
      IsLiteralFor text (quoted text) ∧
      Lexeme.string (quoted text).toList = some (quoted text).toList.length ∧
      unquoted (quoted text) = .ok text := by
  refine ⟨fun _ => unquoted_of_isLiteralFor, isLiteralFor_quoted text, ?_, unquoted_quoted text⟩
  have hwhole := string_quotedChars text.toList []
  rw [List.append_nil] at hwhole
  rw [quoted, String.toList_ofList, hwhole]

/-- A literal that writes its characters in different ways: as they are, as letters, as code points,
and as themselves, with a joined line between them. -/
def mixedLiteral : String :=
  "\"a\\\"\\n\\x41\\u20AC\\\r\n\\u\x7b0001f600\x7d'\\\\\""

theorem unquoted_mixedLiteral :
    IsLiteralFor "a\"\nA€😀'\\" mixedLiteral ∧
      unquoted mixedLiteral = .ok "a\"\nA€😀'\\" := by
  have hliteral : IsLiteralFor "a\"\nA€😀'\\" mixedLiteral := by
    refine ⟨'"', ['a'] ++ (['\\', '"'] ++ (['\\', 'n'] ++ ('\\' :: 'x' :: ['4', '1'] ++
      ('\\' :: 'u' :: ['2', '0', 'A', 'C'] ++ '\\' :: (['\r', '\n'] ++
        ('\\' :: 'u' :: '{' :: (['0', '0', '0', '1', 'f', '6', '0', '0'] ++ ['}']) ++
          (['\''] ++ (['\\', '\\'] ++ [])))))))), .inl rfl, by decide, ?_⟩
    apply Writes.char (.raw (by decide) (by decide) (by decide))
    apply Writes.char (.itself (by decide))
    apply Writes.char (.letter (by decide))
    apply Writes.char (.twoDigits ⟨List.all_eq_true.mp rfl, by decide⟩ rfl)
    apply Writes.char (.fourDigits ⟨List.all_eq_true.mp rfl, by decide⟩ rfl)
    apply Writes.join (by decide)
    apply Writes.char (.braced ⟨List.all_eq_true.mp rfl, by decide⟩ (by decide))
    apply Writes.char (.raw (by decide) (by decide) (by decide))
    exact Writes.char (.itself (by decide)) .done
  exact ⟨hliteral, (unquoted_literal _).1 mixedLiteral hliteral⟩

example : quoted "a\"\n\\b" = "\"a\\\"\\n\\\\b\"" := by decide

end EditableMarkup.Literal
