import EditableMarkup.Grammar.Lexeme
import EditableMarkup.Literal.Quoted
import EditableMarkup.Proofs.Text.Digit
import Mathlib.Data.List.Induction

/-!
# Ways to write a string

Between quotes a character is written as it is, or behind a backslash as a
letter, as its code point in hexadecimal digits, or as itself, and a line end
behind a backslash joins two lines.  Undoing the escapes gives the text back,
whichever way each of its characters was written.
-/

namespace EditableMarkup.Literal

open EditableMarkup.Grammar EditableMarkup.Text

/-! ## Written texts -/

/-- The letters that stand for a character behind a backslash. -/
def letterEscapes : List (Char × Char) :=
  [('n', '\n'), ('t', '\t'), ('r', '\r'), ('b', '\x08'), ('f', '\x0c'), ('v', '\x0b'),
    ('0', '\x00')]

/-- The line ends that a backslash joins over. -/
def lineEnds : List (List Char) :=
  [['\n'], ['\r'], ['\r', '\n'], ['\u2028'], ['\u2029']]

/-- The characters that a backslash does not leave as they are. -/
def escapeOpeners : List Char :=
  letterEscapes.map Prod.fst ++ ['x', 'u'] ++ ['\n', '\r', '\u2028', '\u2029']

/-- Hexadecimal digits that stand for the code point of a character. -/
structure IsCodeOf (digits : List Char) (c : Char) : Prop where
  hexadecimal : ∀ d ∈ digits, isHexDigit d = true
  value : numeral 16 digits = c.toNat

/-- A way to write a character between quotes. -/
inductive WritesChar (quote c : Char) : List Char → Prop where
  | raw (hslash : c ≠ '\\') (hquote : c ≠ quote) (hline : c ≠ '\n') : WritesChar quote c [c]
  | letter {letter : Char} (h : (letter, c) ∈ letterEscapes) : WritesChar quote c ['\\', letter]
  | twoDigits {digits : List Char} (h : IsCodeOf digits c) (hlength : digits.length = 2) :
      WritesChar quote c ('\\' :: 'x' :: digits)
  | fourDigits {digits : List Char} (h : IsCodeOf digits c) (hlength : digits.length = 4) :
      WritesChar quote c ('\\' :: 'u' :: digits)
  | braced {digits : List Char} (h : IsCodeOf digits c) (hne : digits ≠ []) :
      WritesChar quote c ('\\' :: 'u' :: '{' :: (digits ++ ['}']))
  | itself (h : c ∉ escapeOpeners) : WritesChar quote c ['\\', c]

/-- A way to write a text between quotes: one character after the other, with joined lines between
them. -/
inductive Writes (quote : Char) : List Char → List Char → Prop where
  | done : Writes quote [] []
  | char {c : Char} {text front rest : List Char} (hchar : WritesChar quote c front)
      (hrest : Writes quote text rest) : Writes quote (c :: text) (front ++ rest)
  | join {text lineEnd rest : List Char} (hline : lineEnd ∈ lineEnds)
      (hrest : Writes quote text rest) : Writes quote text ('\\' :: (lineEnd ++ rest))

/-! ## Code points -/

/-- The code point of a character is read as the character. -/
theorem codePoint_toNat (c : Char) : codePoint c.toNat = .ok c := by
  have hvalid : c.toNat < 0xD800 ∨ 0xDFFF < c.toNat ∧ c.toNat < 0x110000 := c.valid
  have hword : ¬ Nat.pow 2 31 ≤ c.toNat := by
    have hpow : Nat.pow 2 31 = 2147483648 := rfl
    omega
  have hlast : ¬ 0x10FFFF < c.toNat := by omega
  have hsurrogate : ¬ (0xD800 ≤ c.toNat ∧ c.toNat ≤ 0xDFFF) := by omega
  rw [codePoint, if_neg hword, if_neg hlast, if_neg hsurrogate, Char.ofNat_toNat]

theorem hexNumber_concat (digits : List Char) (c : Char) :
    hexNumber (digits ++ [c]) = 16 * hexNumber digits + (hexValue? c).getD 0 := by
  simp [hexNumber]

theorem hexNumber_eq_numeral (digits : List Char) : hexNumber digits = numeral 16 digits := by
  induction digits using List.reverseRecOn with
  | nil => rfl
  | append_singleton digits c ih => rw [hexNumber_concat, numeral_concat, ih]

/-! ## One escape -/

theorem escape?_of_isCodeOf {text digits : List Char} {c : Char} {length : Nat}
    (h : IsCodeOf digits c) (htext : codePointEscape? text = some (length, digits)) :
    escape? text = some (length, .ok [c]) := by
  simp only [escape?, htext, hexNumber_eq_numeral, h.value, codePoint_toNat]
  rfl

/-- Digits in front of any text are found, if their number is fixed. -/
theorem fixedDigits?_append {digits : List Char} (h : ∀ d ∈ digits, isHexDigit d = true)
    (rest : List Char) : fixedDigits? digits.length (digits ++ rest) = some digits := by
  have hall : digits.all isHexDigit = true := List.all_eq_true.mpr h
  simp only [fixedDigits?, List.take_left, hall, and_self, if_true]

/-- Digits in front of a closing brace are found. -/
theorem bracedDigits?_append {digits : List Char} (h : ∀ d ∈ digits, isHexDigit d = true)
    (hne : digits ≠ []) (rest : List Char) :
    bracedDigits? (digits ++ '}' :: rest) = some digits := by
  have htake : (digits ++ '}' :: rest).takeWhile isHexDigit = digits := by
    rw [List.takeWhile_append_of_pos h]
    simp [isHexDigit]
  obtain ⟨d, digits, rfl⟩ := List.exists_cons_of_ne_nil hne
  simp only [bracedDigits?, htake, List.drop_left]

/-- A backslash in front of a character that opens no longer escape. -/
theorem escape?_cons {d : Char} {rest : List Char} (hdigits : d ≠ 'x' ∧ d ≠ 'u')
    (hline : d = '\r' → rest.head? ≠ some '\n') :
    escape? (d :: rest) = some (1, .ok (simpleEscape d)) := by
  have hcode : codePointEscape? (d :: rest) = none := by
    unfold codePointEscape?
    split
    · next heq => exact absurd (List.cons.inj heq).1 hdigits.2
    · next heq => exact absurd (List.cons.inj heq).1 hdigits.2
    · next heq => exact absurd (List.cons.inj heq).1 hdigits.1
    · rfl
  simp only [escape?, hcode]
  split
  · next heq =>
      obtain ⟨rfl, rfl⟩ := List.cons.inj heq
      exact absurd rfl (hline rfl)
  · next heq =>
      obtain ⟨rfl, rfl⟩ := List.cons.inj heq
      rfl
  · next heq => cases heq

/-- An escape that writes a character stands for the character, whatever follows it. -/
theorem escape?_append {quote c : Char} {behind : List Char}
    (h : WritesChar quote c ('\\' :: behind)) (rest : List Char) :
    escape? (behind ++ rest) = some (behind.length, .ok [c]) := by
  cases h with
  | raw hslash => exact absurd rfl hslash
  | letter h =>
      have hletters : ∀ entry ∈ letterEscapes, (entry.1 ≠ 'x' ∧ entry.1 ≠ 'u') ∧
          entry.1 ≠ '\r' ∧ simpleEscape entry.1 = [entry.2] := by decide
      obtain ⟨hdigits, hreturn, hmeaning⟩ := hletters _ h
      rw [List.singleton_append, escape?_cons hdigits fun heq => absurd heq hreturn, hmeaning]
      rfl
  | @twoDigits digits h hlength =>
      apply escape?_of_isCodeOf h
      have hfixed := fixedDigits?_append h.hexadecimal rest
      rw [hlength] at hfixed
      rw [List.cons_append, codePointEscape?, hfixed, List.length_cons, hlength]
      rfl
  | @fourDigits digits h hlength =>
      apply escape?_of_isCodeOf h
      have hfixed := fixedDigits?_append h.hexadecimal rest
      rw [hlength] at hfixed
      rw [List.cons_append, codePointEscape?, hfixed, List.length_cons, hlength]
      · rfl
      · intro more hmore
        have hne : digits ≠ [] := by
          rintro rfl
          cases hlength
        obtain ⟨d, digits, rfl⟩ := List.exists_cons_of_ne_nil hne
        have hd := h.hexadecimal d (List.mem_cons_self ..)
        rw [(List.cons.inj hmore).1] at hd
        exact absurd hd (by decide)
  | @braced digits h hne =>
      apply escape?_of_isCodeOf h
      simp only [List.cons_append, List.append_assoc, List.nil_append, codePointEscape?,
        bracedDigits?_append h.hexadecimal hne]
      simp
  | itself h =>
      have hne (d : Char) (hd : d ∈ escapeOpeners) : c ≠ d := by
        rintro rfl
        exact h hd
      have hmeaning : simpleEscape c = [c] := by
        simp [escapeOpeners, letterEscapes] at h
        simp [simpleEscape, h]
      rw [List.singleton_append, escape?_cons ⟨hne 'x' (by decide), hne 'u' (by decide)⟩
        fun heq => absurd heq (hne '\r' (by decide)), hmeaning]
      rfl

/-- A joined line end is taken whole, unless a line feed follows that would belong to it. -/
theorem escape?_lineEnd {lineEnd rest : List Char} (h : lineEnd ∈ lineEnds)
    (hrest : rest.head? ≠ some '\n') :
    escape? (lineEnd ++ rest) = some (lineEnd.length, .ok []) := by
  have hsingle (d : Char) (hdigits : d ≠ 'x' ∧ d ≠ 'u') (hmeaning : simpleEscape d = []) :
      escape? (d :: rest) = some (1, .ok []) := by
    rw [escape?_cons hdigits fun _ => hrest, hmeaning]
  simp only [lineEnds, List.mem_cons, List.not_mem_nil, or_false] at h
  rcases h with rfl | rfl | rfl | rfl | rfl
  · exact hsingle '\n' (by decide) rfl
  · exact hsingle '\r' (by decide) rfl
  · rfl
  · exact hsingle '\u2028' (by decide) rfl
  · exact hsingle '\u2029' (by decide) rfl

/-! ## Undoing the escapes -/

theorem unescapeFrom_append (front rest : List Char) :
    unescapeFrom front.length (front ++ rest) = unescapeFrom 0 rest := by
  induction front with
  | nil => rfl
  | cons c front ih => exact ih

/-- An escape that is read gives its meaning, and undoing goes on behind it. -/
theorem unescapeFrom_escape {behind rest meaning : List Char}
    (h : escape? (behind ++ rest) = some (behind.length, .ok meaning)) :
    unescapeFrom 0 ('\\' :: (behind ++ rest)) = (unescapeFrom 0 rest).map (meaning ++ ·) := by
  rw [unescapeFrom, h]
  simp only [beq_self_eq_true, if_true, unescapeFrom_append]
  cases unescapeFrom 0 rest with
  | error fault => rfl
  | ok text => rfl

theorem unescapeFrom_raw {c : Char} (h : c ≠ '\\') (rest : List Char) :
    unescapeFrom 0 (c :: rest) = (unescapeFrom 0 rest).map (c :: ·) := by
  rw [unescapeFrom]
  simp only [beq_iff_eq, h, if_false]
  cases unescapeFrom 0 rest with
  | error fault => rfl
  | ok text => rfl

/-- A written character is read back, whatever follows it. -/
theorem unescapeFrom_writesChar {quote c : Char} {front : List Char} (h : WritesChar quote c front)
    (rest : List Char) : unescapeFrom 0 (front ++ rest) = (unescapeFrom 0 rest).map (c :: ·) := by
  have hescape (behind : List Char) (h : WritesChar quote c ('\\' :: behind)) :
      unescapeFrom 0 ('\\' :: (behind ++ rest)) = (unescapeFrom 0 rest).map (c :: ·) :=
    unescapeFrom_escape (escape?_append h rest)
  cases h with
  | raw hslash _ _ => exact unescapeFrom_raw hslash rest
  | letter h => exact hescape _ (.letter h)
  | twoDigits h hlength => exact hescape _ (.twoDigits h hlength)
  | fourDigits h hlength => exact hescape _ (.fourDigits h hlength)
  | braced h hne => exact hescape _ (.braced h hne)
  | itself h => exact hescape _ (.itself h)

/-- A line feed is not written as it is, so none comes first. -/
theorem Writes.head?_ne {quote : Char} {text body : List Char} (h : Writes quote text body) :
    body.head? ≠ some '\n' := by
  cases h with
  | done => exact nofun
  | join _ _ => simp
  | char hchar _ =>
      cases hchar with
      | raw _ _ hline => simpa using hline
      | letter _ | twoDigits _ _ | fourDigits _ _ | braced _ _ | itself _ => simp

/-- Undoing the escapes of a written text gives the text. -/
theorem Writes.unescapeFrom {quote : Char} {text body : List Char} (h : Writes quote text body) :
    Literal.unescapeFrom 0 body = .ok text := by
  induction h with
  | done => rfl
  | char hchar _ ih =>
      rw [unescapeFrom_writesChar hchar, ih]
      rfl
  | join hline hrest ih =>
      rw [unescapeFrom_escape (escape?_lineEnd hline hrest.head?_ne), ih]
      rfl

/-- A literal for a text: the text is written between two equal quotes. -/
def IsLiteralFor (text literal : String) : Prop :=
  ∃ quote body, (quote = '"' ∨ quote = '\'') ∧ literal.toList = quote :: (body ++ [quote]) ∧
    Writes quote text.toList body

theorem unquoted_of_isLiteralFor {text literal : String} (h : IsLiteralFor text literal) :
    unquoted literal = .ok text := by
  obtain ⟨quote, body, _, hliteral, hbody⟩ := h
  have hinner : inner literal.toList = body := by simp [hliteral, inner]
  rw [unquoted, hinner, hbody.unescapeFrom]
  exact congrArg Except.ok (String.ofList_toList ..)

end EditableMarkup.Literal
