import EditableMarkup.Proofs.Reading.Place
import EditableMarkup.Proofs.Text.Digit

/-!
# Lexemes at the front of a text

A lexeme class opens with characters of some kind only, so it takes nothing
where a text starts with another character.  And it takes exactly a text of
its kind if no character behind the text could go on with it.
-/

namespace EditableMarkup.Grammar

open EditableMarkup.Text

/-- A text is empty or starts with a character that fails a test. -/
abbrev Stops (test : Char → Bool) (text : List Char) : Prop :=
  text.head?.any test = false

theorem Stops.of_imp {test other : Char → Bool} {text : List Char} (stops : Stops test text)
    (h : ∀ c, other c = true → test c = true) : Stops other text := by
  cases text with
  | nil => rfl
  | cons c rest =>
      have hc : test c = false := stops
      cases hother : other c with
      | false => exact hother
      | true =>
          have htest := h c hother
          rw [hc] at htest
          cases htest

namespace Lexeme

theorem forall_isSpace {test : Char → Bool} (h₁ : test ' ' = false) (h₂ : test '\t' = false)
    (h₃ : test '\x0c' = false) (h₄ : test '\r' = false) (h₅ : test '\n' = false) :
    ∀ c, isSpace c = true → test c = false := by
  intro c hc
  simp only [isSpace, Bool.or_eq_true, beq_iff_eq] at hc
  rcases hc with (((rfl | rfl) | rfl) | rfl) | rfl
  · exact h₁
  · exact h₂
  · exact h₃
  · exact h₄
  · exact h₅

/-- A class of lexemes opens with characters of some kind only, and no space is of this kind. -/
structure Opens (taken : Lexeme) (first : Char → Bool) : Prop where
  space : ∀ c, isSpace c = true → first c = false
  eq_none : ∀ text, Stops first text → taken text = none

theorem Opens.solid {taken : Lexeme} {first : Char → Bool} (opens : Opens taken first) :
    taken.Solid := by
  intro c rest hc
  exact opens.eq_none (c :: rest) (opens.space c hc)

theorem Opens.mono {taken : Lexeme} {first other : Char → Bool} (opens : Opens taken first)
    (space : ∀ c, isSpace c = true → other c = false)
    (h : ∀ c, first c = true → other c = true) : Opens taken other where
  space := space
  eq_none text stops := opens.eq_none text (stops.of_imp h)

/-! ## Fixed spellings -/

theorem spelled_eq_some_iff {spelling text : List Char} {length : Nat} :
    spelled spelling text = some length ↔ spelling <+: text ∧ length = spelling.length := by
  induction spelling generalizing text length with
  | nil => simp [spelled, eq_comm]
  | cons c rest ih =>
      cases text with
      | nil => simp [spelled]
      | cons d text =>
          simp only [spelled]
          split
          · next hcd =>
              subst hcd
              simp only [Option.map_eq_some_iff, ih, List.cons_prefix_cons, List.length_cons,
                true_and]
              constructor
              · rintro ⟨count, ⟨hstart, rfl⟩, rfl⟩
                exact ⟨hstart, rfl⟩
              · rintro ⟨hstart, rfl⟩
                exact ⟨_, ⟨hstart, rfl⟩, rfl⟩
          · next hcd => simp [hcd]

theorem spelled_append (spelling rest : List Char) :
    spelled spelling (spelling ++ rest) = some spelling.length :=
  spelled_eq_some_iff.mpr ⟨List.prefix_append .., rfl⟩

theorem spelled_eq_none_iff {spelling text : List Char} :
    spelled spelling text = none ↔ ¬ spelling <+: text := by
  constructor
  · intro hnone hstart
    rw [spelled_eq_some_iff.mpr ⟨hstart, rfl⟩] at hnone
    cases hnone
  · intro hstart
    cases hspelled : spelled spelling text with
    | none => rfl
    | some length => exact absurd (spelled_eq_some_iff.mp hspelled).1 hstart

theorem keyword_eq_none {spelling : String} {text : List Char}
    (h : spelled spelling.toList text = none) : keyword spelling text = none := by
  simp [keyword, h]

/-- A spelling that does not start with a space. -/
abbrev Visible (spelling : String) : Prop :=
  spelling.toList.head?.any (fun c => !isSpace c) = true

theorem solid_sign {spelling : String} (visible : Visible spelling) : (sign spelling).Solid := by
  intro d rest hd
  rw [sign, spelled_eq_none_iff]
  intro hstart
  cases hspelling : spelling.toList with
  | nil => simp [Visible, hspelling] at visible
  | cons c more =>
      rw [hspelling, List.cons_prefix_cons] at hstart
      obtain ⟨rfl, _⟩ := hstart
      simp [Visible, hspelling, hd] at visible

theorem solid_keyword {spelling : String} (visible : Visible spelling) :
    (keyword spelling).Solid :=
  fun d rest hd => keyword_eq_none (solid_sign visible d rest hd)

theorem firstOf_eq_none {classes : List Lexeme} {text : List Char}
    (h : ∀ taken ∈ classes, taken text = none) : firstOf classes text = none :=
  List.findSome?_eq_none_iff.mpr h

theorem keywordOf_eq_none {spellings : List String} {text : List Char}
    (h : ∀ spelling ∈ spellings, keyword spelling text = none) :
    keywordOf spellings text = none := by
  apply firstOf_eq_none
  intro taken htaken
  obtain ⟨spelling, hspelling, rfl⟩ := List.mem_map.mp htaken
  exact h spelling hspelling

theorem keywordOf_eq_some {spellings : List String} {text : List Char} {length : Nat}
    (h : keywordOf spellings text = some length) :
    ∃ spelling ∈ spellings, keyword spelling text = some length := by
  obtain ⟨taken, htaken, hlength⟩ := List.exists_of_findSome?_eq_some h
  obtain ⟨spelling, hspelling, rfl⟩ := List.mem_map.mp htaken
  exact ⟨spelling, hspelling, hlength⟩

theorem keyword_eq_none_of_keywordOf {spellings : List String} {text : List Char}
    (h : keywordOf spellings text = none) {spelling : String} (hspelling : spelling ∈ spellings) :
    keyword spelling text = none := by
  have hall := List.findSome?_eq_none_iff.mp h
  exact hall _ (List.mem_map_of_mem hspelling)

theorem solid_firstOf {classes : List Lexeme} (h : ∀ taken ∈ classes, taken.Solid) :
    (firstOf classes).Solid := by
  intro c rest hc
  apply firstOf_eq_none
  intro taken htaken
  exact h taken htaken c rest hc

theorem solid_keywordOf {spellings : List String} (h : ∀ s ∈ spellings, Visible s) :
    (keywordOf spellings).Solid := by
  apply solid_firstOf
  intro taken htaken
  obtain ⟨spelling, hspelling, rfl⟩ := List.mem_map.mp htaken
  exact solid_keyword (h spelling hspelling)

theorem solid_signOf {spellings : List String} (h : ∀ s ∈ spellings, Visible s) :
    (signOf spellings).Solid := by
  apply solid_firstOf
  intro taken htaken
  obtain ⟨spelling, hspelling, rfl⟩ := List.mem_map.mp htaken
  exact solid_sign (h spelling hspelling)

/-- A spelling whose first character passes a test is not found where a text starts with one that
fails it. -/
theorem sign_eq_none_of_head {spelling : String} {test : Char → Bool} {c : Char}
    {rest : List Char} (h : spelling.toList.head?.any test = true) (hc : test c = false) :
    sign spelling (c :: rest) = none := by
  rw [sign, spelled_eq_none_iff]
  intro hstart
  cases hspelling : spelling.toList with
  | nil => simp [hspelling] at h
  | cons d more =>
      rw [hspelling, List.cons_prefix_cons] at hstart
      obtain ⟨rfl, _⟩ := hstart
      simp [hspelling, hc] at h

theorem keyword_eq_none_of_head {spelling : String} {test : Char → Bool} {c : Char}
    {rest : List Char} (h : spelling.toList.head?.any test = true) (hc : test c = false) :
    keyword spelling (c :: rest) = none :=
  keyword_eq_none (sign_eq_none_of_head h hc)

theorem keywordOf_eq_none_of_head {spellings : List String} {test : Char → Bool} {c : Char}
    {rest : List Char} (h : ∀ s ∈ spellings, s.toList.head?.any test = true) (hc : test c = false) :
    keywordOf spellings (c :: rest) = none :=
  keywordOf_eq_none fun s hs => keyword_eq_none_of_head (h s hs) hc

theorem signOf_eq_none_of_head {spellings : List String} {test : Char → Bool} {c : Char}
    {rest : List Char} (h : ∀ s ∈ spellings, s.toList.head?.any test = true) (hc : test c = false) :
    signOf spellings (c :: rest) = none := by
  apply firstOf_eq_none
  intro taken htaken
  obtain ⟨spelling, hspelling, rfl⟩ := List.mem_map.mp htaken
  exact sign_eq_none_of_head (h spelling hspelling) hc

theorem keyword_append {spelling : String} {rest : List Char} (stops : Stops isWord rest) :
    keyword spelling (spelling.toList ++ rest) = some spelling.toList.length := by
  have hstarts : startsWithWord rest = false := by
    cases rest with
    | nil => rfl
    | cons c rest => exact stops
  simp [keyword, spelled_append, hstarts]

/-- Only a space or a slash opens what may be skipped. -/
theorem skipped_cons_eq_none {c : Char} (hspace : isSpace c = false) (hslash : c ≠ '/')
    (rest : List Char) : skipped (c :: rest) = none := by
  have hspaces : spaces (c :: rest) = none := by simp [spaces, run, hspace]
  have hcomment : comment (c :: rest) = none := by
    unfold comment
    split
    · next heq => exact absurd (List.cons.inj heq).1 hslash
    · next heq => exact absurd (List.cons.inj heq).1 hslash
    · rfl
  simp [skipped, firstOf, hspaces, hcomment]

/-! ## Names -/

theorem run_append_of_stops {test : Char → Bool} {front rest : List Char}
    (h : ∀ c ∈ front, test c = true) (stops : Stops test rest) :
    run test (front ++ rest) = front.length := by
  rw [run_append h]
  cases rest with
  | nil => rfl
  | cons c rest =>
      have hc : test c = false := stops
      simp [run, hc]

theorem takeWhile_append_of_stops {test : Char → Bool} {front rest : List Char}
    (h : ∀ c ∈ front, test c = true) (stops : Stops test rest) :
    (front ++ rest).takeWhile test = front := by
  rw [List.takeWhile_append_of_pos h]
  cases rest with
  | nil => simp
  | cons c rest =>
      have hc : test c = false := stops
      simp [hc]

theorem continuesDigits_of_isDigit {c : Char} (h : Text.isDigit c = true) :
    continuesDigits c = true := by
  simp [continuesDigits, h]

theorem run_le (test : Char → Bool) (text : List Char) : run test text ≤ text.length := by
  induction text with
  | nil => exact Nat.le_refl _
  | cons c rest ih =>
      simp only [run, List.length_cons]
      split
      · omega
      · omega

theorem forall_of_run_eq {test : Char → Bool} {text : List Char}
    (h : run test text = text.length) : ∀ c ∈ text, test c = true := by
  induction text with
  | nil => simp
  | cons c rest ih =>
      simp only [run, List.length_cons] at h
      split at h
      · next hc =>
          intro d hd
          rcases List.mem_cons.mp hd with rfl | hd
          · exact hc
          · exact ih (by omega) d hd
      · omega

/-- A run stops at the first character that fails the test. -/
theorem run_split (test : Char → Bool) (text : List Char) :
    ∃ front rest, text = front ++ rest ∧ front.length = run test text ∧
      (∀ c ∈ front, test c = true) ∧ rest.head?.any test = false := by
  induction text with
  | nil => exact ⟨[], [], rfl, rfl, by simp, rfl⟩
  | cons c text ih =>
      obtain ⟨front, rest, hsplit, hlength, hfront, hrest⟩ := ih
      cases hc : test c with
      | true =>
          refine ⟨c :: front, rest, by rw [hsplit]; rfl, ?_, ?_, hrest⟩
          · simp [run, hc, hlength]
          · intro d hd
            rcases List.mem_cons.mp hd with rfl | hd
            · exact hc
            · exact hfront d hd
      | false => exact ⟨[], c :: text, rfl, by simp [run, hc], by simp, hc⟩

theorem isSpace_startsName : ∀ c, isSpace c = true → startsName c = false :=
  forall_isSpace rfl rfl rfl rfl rfl

theorem opens_anyName : Opens anyName startsName where
  space := isSpace_startsName
  eq_none text stops := by
    cases text with
    | nil => rfl
    | cons c rest =>
        have hc : startsName c = false := stops
        simp [anyName, hc]

theorem exists_startsName {text : List Char} {length : Nat} (h : anyName text = some length) :
    ∃ c rest, text = c :: rest ∧ startsName c = true := by
  cases text with
  | nil => cases h
  | cons c rest =>
      refine ⟨c, rest, rfl, ?_⟩
      cases hc : startsName c with
      | true => rfl
      | false => simp [anyName, hc] at h

theorem opens_name : Opens name startsName where
  space := isSpace_startsName
  eq_none text stops := by
    unfold name
    split
    · rfl
    · exact opens_anyName.eq_none text stops

theorem opens_markupName : Opens markupName startsName where
  space := isSpace_startsName
  eq_none text stops := by
    simp [markupName, opens_anyName.eq_none text stops]

theorem run_append_eq {test : Char → Bool} (front : List Char) {rest : List Char}
    (stops : Stops test rest) : run test (front ++ rest) = run test front := by
  induction front with
  | nil =>
      have hrun := @run_append_of_stops test [] rest (by simp) stops
      simpa [run] using hrun
  | cons c front ih =>
      simp only [List.cons_append, run, ih]

/-- A class of lexemes takes a whole text, whatever follows it, unless the first character behind the
text goes on with the lexeme. -/
def TakesWhole (taken : Lexeme) (goesOn : Char → Bool) : Prop :=
  ∀ front rest, taken front = some front.length → Stops goesOn rest →
    taken (front ++ rest) = some front.length

theorem toNat_lt_of_isLatin {c : Char} (h : isLatin c = true) : c.toNat < 0x80 := by
  simp only [isLatin, Bool.or_eq_true, Bool.and_eq_true, decide_eq_true_eq, Char.le_def,
    UInt32.le_iff_toNat_le] at h
  change c.val.toNat < 0x80
  rcases h with ⟨_, hle⟩ | ⟨_, hle⟩
  · exact Nat.lt_of_le_of_lt hle (by decide)
  · exact Nat.lt_of_le_of_lt hle (by decide)

theorem toNat_lt_of_startsName {c : Char} (h : startsName c = true) : c.toNat < 0x80 := by
  simp only [startsName, Bool.or_eq_true, beq_iff_eq] at h
  rcases h with (hlatin | rfl) | rfl
  · exact toNat_lt_of_isLatin hlatin
  · decide
  · decide

/-- What holds of the first 128 characters that start a name holds of all that do. -/
theorem forall_startsName {property : Char → Prop}
    (h : ∀ n : Fin 0x80, startsName (Char.ofNat n) = true → property (Char.ofNat n)) {c : Char}
    (hc : startsName c = true) : property c :=
  @holds_of_toNat_lt (fun c => startsName c = true → property c) h c (toNat_lt_of_startsName hc) hc

theorem continuesName_of_startsName {c : Char} (h : startsName c = true) :
    continuesName c = true :=
  @forall_startsName (fun c => continuesName c = true) (by decide) c h

theorem anyName_append_eq (front : List Char) {rest : List Char}
    (stops : Stops continuesName rest) : anyName (front ++ rest) = anyName front := by
  cases front with
  | nil =>
      exact opens_anyName.eq_none rest (stops.of_imp fun _ => continuesName_of_startsName)
  | cons c front => simp only [List.cons_append, anyName, run_append_eq front stops]

theorem takesWhole_anyName : TakesWhole anyName continuesName := by
  intro front rest h stops
  rw [anyName_append_eq front stops, h]

/-- A spelling in front of which a text stops lies within the text. -/
theorem prefix_of_stops {test : Char → Bool} {spelling front rest : List Char}
    (hstart : spelling <+: front ++ rest) (hspelling : ∀ c ∈ spelling, test c = true)
    (stops : Stops test rest) : spelling <+: front := by
  rcases List.prefix_or_prefix_of_prefix hstart (List.prefix_append front rest) with hshort | hlong
  · exact hshort
  · obtain ⟨more, rfl⟩ := hlong
    rw [List.prefix_append_right_inj] at hstart
    cases more with
    | nil => simp
    | cons c more =>
        obtain ⟨behind, rfl⟩ := hstart
        have hc : test c = false := stops
        have hc' := hspelling c (by simp)
        rw [hc] at hc'
        cases hc'

theorem keyword_append_eq_none {spelling : String} {front rest : List Char}
    (h : keyword spelling front = none) (hword : ∀ c ∈ spelling.toList, continuesName c = true)
    (stops : Stops continuesName rest) : keyword spelling (front ++ rest) = none := by
  cases hspelled : spelled spelling.toList (front ++ rest) with
  | none => simp [keyword, hspelled]
  | some length =>
      obtain ⟨hstart, rfl⟩ := spelled_eq_some_iff.mp hspelled
      obtain ⟨behind, rfl⟩ := prefix_of_stops hstart hword stops
      have hstarts : startsWithWord behind = true := by
        cases hbehind : startsWithWord behind with
        | true => rfl
        | false => simp [keyword, spelled_append, hbehind] at h
      have hstarts' : startsWithWord (behind ++ rest) = true := by
        cases behind with
        | nil => cases hstarts
        | cons c behind => exact hstarts
      simp [keyword, spelled_append, List.append_assoc, hstarts']

theorem keyword_eq_some {spelling : String} {text : List Char} {length : Nat}
    (h : keyword spelling text = some length) :
    spelling.toList <+: text ∧ length = spelling.toList.length ∧
      startsWithWord (text.drop length) = false := by
  cases hspelled : spelled spelling.toList text with
  | none => simp [keyword, hspelled] at h
  | some taken =>
      obtain ⟨hstart, rfl⟩ := spelled_eq_some_iff.mp hspelled
      cases hstarts : startsWithWord (text.drop spelling.toList.length) with
      | true => simp [keyword, hspelled, hstarts] at h
      | false =>
          simp only [keyword, hspelled, bind, Option.bind, hstarts, Bool.false_eq_true, if_false,
            Option.some.injEq] at h
          subst h
          exact ⟨hstart, rfl, hstarts⟩

/-- No keyword stands in front of a character that is not of a word. -/
theorem keyword_eq_none_of_not_word {spelling : String} {text : List Char}
    (hspelling : spelling.toList.head?.any isWord = true) (h : startsWithWord text = false) :
    keyword spelling text = none := by
  cases text with
  | nil =>
      apply keyword_eq_none
      rw [spelled_eq_none_iff, List.prefix_nil]
      intro hnil
      rw [hnil] at hspelling
      cases hspelling
  | cons c rest => exact keyword_eq_none_of_head hspelling h

theorem reservedWords_continue :
    ∀ spelling ∈ reservedWords, ∀ c ∈ spelling.toList, continuesName c = true := by
  have hall : (reservedWords.all fun spelling => spelling.toList.all continuesName) = true := by
    decide
  simpa only [List.all_eq_true] using hall

theorem name_eq_some_iff {text : List Char} {length : Nat} :
    name text = some length ↔ keywordOf reservedWords text = none ∧ anyName text = some length := by
  unfold name
  split
  · next hreserved => simp [hreserved]
  · next hnone => simp [hnone]

theorem name_eq_none_of_keyword {spelling : String} (h : spelling ∈ reservedWords) {text : List Char}
    {length : Nat} (hkeyword : keyword spelling text = some length) : name text = none := by
  cases hname : name text with
  | none => rfl
  | some taken =>
      have hnone := keyword_eq_none_of_keywordOf (name_eq_some_iff.mp hname).1 h
      rw [hkeyword] at hnone
      cases hnone

theorem takesWhole_name : TakesWhole name continuesName := by
  intro front rest h stops
  obtain ⟨hreserved, hany⟩ := name_eq_some_iff.mp h
  refine name_eq_some_iff.mpr ⟨?_, takesWhole_anyName front rest hany stops⟩
  apply keywordOf_eq_none
  intro spelling hspelling
  have hfront := keyword_eq_none_of_keywordOf hreserved hspelling
  exact keyword_append_eq_none hfront (reservedWords_continue spelling hspelling) stops

/-- What goes on with a name in markup. -/
def continuesMarkupName (c : Char) : Bool :=
  continuesName c || c == '-'

theorem hyphenated_eq_zero (fuel : Nat) {text : List Char} (stops : Stops (· == '-') text) :
    hyphenated fuel text = 0 := by
  cases fuel with
  | zero => rfl
  | succ fuel =>
      cases text with
      | nil => rfl
      | cons c rest =>
          have hc : (c == '-') = false := stops
          unfold hyphenated
          split
          · next heq =>
              obtain ⟨rfl, _⟩ := List.cons.inj heq
              cases hc
          · rfl

theorem hyphenated_append {fuel : Nat} {front rest : List Char}
    (h : hyphenated fuel front = front.length) (stops : Stops continuesMarkupName rest)
    (fuel' : Nat) (hfuel : front.length ≤ fuel') :
    hyphenated fuel' (front ++ rest) = front.length := by
  have hhyphen : Stops (· == '-') rest := stops.of_imp fun c hc => by simp [continuesMarkupName, hc]
  have hname : Stops continuesName rest :=
    stops.of_imp fun c hc => by simp [continuesMarkupName, hc]
  induction fuel generalizing front fuel' with
  | zero =>
      have hnil : front = [] := List.eq_nil_of_length_eq_zero h.symm
      subst hnil
      exact hyphenated_eq_zero fuel' hhyphen
  | succ fuel ih =>
      cases front with
      | nil => exact hyphenated_eq_zero fuel' hhyphen
      | cons c front =>
          cases fuel' with
          | zero => simp at hfuel
          | succ fuel' =>
              unfold hyphenated at h
              split at h
              · next behind heq =>
                  obtain ⟨rfl, rfl⟩ := List.cons.inj heq
                  cases hrun : run continuesName front with
                  | zero => simp [hrun] at h
                  | succ length =>
                      have hle := run_le continuesName front
                      simp only [hrun, List.length_cons] at h hle hfuel
                      have hdrop : hyphenated fuel (front.drop (length + 1)) =
                          (front.drop (length + 1)).length := by
                        rw [List.length_drop]
                        omega
                      have hrest := ih hdrop fuel' (by rw [List.length_drop]; omega)
                      rw [List.length_drop] at hrest
                      simp only [List.cons_append, hyphenated, run_append_eq front hname, hrun,
                        List.drop_append_of_le_length hle, hrest, List.length_cons]
                      omega
              · simp at h

theorem anyName_of_markupName {text : List Char} {length : Nat} (h : markupName text = some length) :
    ∃ count, anyName text = some count := by
  cases hany : anyName text with
  | none => simp [markupName, hany] at h
  | some count => exact ⟨count, rfl⟩

theorem takesWhole_markupName : TakesWhole markupName continuesMarkupName := by
  intro front rest h stops
  have hname : Stops continuesName rest :=
    stops.of_imp fun c hc => by simp [continuesMarkupName, hc]
  cases hany : anyName front with
  | none => simp [markupName, hany] at h
  | some length =>
      have hle : length ≤ front.length := by
        cases front with
        | nil => cases hany
        | cons c front =>
            have hrun := run_le continuesName front
            simp only [anyName] at hany
            split at hany
            · cases hany
              simpa using hrun
            · cases hany
      simp only [markupName, hany, bind, Option.bind, Option.some.injEq] at h
      have hdrop : hyphenated front.length (front.drop length) = (front.drop length).length := by
        rw [List.length_drop]
        omega
      have hrest := hyphenated_append hdrop stops (front ++ rest).length
        (by rw [List.length_drop, List.length_append]; omega)
      rw [List.length_drop] at hrest
      simp only [markupName, anyName_append_eq front hname, hany, bind, Option.bind,
        List.drop_append_of_le_length hle, hrest, Option.some.injEq]
      omega

theorem continuesMarkupName_of_hyphenated {fuel : Nat} {text : List Char}
    (h : hyphenated fuel text = text.length) : ∀ c ∈ text, continuesMarkupName c = true := by
  induction fuel generalizing text with
  | zero =>
      have hnil : text = [] := List.eq_nil_of_length_eq_zero h.symm
      simp [hnil]
  | succ fuel ih =>
      cases text with
      | nil => simp
      | cons c text =>
          unfold hyphenated at h
          split at h
          · next behind heq =>
              obtain ⟨rfl, rfl⟩ := List.cons.inj heq
              obtain ⟨part, rest, rfl, hlength, hpart, _⟩ := run_split continuesName text
              rw [← hlength] at h
              cases part with
              | nil => simp at h
              | cons d part =>
                  simp only [List.length_cons, List.length_append,
                    show (d :: part ++ rest).drop (part.length + 1) = rest by simp] at h
                  intro e he
                  rcases List.mem_cons.mp he with rfl | he
                  · rfl
                  · rcases List.mem_append.mp he with he | he
                    · simp [continuesMarkupName, hpart e he]
                    · exact ih (by omega) e he
          · simp at h

/-- A name in markup consists of the characters that go on with one. -/
theorem continuesMarkupName_of_markupName {text : List Char}
    (h : markupName text = some text.length) : ∀ c ∈ text, continuesMarkupName c = true := by
  obtain ⟨count, hcount⟩ := anyName_of_markupName h
  obtain ⟨c, more, rfl, hc⟩ := exists_startsName hcount
  obtain ⟨part, rest, rfl, hlength, hpart, _⟩ := run_split continuesName more
  simp only [markupName, anyName, hc, if_true, ← hlength, bind, Option.bind, Option.some.injEq,
    List.drop_succ_cons, List.drop_left, List.length_cons, List.length_append] at h
  have hrest : hyphenated (part.length + rest.length + 1) rest = rest.length := by omega
  intro d hd
  rcases List.mem_cons.mp hd with rfl | hd
  · simp [continuesMarkupName, continuesName_of_startsName hc]
  · rcases List.mem_append.mp hd with hd | hd
    · simp [continuesMarkupName, hpart d hd]
    · exact continuesMarkupName_of_hyphenated hrest d hd

/-! ## Quoted literals -/

theorem opens_string : Opens string fun c => c == '"' || c == '\'' where
  space := forall_isSpace rfl rfl rfl rfl rfl
  eq_none text stops := by
    unfold string
    split
    · cases stops
    · cases stops
    · rfl

theorem opens_template : Opens template (· == '\x60') where
  space := forall_isSpace rfl rfl rfl rfl rfl
  eq_none text stops := by
    unfold template
    split
    · cases stops
    · rfl

theorem opens_markupString : Opens markupString fun c => c == '"' || c == '\'' where
  space := forall_isSpace rfl rfl rfl rfl rfl
  eq_none text stops := by
    unfold markupString
    split
    · cases stops
    · cases stops
    · rfl

theorem rawRest_append {quote : Char} {text : List Char} (h : quote ∉ text) (rest : List Char) :
    rawRest quote (text ++ quote :: rest) = some (text.length + 1) := by
  induction text with
  | nil => simp [rawRest]
  | cons c text ih =>
      have hc : c ≠ quote := by
        rintro rfl
        exact h (List.mem_cons_self ..)
      have htext : quote ∉ text := fun hmem => h (List.mem_cons_of_mem _ hmem)
      simp [rawRest, hc, ih htext]

/-! ## Markup text -/

theorem opens_markupText : Opens markupText fun c => !endsText c && !isBlank c where
  space := forall_isSpace rfl rfl rfl rfl rfl
  eq_none text stops := by
    cases text with
    | nil => rfl
    | cons c rest =>
        have hc : (!endsText c && !isBlank c) = false := stops
        have hends : endsText c = true ∨ isBlank c = true := by
          cases hends : endsText c with
          | true => exact Or.inl rfl
          | false => simpa [hends] using hc
        simp [markupText, hends]

/-- A text in markup takes in all characters up to a brace or an angle bracket. -/
theorem markupText_append {c : Char} {front rest : List Char} (hc : isBlank c = false)
    (h : ∀ d ∈ c :: front, endsText d = false) (stops : Stops (fun d => !endsText d) rest) :
    markupText (c :: front ++ rest) = some (c :: front).length := by
  have hhead : endsText c = false := h c (List.mem_cons_self ..)
  have hrun : run (fun d => !endsText d) (front ++ rest) = front.length := by
    refine run_append_of_stops (fun d hd => ?_) stops
    simp [h d (List.mem_cons_of_mem _ hd)]
  simp [markupText, hhead, hc, hrun]

end Lexeme

end EditableMarkup.Grammar
