import EditableMarkup.Proofs.Reading.Tags
import EditableMarkup.Proofs.Source.Mappings
import EditableMarkup.Proofs.Tree.Alike

/-!
# Reading attributes

A printed attribute is read as one attribute.  A reading of its bare name stops
at the equals sign, where a tag cannot go on.
-/

namespace EditableMarkup.Source

open EditableMarkup.Grammar EditableMarkup.Grammar.Reader EditableMarkup.Grammar.Place
open EditableMarkup.Grammar.Rule

variable {free : Prop}

/-! ## Expressions in braces -/

/-- A printed value in front of a brace is an expression; to leave it out leads nowhere. -/
theorem offers_optional {value : Value} (hlegible : value.Legible free) (rest : List Char) :
    Offers free (optional Reader.expression) (of (value.print.toList ++ '\x7d' :: rest))
      value.print.toList.length (fun found => ∃ form, found = some form ∧ Means form value.reread)
      (Fails (Reader.sign "\x7d")) := by
  obtain ⟨hopening, hoffers⟩ := spelled_of_legible value hlegible
  have hfaces : (of (value.print.toList ++ '\x7d' :: rest)).Faces 0
      (value.print.toList ++ '\x7d' :: rest) := .of_firm (hopening.firm _)
  have hend : (of (value.print.toList ++ '\x7d' :: rest)).advance value.print.toList.length =
      of ('\x7d' :: rest) := by
    rw [advance_of, List.drop_left]
  have hvalue := hoffers [] ('\x7d' :: rest) (by simp) rfl (List.cons_ne_nil _ _)
  rw [List.nil_append] at hvalue
  have hexpression := (offers_expression hopening.ne_nil rfl hvalue).deader
    (fun place unclosed => unclosed "\x7d" (by simp)) (by rw [hend]; exact bracket_brace.not_fails rest)
  have hsome : Offers free (some <$> Reader.expression) (of (value.print.toList ++ '\x7d' :: rest))
      value.print.toList.length (fun found => ∃ form, found = some form ∧ Means form value.reread)
      (Fails (Reader.sign "\x7d")) := hexpression.map fun form hform => ⟨form, rfl, hform⟩
  refine hsome.oneOf (List.mem_cons_self ..) ?_
  intro other hother
  simp only [List.mem_cons, List.not_mem_nil, or_false] at hother
  rcases hother with rfl | rfl
  · exact Or.inl rfl
  · refine Or.inr fun reading hreading => ?_
    rw [reads_nothing.mp hreading, advance_zero]
    exact starts_sign rfl _ _ _ hfaces ((hopening.barred _).mono (by simp))

/-- A printed value in braces is one expression in braces. -/
theorem settles_braces {α : Type} {value : Value} (hlegible : value.Legible free)
    {make : Option Form → α} {kind : α → Prop}
    (hkind : ∀ form, Means form value.reread → kind (make (some form))) {place : Place} {lead : Nat}
    {rest : List Char} (faces : place.Faces lead ('\x7b' :: (value.print.toList ++ '\x7d' :: rest))) :
    Settles free
      (do
        Reader.sign "\x7b"
        let found ← optional Reader.expression
        Reader.sign "\x7d"
        return make found)
      place (lead + 1 + (value.print.toList.length + (0 + 1))) kind := by
  refine (settles_sign faces rfl rfl).andThen fun _ _ => ?_
  rw [faces.advance (by omega)]
  refine (offers_optional hlegible rest).bind (fun _ _ hfails => fails_bind hfails) ?_
  rintro found ⟨form, rfl, hform⟩
  have hbrace : ((of (value.print.toList ++ '\x7d' :: rest)).advance
      value.print.toList.length).Faces 0 ('\x7d' :: rest) := by
    rw [advance_of, List.drop_left]
    exact .of_firm rfl
  exact (settles_sign hbrace rfl rfl).returning fun _ _ => hkind form hform

/-! ## Settings -/

/-- What an attribute is set to stands for a value and obeys the rules on markup. -/
def SettingMeans (setting : Setting Form) (value : Value) : Prop :=
  settingOf setting = .ok value ∧ ∀ name, ∀ occurrence ∈
    occurrencesInAttributes [.named name setting], ∀ source, violation? source occurrence = none

/-- What stands behind the equals sign of an attribute. -/
def settingChars : Value → List Char
  | .string text => (printString text).toList
  | value => '\x7b' :: (value.print.toList ++ ['\x7d'])

theorem settingMeans_quoted {quote : Char} {text : String} {rest : List Char} :
    SettingMeans (.quoted ⟨quote :: (text.toList ++ quote :: rest), text.toList.length + 2⟩)
      (.string text) := by
  refine ⟨?_, fun name occurrence hoccurrence => nomatch hoccurrence⟩
  have hchars : (Slice.mk (quote :: (text.toList ++ quote :: rest)) (text.toList.length + 2)).chars =
      quote :: (text.toList ++ [quote]) := by
    have hsplit : quote :: (text.toList ++ quote :: rest) =
        (quote :: (text.toList ++ [quote])) ++ rest := by simp
    have hlength : text.toList.length + 2 = (quote :: (text.toList ++ [quote])).length := by simp
    rw [Slice.chars, hsplit, hlength, List.take_left]
  have hinner : withoutQuotes (quote :: (text.toList ++ [quote])) = text := by simp [withoutQuotes]
  rw [settingOf, hchars, hinner]
  rfl

theorem settingMeans_braces {form : Form} {value : Value} (h : Means form value) :
    SettingMeans (.braces form) value := by
  refine ⟨h.value_eq, fun name occurrence hoccurrence => ?_⟩
  simp only [occurrencesInAttributes, List.append_nil] at hoccurrence
  exact h.tidy occurrence hoccurrence

/-- A string between quotes that it does not hold is one setting. -/
theorem settles_setting_quoted {quote : Char} {text : String} {rest : List Char}
    (hquote : quote = '"' ∨ quote = '\'') (hfree : quote ∉ text.toList) :
    Settles free setting (of (quote :: (text.toList ++ [quote]) ++ rest))
      (quote :: (text.toList ++ [quote])).length (SettingMeans · (.string text)) := by
  have hsplit : quote :: (text.toList ++ [quote]) ++ rest =
      quote :: (text.toList ++ quote :: rest) := by simp
  have hlength : (quote :: (text.toList ++ [quote])).length = text.toList.length + 2 := by simp
  rw [hsplit, hlength]
  have hfaces : (of (quote :: (text.toList ++ quote :: rest))).Faces 0
      (quote :: (text.toList ++ quote :: rest)) := by
    rcases hquote with rfl | rfl
    · exact .of_firm rfl
    · exact .of_firm rfl
  have htaken : Lexeme.markupString (quote :: (text.toList ++ quote :: rest)) =
      some (text.toList.length + 2) := by
    have hrest := Lexeme.rawRest_append hfree rest
    rcases hquote with rfl | rfl
    · simp [Lexeme.markupString, hrest]
    · simp [Lexeme.markupString, hrest]
  have hform : Settles free (Setting.quoted <$> lexeme Lexeme.markupString)
      (of (quote :: (text.toList ++ quote :: rest))) (text.toList.length + 2)
      (SettingMeans · (.string text)) := by
    rw [← Nat.zero_add (text.toList.length + 2)]
    refine (settles_lexeme hfaces Lexeme.opens_markupString.solid htaken).map ?_
    rintro slice rfl
    exact settingMeans_quoted
  refine hform.choose (List.mem_cons_self ..) ?_
  intro other hother
  simp only [List.mem_cons, List.not_mem_nil, or_false] at hother
  rcases hother with rfl | rfl | rfl
  · exact Or.inl rfl
  · refine Or.inr ((starts_sign rfl).bind.sliced _ _ _ hfaces (barred_singleton.mpr ?_))
    rcases hquote with rfl | rfl
    · rfl
    · rfl
  · refine Or.inr (fails_map (fails_map (fails_tagged hfaces ?_)))
    rcases hquote with rfl | rfl
    · rfl
    · rfl

/-- A printed value in braces is one setting. -/
theorem settles_setting_braces {value : Value} (hlegible : value.Legible free) (rest : List Char) :
    Settles free setting (of ('\x7b' :: (value.print.toList ++ ['\x7d']) ++ rest))
      ('\x7b' :: (value.print.toList ++ ['\x7d'])).length (SettingMeans · value.reread) := by
  have hsplit : '\x7b' :: (value.print.toList ++ ['\x7d']) ++ rest =
      '\x7b' :: (value.print.toList ++ '\x7d' :: rest) := by simp
  have hfaces : (of ('\x7b' :: (value.print.toList ++ '\x7d' :: rest))).Faces 0
      ('\x7b' :: (value.print.toList ++ '\x7d' :: rest)) := .of_firm rfl
  have hlength : ('\x7b' :: (value.print.toList ++ ['\x7d'])).length =
      0 + 1 + (value.print.toList.length + (0 + 1)) := by
    simp only [List.length_cons, List.length_append, List.length_nil]
    omega
  rw [hsplit, hlength]
  refine Offers.choose ?_ (List.mem_cons_of_mem _ (List.mem_cons_self ..)) fun other hother => ?_
  · exact Offers.slicedAny
      (settles_braces hlegible (fun form hform slice => settingMeans_braces hform) hfaces)
  · simp only [List.mem_cons, List.not_mem_nil, or_false] at hother
    rcases hother with rfl | rfl | rfl
    · exact Or.inr ((starts_lexeme Lexeme.opens_markupString.solid).map _ _ _ hfaces
        (barred_singleton.mpr rfl))
    · exact Or.inl rfl
    · exact Or.inr (fails_map (fails_map (fails_tagged hfaces rfl)))

/-- What a printed attribute is set to is one setting. -/
theorem settles_setting {value : Value} (hlegible : value.Legible free) (rest : List Char) :
    Settles free setting (of (settingChars value ++ rest)) (settingChars value).length
      (SettingMeans · value.reread) := by
  have hbraces := settles_setting_braces hlegible rest
  cases value with
  | number number => exact hbraces
  | boolean value => exact hbraces
  | mapping entries => exact hbraces
  | expression source => exact hbraces
  | string text =>
      rw [settingChars, printString]
      split
      · next hdouble =>
          have hfree : '"' ∉ text.toList := by simpa using hdouble
          have hchars : ("\"" ++ text ++ "\"").toList = '"' :: (text.toList ++ ['"']) := by simp
          rw [hchars]
          exact settles_setting_quoted (Or.inl rfl) hfree
      · split
        · next hsingle =>
            have hfree : '\'' ∉ text.toList := by simpa using hsingle
            have hchars : ("'" ++ text ++ "'").toList = '\'' :: (text.toList ++ ['\'']) := by simp
            rw [hchars]
            exact settles_setting_quoted (Or.inr rfl) hfree
        · have hchars : (braced (Literal.quoted text)).toList =
              '\x7b' :: ((Value.string text).print.toList ++ ['\x7d']) := by
            simp [braced, Value.print]
          rw [hchars]
          exact hbraces

/-! ## One attribute -/

/-- An attribute sets a key to a value and obeys the rules on markup. -/
structure AttributeMeans (form : Attribute Form) (entry : String × Value) : Prop where
  collected : ∀ before rest, attributesOf before (form :: rest) =
    attributesOf (before.set entry.1 entry.2) rest
  tidy : ∀ occurrence ∈ occurrencesInAttributes [form], ∀ source,
    violation? source occurrence = none

theorem attributeMeans_bare {name : Slice} {key : String} (h : name.text = key) :
    AttributeMeans (.bare name) (key, .boolean true) where
  collected before rest := by rw [attributesOf, h]
  tidy occurrence hoccurrence := nomatch hoccurrence

theorem attributeMeans_named {name : Slice} {key : String} {setting : Setting Form} {value : Value}
    (h : name.text = key) (hsetting : SettingMeans setting value) :
    AttributeMeans (.named name setting) (key, value) where
  collected before rest := by
    rw [attributesOf, hsetting.1, h]
    rfl
  tidy := hsetting.2 name

/-- What stands behind the key of an attribute. -/
def suffixChars : Value → List Char
  | .boolean true => []
  | value => '=' :: settingChars value

/-- An attribute as it is printed. -/
def attributeChars (entry : String × Value) : List Char :=
  ' ' :: (entry.1.toList ++ suffixChars entry.2)

theorem toList_printAttribute {key : String} {value : Value} (h : value.isOff = false) :
    (printAttribute key value).toList = key.toList ++ suffixChars value := by
  cases value with
  | string text => simp [printAttribute, suffixChars, settingChars]
  | number number => simp [printAttribute, suffixChars, settingChars, braced]
  | mapping entries => simp [printAttribute, suffixChars, settingChars, braced]
  | expression source => simp [printAttribute, suffixChars, settingChars, braced]
  | boolean value =>
      cases value with
      | true => simp [printAttribute, suffixChars]
      | false => cases h

theorem toList_printAttributes {attributes : Entries Value}
    (h : ∀ entry ∈ attributes, IsMarkupName entry.1) :
    (printAttributes attributes).toList = (Entries.kept attributes).flatMap attributeChars := by
  induction attributes with
  | nil => rfl
  | cons entry attributes ih =>
      have hrest := ih fun other hother => h other (List.mem_cons_of_mem _ hother)
      obtain ⟨key, value⟩ := entry
      have hkey : IsMarkupName key := h (key, value) (List.mem_cons_self ..)
      cases hoff : value.isOff with
      | true =>
          have hpart : (printAttribute key value).isEmpty = true := by
            cases value with
            | boolean value =>
                cases value with
                | false => rfl
                | true => cases hoff
            | _ => cases hoff
          have hkept : Entries.kept ((key, value) :: attributes) = Entries.kept attributes := by
            simp [Entries.kept, hoff]
          rw [hkept, ← hrest]
          simp [printAttributes, hpart]
      | false =>
          have htext := @toList_printAttribute key value hoff
          have hpart : (printAttribute key value).isEmpty = false := by
            obtain ⟨c, more, hword, _⟩ := startsName_of_markupName hkey
            refine Bool.eq_false_iff.mpr fun hempty => ?_
            rw [String.isEmpty_iff.mp hempty, hword] at htext
            cases htext
          have hkept : Entries.kept ((key, value) :: attributes) =
              (key, value) :: Entries.kept attributes := by
            simp [Entries.kept, hoff]
          rw [hkept, List.flatMap_cons, ← hrest]
          simp [printAttributes, hpart, htext, attributeChars]

section Attribute

variable {key : String} {value : Value} {rest : List Char}

/-- What may stand behind the key of an attribute. -/
def settingPart (word : Slice) : Reader (Attribute Form) :=
  oneOf
    [nothing (.bare word),
      do
        Reader.sign "="
        return .named word (← setting)]

theorem settles_settingPart_bare {word : Slice} (tagRest : TagRest rest) :
    Settles free (settingPart word) (of rest) 0 (· = .bare word) := by
  have hnothing : Settles free (nothing (Attribute.bare word)) (of rest) 0
      (· = (.bare word : Attribute Form)) := .pure rfl
  refine hnothing.choose (List.mem_cons_self ..) ?_
  intro other hother
  simp only [List.mem_cons, List.not_mem_nil, or_false] at hother
  rcases hother with rfl | rfl
  · exact Or.inl rfl
  · exact Or.inr (tagRest.fails_of_starts (starts_sign rfl).bind (by simp))

theorem offers_settingPart_named {word : Slice} (hword : word.text = key)
    (hlegible : value.Legible free) (tagRest : TagRest rest) :
    Offers free (settingPart word) (of ('=' :: settingChars value ++ rest))
      ('=' :: settingChars value).length (AttributeMeans · (key, value.reread)) Equalled := by
  have hfaces : (of ('=' :: settingChars value ++ rest)).Faces 0
      ('=' :: settingChars value ++ rest) := .of_firm rfl
  have hlength : ('=' :: settingChars value).length = 0 + 1 + (settingChars value).length := by
    rw [List.length_cons]
    omega
  have hnamed : Settles free
      (do
        Reader.sign "="
        return .named word (← setting))
      (of ('=' :: settingChars value ++ rest)) ('=' :: settingChars value).length
      (AttributeMeans · (key, value.reread)) := by
    rw [hlength]
    refine (settles_sign hfaces rfl rfl).andThen fun _ _ => ?_
    rw [hfaces.advance (by decide)]
    exact (settles_setting hlegible rest).returning fun _ hsetting =>
      attributeMeans_named hword hsetting
  have hend : (of ('=' :: settingChars value ++ rest)).advance ('=' :: settingChars value).length =
      of rest := by
    rw [advance_of, List.drop_left]
  have hoffers := hnamed.weaken (by rw [hend]; exact tagRest.not_equalled)
  refine hoffers.oneOf (by simp) ?_
  intro other hother
  simp only [List.mem_cons, List.not_mem_nil, or_false] at hother
  rcases hother with rfl | rfl
  · refine Or.inr fun reading hreading => ?_
    rw [reads_nothing.mp hreading, advance_zero]
    exact ⟨_, shows_of _⟩
  · exact Or.inl rfl

theorem offers_settingPart {word : Slice} (hword : word.text = key) (hlegible : value.Legible free)
    (hoff : value.isOff = false) (tagRest : TagRest rest) :
    Offers free (settingPart word) (of (suffixChars value ++ rest)) (suffixChars value).length
      (AttributeMeans · (key, value.reread)) Equalled := by
  have hnamed := offers_settingPart_named hword hlegible tagRest
  cases value with
  | string text => exact hnamed
  | number number => exact hnamed
  | mapping entries => exact hnamed
  | expression source => exact hnamed
  | boolean value =>
      cases value with
      | false => cases hoff
      | true =>
          refine ((settles_settingPart_bare tagRest).imp ?_).weaken tagRest.not_equalled
          rintro form rfl
          exact attributeMeans_bare hword

/-- Behind the key of an attribute stands its setting, or what follows the attribute. -/
theorem suffix_cases (value : Value) (rest : List Char) :
    suffixChars value ++ rest = rest ∨ ∃ more, suffixChars value ++ rest = '=' :: more := by
  unfold suffixChars
  split
  · exact Or.inl rfl
  · exact Or.inr ⟨_, rfl⟩

theorem stops_suffix (tagRest : TagRest rest) (value : Value) :
    Stops Lexeme.continuesMarkupName (suffixChars value ++ rest) := by
  rcases suffix_cases value rest with heq | ⟨more, heq⟩
  · rw [heq]
    exact tagRest.stops
  · rw [heq]
    rfl

theorem fails_colon_suffix (tagRest : TagRest rest) (value : Value) :
    Fails (Reader.sign ":") (of (suffixChars value ++ rest)) := by
  rcases suffix_cases value rest with heq | ⟨more, heq⟩
  · rw [heq]
    exact tagRest.fails_of_starts (starts_sign rfl) (by simp)
  · rw [heq]
    exact starts_sign rfl _ _ _ (.of_firm rfl) (barred_singleton.mpr rfl)

/-- A key behind a space. -/
theorem faces_key (hkey : IsMarkupName key) (rest : List Char) :
    (of (' ' :: (key.toList ++ rest))).Faces 1 (key.toList ++ rest) := by
  obtain ⟨c, more, hword, hc⟩ := startsName_of_markupName hkey
  have hfaces : (of ([' '] ++ (c :: (more ++ rest)))).Faces 1 (c :: (more ++ rest)) :=
    .of_spaces (by simp [Lexeme.isSpace]) (skipped_of_startsName hc _)
  rw [hword]
  exact hfaces

/-- A printed attribute is read as one attribute, or it stops in front of the equals sign. -/
theorem offers_elementAttribute (hkey : IsMarkupName key) (hlegible : value.Legible free)
    (hoff : value.isOff = false) (tagRest : TagRest rest) :
    Offers free elementAttribute (of (attributeChars (key, value) ++ rest))
      (attributeChars (key, value)).length (AttributeMeans · (key, value.reread)) Equalled := by
  have hsplit : attributeChars (key, value) ++ rest =
      ' ' :: (key.toList ++ (suffixChars value ++ rest)) := by simp [attributeChars]
  have hlength : (attributeChars (key, value)).length =
      1 + key.toList.length + (suffixChars value).length := by
    simp only [attributeChars, List.length_cons, List.length_append]
    omega
  have hfaces := faces_key hkey (suffixChars value ++ rest)
  rw [hsplit, hlength]
  have hstops := stops_suffix tagRest value
  have hend : (of (' ' :: (key.toList ++ (suffixChars value ++ rest)))).advance
      (1 + key.toList.length) = of (suffixChars value ++ rest) := by
    rw [hfaces.advance (by omega), List.drop_left]
  have hplain : Offers free (markupWord >>= settingPart)
      (of (' ' :: (key.toList ++ (suffixChars value ++ rest))))
      (1 + key.toList.length + (suffixChars value).length) (AttributeMeans · (key, value.reread))
      Equalled := by
    refine (settles_markupWord hkey hstops hfaces).andThen fun word hslice => ?_
    have htext : word.text = key := by
      rw [hslice, Slice.text_of_append, String.ofList_toList]
    rw [hend]
    exact offers_settingPart htext hlegible hoff tagRest
  refine hplain.oneOf (List.mem_cons_self ..) ?_
  intro other hother
  simp only [List.mem_cons, List.not_mem_nil, or_false] at hother
  rcases hother with rfl | rfl | rfl
  · exact Or.inl rfl
  · refine Or.inr fun reading hreading => ?_
    obtain ⟨before, hbefore, after, hafter, _⟩ := exists_of_reads_bind hreading
    rw [(settles_markupWord hkey hstops hfaces).used_eq hbefore, hend] at hafter
    exact absurd hafter (fails_bind (fails_colon_suffix tagRest value) after)
  · refine Or.inr fun reading hreading => absurd hreading ((starts_sign rfl).bind _ _ _ hfaces
      (barred_singleton.mpr ?_) reading)
    exact sign_markupName hkey rfl _

end Attribute

/-! ## All attributes of a tag -/

/-- A place where a tag does not end. -/
def Unfinished (place : Place) : Prop :=
  Fails (Reader.sign ">") place ∧ Fails (Reader.sign "/") place

theorem unfinished_of_equalled {place : Place} (equalled : Equalled place) : Unfinished place :=
  ⟨equalled.fails_of_starts (starts_sign rfl) fun _ => barred_singleton.mpr rfl,
    equalled.fails_of_starts (starts_sign rfl) fun _ => barred_singleton.mpr rfl⟩

theorem unfinished_attribute {entry : String × Value} (hkey : IsMarkupName entry.1)
    (rest : List Char) : Unfinished (of (attributeChars entry ++ rest)) := by
  have hsplit : attributeChars entry ++ rest =
      ' ' :: (entry.1.toList ++ (suffixChars entry.2 ++ rest)) := by simp [attributeChars]
  have hfaces := faces_key hkey (suffixChars entry.2 ++ rest)
  rw [hsplit]
  exact ⟨starts_sign rfl _ _ _ hfaces (barred_singleton.mpr (sign_markupName hkey rfl _)),
    starts_sign rfl _ _ _ hfaces (barred_singleton.mpr (sign_markupName hkey rfl _))⟩

theorem tagRest_attribute {entry : String × Value} (hkey : IsMarkupName entry.1)
    (rest : List Char) : TagRest (attributeChars entry ++ rest) := by
  have hrest := tagRest_word hkey (suffixChars entry.2 ++ rest)
  rwa [attributeChars, List.cons_append, List.append_assoc]

/-- Behind an attribute, the tag goes on with another one or ends. -/
theorem tagRest_attributes {entries : Entries Value}
    (hnames : ∀ entry ∈ entries, IsMarkupName entry.1) {rest : List Char} (tagRest : TagRest rest) :
    TagRest (entries.flatMap attributeChars ++ rest) := by
  cases entries with
  | nil => exact tagRest
  | cons entry entries =>
      rw [List.flatMap_cons, List.append_assoc]
      exact tagRest_attribute (hnames entry (List.mem_cons_self ..)) _

/-- The end of a tag: it is closed at once, or behind a space. -/
inductive TagEnds : List Char → Prop where
  | close (rest : List Char) : TagEnds ('>' :: rest)
  | slash (rest : List Char) : TagEnds (' ' :: '/' :: '>' :: rest)

theorem TagEnds.tagRest {text : List Char} (ends : TagEnds text) : TagRest text := by
  cases ends with
  | close rest => exact tagRest_close rest
  | slash rest => exact tagRest_slash rest

theorem TagEnds.not_unfinished {text : List Char} (ends : TagEnds text) :
    ¬ Unfinished (of text) := by
  intro unfinished
  cases ends with
  | close rest =>
      have hclose : Settles True (Reader.sign ">") (of ('>' :: rest)) (0 + 1) fun _ => True :=
        settles_sign (.of_firm rfl) rfl rfl
      obtain ⟨reading, hreading, _⟩ := hclose.reads
      exact unfinished.1 reading hreading
  | slash rest =>
      have hfaces : (of ([' '] ++ '/' :: '>' :: rest)).Faces 1 ('/' :: '>' :: rest) :=
        .of_spaces (by simp [Lexeme.isSpace]) rfl
      have hslash : Settles True (Reader.sign "/") (of ([' '] ++ '/' :: '>' :: rest)) (1 + 1)
          fun _ => True := settles_sign hfaces rfl rfl
      obtain ⟨reading, hreading, _⟩ := hslash.reads
      exact unfinished.2 reading hreading

theorem TagEnds.fails_elementAttribute {text : List Char} (ends : TagEnds text) :
    Fails elementAttribute (of text) := by
  cases ends with
  | close rest =>
      refine starts_elementAttribute _ _ _ (.of_firm rfl) ?_
      simp only [barred_cons, barred_nil, and_true]
      and_intros <;> rfl
  | slash rest =>
      have hfaces : (of ([' '] ++ '/' :: '>' :: rest)).Faces 1 ('/' :: '>' :: rest) :=
        .of_spaces (by simp [Lexeme.isSpace]) rfl
      refine starts_elementAttribute _ _ _ hfaces ?_
      simp only [barred_cons, barred_nil, and_true]
      and_intros <;> rfl

/-- What goes on with the attributes of a tag. -/
def attributeStep (forms : List (Attribute Form)) : Reader (List (Attribute Form)) := do
  return forms ++ [← elementAttribute]

/-- From attribute to attribute the attributes of a tag are read. -/
theorem chain_attributes {entries : Entries Value}
    (hnames : ∀ entry ∈ entries, IsMarkupName entry.1)
    (hvalues : ∀ entry ∈ entries, entry.2.Legible free ∧ entry.2.isOff = false)
    (done : List (String × Value)) {front rest : List Char} (ends : TagEnds rest) :
    Chain free attributeStep (of (front ++ entries.flatMap attributeChars ++ rest))
      Equalled Unfinished
      (front ++ entries.flatMap attributeChars).length
      (List.Forall₂ AttributeMeans · (done ++ entries.map rereadEntry)) front.length
      (List.Forall₂ AttributeMeans · done) := by
  induction entries generalizing done front with
  | nil =>
      rw [List.flatMap_nil, List.append_nil, List.map_nil, List.append_nil]
      refine .stop fun forms _ => ?_
      rw [advance_of, List.drop_left]
      exact fails_bind ends.fails_elementAttribute
  | cons entry entries ih =>
      have hkey := hnames entry (List.mem_cons_self ..)
      obtain ⟨hlegible, hoff⟩ := hvalues entry (List.mem_cons_self ..)
      have hrestNames : ∀ other ∈ entries, IsMarkupName other.1 :=
        fun other hother => hnames other (List.mem_cons_of_mem _ hother)
      have hrest := tagRest_attributes hrestNames ends.tagRest
      have hsplit : front ++ (entry :: entries).flatMap attributeChars ++ rest =
          front ++ (attributeChars entry ++ (entries.flatMap attributeChars ++ rest)) := by simp
      have hplace : (of (front ++ (entry :: entries).flatMap attributeChars ++ rest)).advance
          front.length = of (attributeChars entry ++ (entries.flatMap attributeChars ++ rest)) := by
        rw [hsplit, advance_of, List.drop_left]
      have hchain := @ih hrestNames (fun other hother => hvalues other (List.mem_cons_of_mem _ hother))
        (done ++ [rereadEntry entry]) (front ++ attributeChars entry)
      have hfront : front ++ attributeChars entry ++ entries.flatMap attributeChars =
          front ++ (entry :: entries).flatMap attributeChars := by simp
      have hdone : done ++ [rereadEntry entry] ++ entries.map rereadEntry =
          done ++ (entry :: entries).map rereadEntry := by simp
      have hlength : (front ++ attributeChars entry).length =
          front.length + (attributeChars entry).length := List.length_append
      rw [hfront, hdone, hlength] at hchain
      refine .next ?_ ?_ (by simp [attributeChars]) (fun forms hforms => ?_) hchain
      · rw [hplace]
        exact unfinished_attribute hkey _
      · rw [hplace]
        exact (tagRest_attribute hkey _).not_equalled
      · rw [hplace]
        exact (offers_elementAttribute hkey hlegible hoff hrest).returning fun form hform =>
          List.rel_append hforms (.cons hform .nil)

/-- The printed attributes are the attributes of the tag. -/
theorem offers_attributes {entries : Entries Value}
    (hnames : ∀ entry ∈ entries, IsMarkupName entry.1)
    (hvalues : ∀ entry ∈ entries, entry.2.Legible free ∧ entry.2.isOff = false)
    {rest : List Char} (ends : TagEnds rest) :
    Offers free (many elementAttribute) (of (entries.flatMap attributeChars ++ rest))
      (entries.flatMap attributeChars).length
      (List.Forall₂ AttributeMeans · (entries.map rereadEntry)) Unfinished := by
  have hrest := tagRest_attributes hnames ends.tagRest
  have hfirst : Offers free (nothing []) (of (entries.flatMap attributeChars ++ rest)) 0
      (List.Forall₂ AttributeMeans · ([] : List (String × Value))) Equalled :=
    Offers.weaken (.pure .nil) hrest.not_equalled
  have hchain := @chain_attributes free entries hnames hvalues [] [] rest ends
  rw [List.nil_append, List.nil_append] at hchain
  refine hfirst.chain hchain (List.pairwise_singleton ..) ?_ ?_ ?_ fun _ => unfinished_of_equalled
  · intro forms place equalled
    refine equalled.fails_of_starts starts_elementAttribute.bind fun behind => ?_
    simp only [barred_cons, barred_nil, and_true]
    and_intros <;> rfl
  · rw [length_of]
    simp
  · rw [advance_of, List.drop_left]
    exact ends.not_unfinished

/-! ## What the attributes stand for -/

/-- Attributes with different keys are collected one by one. -/
theorem attributesOf_all {forms : List (Attribute Form)} {entries : Entries Value}
    (h : List.Forall₂ AttributeMeans forms entries) (before : Entries Value)
    (hdistinct : Entries.Distinct (before ++ entries)) :
    attributesOf before forms = .ok (before ++ entries) := by
  induction h generalizing before with
  | nil =>
      rw [List.append_nil]
      rfl
  | @cons form entry forms entries hform hrest ih =>
      have hnew : entry.1 ∉ before.map Prod.fst := by
        rw [Entries.Distinct, List.map_append, List.nodup_append] at hdistinct
        intro hmem
        exact hdistinct.2.2 entry.1 hmem entry.1 (by simp) rfl
      have hsplit : before ++ entry :: entries = before ++ [entry] ++ entries := by simp
      rw [hsplit] at hdistinct ⊢
      rw [hform.collected, Entries.set_eq_append hnew]
      exact ih (before ++ [entry]) hdistinct

theorem occurrencesInAttributes_cons (form : Attribute Form) (forms : List (Attribute Form)) :
    occurrencesInAttributes (form :: forms) =
      occurrencesInAttributes [form] ++ occurrencesInAttributes forms := by
  cases form with
  | named name setting =>
      cases setting with
      | _ => simp [occurrencesInAttributes]
  | _ => simp [occurrencesInAttributes]

/-- Attributes that stand for entries obey the rules on markup. -/
theorem tidy_attributes {forms : List (Attribute Form)} {entries : Entries Value}
    (h : List.Forall₂ AttributeMeans forms entries) :
    ∀ occurrence ∈ occurrencesInAttributes forms, ∀ source,
      violation? source occurrence = none := by
  induction h with
  | nil =>
      intro occurrence hoccurrence
      cases hoccurrence
  | cons hform hrest ih =>
      intro occurrence hoccurrence
      rw [occurrencesInAttributes_cons] at hoccurrence
      rcases List.mem_append.mp hoccurrence with hfirst | hbehind
      · exact hform.tidy occurrence hfirst
      · exact ih occurrence hbehind

end EditableMarkup.Source
