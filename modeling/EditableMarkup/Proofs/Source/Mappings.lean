import EditableMarkup.Proofs.Reading.Lists
import EditableMarkup.Proofs.Reading.Members
import EditableMarkup.Proofs.Source.Standing
import EditableMarkup.Proofs.Source.Values

/-!
# Reading mappings

A printed mapping is an object of properties.  Within it, a shorthand or a
method would stop at the colon behind the key, where nothing goes on, and a
value that is a path could stop at one of its points.
-/

namespace EditableMarkup.Source

open EditableMarkup.Grammar EditableMarkup.Grammar.Reader EditableMarkup.Grammar.Place
open EditableMarkup.Grammar.Rule

variable {free : Prop}

/-! ## Members -/

/-- A key stands for a string. -/
def KeyMeans (form : Key Form) (key : String) : Prop :=
  (∃ slice, form = .word slice ∧ slice.text = key) ∨
    ∃ slice, form = .quoted slice ∧ Literal.unquoted slice.text = .ok key

/-- A member of an object is a property that stands for an entry. -/
def MemberMeans (member : Member Form) (entry : String × Value) : Prop :=
  ∃ key form, member = .property key form ∧ KeyMeans key entry.1 ∧ Means form entry.2

/-- A printed value spells what it is read back as. -/
abbrev Value.Spelled (free : Prop) (value : Value) : Prop :=
  Spells free value.print.toList value.reread

section Key

variable {place : Place} {lead : Nat} {key : String} {rest : List Char}

/-- A printed key in front of a colon is one key. -/
theorem settles_propertyKey (faces : place.Faces lead ((printKey key).toList ++ ':' :: rest)) :
    Settles free propertyKey place (lead + (printKey key).toList.length) (KeyMeans · key) := by
  unfold printKey at faces ⊢
  split at faces
  · next hplain =>
      rw [if_pos hplain]
      have hword : Lexeme.anyName key.toList = some key.toList.length := of_decide_eq_true hplain
      refine (settles_propertyKey_word hword rfl faces).imp ?_
      rintro form rfl
      refine Or.inl ⟨_, rfl, ?_⟩
      rw [Slice.text_of_append, String.ofList_toList]
  · next hplain =>
      rw [if_neg hplain]
      have hquoted : (Literal.quoted key).toList = Literal.quotedChars key.toList := by
        rw [Literal.quoted, String.toList_ofList]
      rw [hquoted] at faces ⊢
      refine (settles_propertyKey_quoted faces).imp ?_
      rintro form rfl
      refine Or.inr ⟨_, rfl, ?_⟩
      rw [Slice.text_of_append]
      exact Literal.unquoted_quoted key

/-- A printed key is neither the sign of a spread nor a closing brace. -/
theorem barred_printKey (key : String) (rest : List Char) :
    Barred [Lexeme.sign "...", Lexeme.sign "\x7d"] ((printKey key).toList ++ rest) := by
  unfold printKey
  split
  · next hplain => exact (barred_word (of_decide_eq_true hplain) _).mono (by simp)
  · rw [Literal.quoted, String.toList_ofList]
    exact (barred_quoted key.toList _).mono (by simp)

/-- A printed key in front of a colon is no method. -/
theorem fails_method (faces : place.Faces lead ((printKey key).toList ++ ':' :: rest)) :
    Fails method place := by
  unfold printKey at faces
  split at faces
  · next hplain => exact fails_method_word (of_decide_eq_true hplain) faces
  · rw [Literal.quoted, String.toList_ofList] at faces
    exact fails_method_quoted faces

/-- A shorthand stops in front of the colon. -/
theorem coloned_of_reads_shorthand
    (faces : place.Faces lead ((printKey key).toList ++ ':' :: rest)) {reading : Reading Slice}
    (h : Reads name place reading) : Coloned (place.advance reading.used) := by
  unfold printKey at faces
  split at faces
  · next hplain => exact coloned_of_reads_name (of_decide_eq_true hplain) faces h
  · rw [Literal.quoted, String.toList_ofList] at faces
    have hbarred := barred_quoted key.toList (':' :: rest)
    exact absurd h (starts_name _ _ _ faces (hbarred.mono (by simp)) reading)

theorem length_printKey_pos (key : String) : 0 < (printKey key).toList.length := by
  unfold printKey
  split
  · next hplain =>
      have hword : Lexeme.anyName key.toList = some key.toList.length := of_decide_eq_true hplain
      cases hkey : key.toList with
      | nil =>
          rw [hkey] at hword
          cases hword
      | cons c rest => simp
  · simp [Literal.quoted, Literal.quotedChars]

theorem skipped_printKey (key : String) (rest : List Char) :
    Lexeme.skipped ((printKey key).toList ++ ':' :: rest) = none := by
  unfold printKey
  split
  · next hplain => exact (allName_of_anyName (of_decide_eq_true hplain)).skipped_eq_none rfl
  · rw [Literal.quoted, String.toList_ofList]
    rfl

end Key

/-- An entry of a mapping as it is printed. -/
def entryChars (entry : String × Value) : List Char :=
  (printKey entry.1).toList ++ ':' :: ' ' :: entry.2.print.toList

theorem faces_entry {blank : List Char} (hblank : ∀ c ∈ blank, Lexeme.isSpace c = true)
    (entry : String × Value) (rest : List Char) :
    (of (blank ++ entryChars entry ++ rest)).Faces blank.length
      ((printKey entry.1).toList ++ ':' :: (' ' :: entry.2.print.toList ++ rest)) := by
  have hsplit : blank ++ entryChars entry ++ rest =
      blank ++ ((printKey entry.1).toList ++ ':' :: (' ' :: entry.2.print.toList ++ rest)) := by
    simp [entryChars]
  rw [hsplit]
  exact .of_spaces hblank (skipped_printKey entry.1 _)

/-- A printed entry is one member of an object. -/
theorem offers_objectMember {blank rest : List Char} {entry : String × Value}
    (hvalue : Value.Spelled free entry.2) (hblank : ∀ c ∈ blank, Lexeme.isSpace c = true)
    (closed : Closed rest) (hne : rest ≠ []) :
    Offers free objectMember (of (blank ++ entryChars entry ++ rest))
      (blank ++ entryChars entry).length (MemberMeans · (entry.1, entry.2.reread)) Unclosed := by
  have hfaces := faces_entry hblank entry rest
  have hlength : (blank ++ entryChars entry).length =
      blank.length + (printKey entry.1).toList.length + (0 + 1 +
        ([' '] ++ entry.2.print.toList).length) := by
    simp only [entryChars, List.length_append, List.length_cons, List.length_nil]
    omega
  have hproperty : Offers free
      (do
        let key ← propertyKey
        Reader.sign ":"
        return .property key (← Reader.assignment))
      (of (blank ++ entryChars entry ++ rest)) (blank ++ entryChars entry).length
      (MemberMeans · (entry.1, entry.2.reread)) Unclosed := by
    rw [hlength]
    refine (settles_propertyKey hfaces).andThen fun key hkey => ?_
    have hcolon : (of (':' :: (' ' :: entry.2.print.toList ++ rest))).Faces 0
        (':' :: (' ' :: entry.2.print.toList ++ rest)) := .of_firm rfl
    rw [hfaces.advance (by have := length_printKey_pos entry.1; omega), List.drop_left]
    refine (settles_sign hcolon rfl rfl).andThen fun _ _ => ?_
    rw [hcolon.advance (by decide)]
    exact (hvalue.offers [' '] rest (by simp [Lexeme.isSpace]) closed hne).returning fun form hform =>
      ⟨key, form, rfl, hkey, hform⟩
  refine hproperty.oneOf (List.mem_cons_self ..) ?_
  intro other hother
  simp only [List.mem_cons, List.not_mem_nil, or_false] at hother
  rcases hother with rfl | rfl | rfl | rfl
  · exact Or.inl rfl
  · refine Or.inr fun reading hreading => ?_
    obtain ⟨before, hbefore, hused, _⟩ := exists_of_reads_map hreading
    rw [hused]
    exact (coloned_of_reads_shorthand hfaces hbefore).unclosed
  · exact Or.inr fun reading hreading => absurd hreading
      ((starts_sign rfl).bind.bind _ _ _ hfaces ((barred_printKey entry.1 _).mono (by simp)) reading)
  · exact Or.inr fun reading hreading => absurd hreading (fails_bind (fails_method hfaces) reading)

/-- Entries behind others, as they are printed. -/
def entriesBehind (entries : List (String × Value)) : List Char :=
  entries.flatMap fun entry => ',' :: ' ' :: entryChars entry

/-- What an entry is read back as. -/
def rereadEntry (entry : String × Value) : String × Value :=
  (entry.1, entry.2.reread)

/-! ## Objects -/

/-- The entries of a mapping as they are printed. -/
def membersChars : List (String × Value) → List Char
  | [] => []
  | entry :: entries => entryChars entry ++ entriesBehind entries

/-- A mapping as it is printed. -/
def mappingChars (entries : List (String × Value)) : List Char :=
  '\x7b' :: (membersChars entries ++ ['\x7d'])

/-- Entries with the spaces in front of them. -/
def spacedEntries : List (String × Value) → List (List Char × String × Value)
  | [] => []
  | entry :: entries => ([], entry) :: entries.map fun entry => ([' '], entry)

/-- An entry behind its spaces. -/
def spacedChars (item : List Char × String × Value) : List Char :=
  item.1 ++ entryChars item.2

theorem membersChars_eq (entries : List (String × Value)) :
    membersChars entries = charsOf spacedChars (spacedEntries entries) := by
  cases entries with
  | nil => rfl
  | cons entry entries =>
      simp [membersChars, entriesBehind, spacedEntries, spacedChars, charsOf, charsBehind,
        List.flatMap_map]

theorem map_snd_spacedEntries (entries : List (String × Value)) :
    (spacedEntries entries).map Prod.snd = entries := by
  cases entries with
  | nil => rfl
  | cons entry entries => simp [spacedEntries, Function.comp_def]

theorem blank_of_mem_spacedEntries {entries : List (String × Value)}
    {item : List Char × String × Value} (h : item ∈ spacedEntries entries) :
    item.2 ∈ entries ∧ ∀ c ∈ item.1, Lexeme.isSpace c = true := by
  cases entries with
  | nil => cases h
  | cons entry entries =>
      rcases List.mem_cons.mp h with rfl | h
      · exact ⟨List.mem_cons_self .., by simp⟩
      · obtain ⟨other, hother, rfl⟩ := List.mem_map.mp h
        exact ⟨List.mem_cons_of_mem _ hother, by simp [Lexeme.isSpace]⟩

theorem toList_printEntries (entries : List (String × Value)) :
    (Value.printEntries entries).map String.toList = entries.map entryChars := by
  induction entries with
  | nil => rfl
  | cons entry entries ih =>
      rw [Value.printEntries, List.map_cons, List.map_cons, ih]
      simp [entryChars]

theorem intercalate_entryChars (entry : String × Value) (entries : List (String × Value)) :
    [',', ' '].intercalate ((entry :: entries).map entryChars) =
      entryChars entry ++ entriesBehind entries := by
  induction entries generalizing entry with
  | nil => simp [entriesBehind]
  | cons next entries ih =>
      rw [List.map_cons, List.map_cons, List.intercalate_cons_cons, ← List.map_cons, ih]
      simp [entriesBehind]

theorem toList_mapping (entries : List (String × Value)) :
    (Value.mapping entries).print.toList = mappingChars entries := by
  have hall : (Value.mapping entries).print.toList =
      '\x7b' :: ([',', ' '].intercalate (entries.map entryChars) ++ ['\x7d']) := by
    rw [Value.print, braced, String.toList_append, String.toList_append, String.toList_intercalate,
      toList_printEntries]
    rfl
  rw [hall]
  cases entries with
  | nil => rfl
  | cons entry entries => rw [intercalate_entryChars, mappingChars, membersChars]

theorem rereadAll_eq (entries : List (String × Value)) :
    Value.rereadAll entries = entries.map rereadEntry := by
  induction entries with
  | nil => rfl
  | cons entry entries ih =>
      rw [Value.rereadAll, ih]
      rfl

/-- Members that stand for entries with different keys are collected one by one. -/
theorem entriesOf_members {members : List (Member Form)} {entries : Entries Value}
    (h : List.Forall₂ MemberMeans members entries) (before : Entries Value)
    (hdistinct : Entries.Distinct (before ++ entries)) :
    entriesOf before members = .ok (some (before ++ entries)) := by
  induction h generalizing before with
  | nil =>
      rw [List.append_nil]
      rfl
  | @cons member entry members entries hmember hrest ih =>
      obtain ⟨key, form, rfl, hkey, hform⟩ := hmember
      have hnew : entry.1 ∉ before.map Prod.fst := by
        rw [Entries.Distinct, List.map_append, List.nodup_append] at hdistinct
        intro hmem
        exact hdistinct.2.2 entry.1 hmem entry.1 (by simp) rfl
      have hsplit : before ++ entry :: entries = before ++ [entry] ++ entries := by simp
      rw [hsplit] at hdistinct ⊢
      have hnext := ih (before ++ [entry]) hdistinct
      rcases hkey with ⟨slice, rfl, htext⟩ | ⟨slice, rfl, hquoted⟩
      · rw [entriesOf, hform.value_eq, htext]
        change entriesOf (before.set entry.1 entry.2) members = _
        rw [Entries.set_eq_append hnew]
        exact hnext
      · rw [entriesOf, hquoted, hform.value_eq]
        change entriesOf (before.set entry.1 entry.2) members = _
        rw [Entries.set_eq_append hnew]
        exact hnext

/-- Members that stand for entries obey the rules on markup. -/
theorem tidy_members {members : List (Member Form)} {entries : Entries Value}
    (h : List.Forall₂ MemberMeans members entries) :
    ∀ occurrence ∈ occurrencesInMembers members, ∀ source, violation? source occurrence = none := by
  induction h with
  | nil =>
      intro occurrence hoccurrence
      cases hoccurrence
  | @cons member entry members entries hmember hrest ih =>
      obtain ⟨key, form, rfl, hkey, hform⟩ := hmember
      intro occurrence hoccurrence
      have hsplit : occurrence ∈ occurrences form ∨ occurrence ∈ occurrencesInMembers members := by
        rcases hkey with ⟨slice, rfl, _⟩ | ⟨slice, rfl, _⟩
        · exact List.mem_append.mp hoccurrence
        · exact List.mem_append.mp hoccurrence
      rcases hsplit with hfirst | hrest
      · exact hform.tidy occurrence hfirst
      · exact ih occurrence hrest

theorem means_object {slice : Slice} {members : List (Member Form)} {entries : Entries Value}
    (h : List.Forall₂ MemberMeans members entries) (hdistinct : Entries.Distinct entries) :
    Means (.object slice members) (.mapping entries) where
  value_eq := by
    rw [valueOf, entriesOf_members h [] hdistinct]
    rfl
  unwrapped_eq := rfl
  text_eq _ h := nomatch h
  tidy := by
    intro occurrence hoccurrence
    rcases List.mem_cons.mp hoccurrence with rfl | hoccurrence
    · exact fun _ => rfl
    · exact tidy_members h occurrence hoccurrence

theorem starts_objectMember :
    Starts objectMember
      (keyFirst ++ ([Lexeme.name] ++ ([Lexeme.sign "..."] ++
        ([Lexeme.modifier, Lexeme.keyword "async", Lexeme.accessor, Lexeme.sign "*"] ++
          keyFirst)))) :=
  starts_propertyKey.bind.cons <|
  starts_name.map.cons <|
  (starts_sign rfl).bind.bind.cons <|
  (starts_methodModifier.many.bind fun _ => starts_propertyKey.bind).sliced.bind.single

/-- A printed entry can be an item of a list in braces. -/
theorem listed_entry {blank : List Char} {entry : String × Value}
    (hvalue : Value.Spelled free entry.2)
    (hblank : ∀ c ∈ blank, Lexeme.isSpace c = true) :
    Listed free "\x7d" objectMember (fun member item => MemberMeans member (rereadEntry item.2))
      spacedChars (blank, entry) where
  ne_nil := by simp [spacedChars, entryChars]
  opens rest := by
    have hkey := faces_entry hblank entry rest
    exact starts_sign rfl _ _ _ hkey ((barred_printKey entry.1 _).mono (by simp))
  offers _ closed hne := offers_objectMember hvalue hblank closed hne

/-- The members of an object, or none. -/
theorem offers_memberChoice {entries : List (String × Value)}
    (hvalues : ∀ entry ∈ entries, Value.Spelled free entry.2) (rest : List Char) :
    Offers free (oneOf [commaList objectMember, nothing []])
      (of (membersChars entries ++ '\x7d' :: rest)) (membersChars entries).length
      (List.Forall₂ MemberMeans · (entries.map rereadEntry)) (Fails (Reader.sign "\x7d")) := by
  have hmap : entries.map rereadEntry =
      (spacedEntries entries).map fun item => rereadEntry item.2 := by
    rw [← map_snd_spacedEntries entries, List.map_map, map_snd_spacedEntries]
    rfl
  have hitems : ∀ item ∈ spacedEntries entries,
      Listed free "\x7d" objectMember (fun member item => MemberMeans member (rereadEntry item.2))
        spacedChars item := by
    intro item hitem
    obtain ⟨hentry, hblank⟩ := blank_of_mem_spacedEntries hitem
    exact listed_entry (hvalues item.2 hentry) hblank
  have hnone : Fails (commaList objectMember) (of ('\x7d' :: rest)) := by
    refine fails_commaList (starts_objectMember _ _ _ (bracket_brace.faces rest) ?_)
    simp only [keyFirst, List.cons_append, List.nil_append, barred_cons, barred_nil, and_true]
    and_intros <;> rfl
  rw [membersChars_eq, hmap]
  simp only [List.forall₂_map_right_iff]
  refine Offers.orNothing bracket_brace (fun item hitem => (hitems item hitem).opens)
    (fun hne => offers_commaList bracket_brace hitems hne rest) hnone ?_
  intro hnil
  rw [hnil]
  exact .nil

/-- A printed mapping is one object. -/
theorem settles_object {blank rest : List Char} {entries : List (String × Value)}
    (hvalues : ∀ entry ∈ entries, Value.Spelled free entry.2) (hdistinct : Entries.Distinct entries)
    (hblank : ∀ c ∈ blank, Lexeme.isSpace c = true) :
    Settles free Rule.object (bare (blank ++ mappingChars entries ++ rest))
      (blank ++ mappingChars entries).length (Means · (.mapping (entries.map rereadEntry))) := by
  have hdistinct' : Entries.Distinct (entries.map rereadEntry) := by
    rw [Entries.Distinct, List.map_map]
    exact hdistinct
  have hsplit : blank ++ mappingChars entries ++ rest =
      blank ++ '\x7b' :: (membersChars entries ++ '\x7d' :: rest) := by
    simp [mappingChars]
  have hlength : (blank ++ mappingChars entries).length =
      blank.length + 1 + ((membersChars entries).length + 1) := by
    simp only [mappingChars, List.length_append, List.length_cons, List.length_nil]
    omega
  have hfaces : (bare (blank ++ mappingChars entries ++ rest)).Faces blank.length
      ('\x7b' :: (membersChars entries ++ '\x7d' :: rest)) := by
    rw [hsplit]
    exact (Faces.of_spaces hblank rfl).transfer (shows_bare _)
  rw [hlength]
  have hmade : Settles free
      (do
        Reader.sign "\x7b"
        let members ← oneOf [commaList objectMember, nothing []]
        Reader.sign "\x7d"
        return (.object · members))
      (bare (blank ++ mappingChars entries ++ rest))
      (blank.length + 1 + ((membersChars entries).length + 1))
      (fun make => ∀ slice, Means (make slice) (.mapping (entries.map rereadEntry))) :=
    Offers.enclosed bracket_brace rfl rfl hfaces (offers_memberChoice hvalues rest)
      fun members hmembers slice => means_object hmembers hdistinct'
  exact hmade.sliced fun make slice hmake => hmake slice

theorem sole_object (rest : List Char) :
    Sole (Reader.object, [Lexeme.sign "\x7b"]) ('\x7b' :: rest) := by
  refine ⟨by simp [primaryTable], ?_, ?_⟩
  · intro other hother
    simp only [primaryTable, List.mem_cons, List.not_mem_nil, or_false] at hother
    rcases hother with rfl | rfl | rfl | rfl | rfl | rfl | rfl | rfl | rfl | rfl | rfl | rfl | rfl | rfl
    all_goals
      first
      | refine Or.inr ?_
        simp only [barred_cons, barred_nil, and_true]
        and_intros <;> rfl
      | exact Or.inl rfl
  · simp only [prefixFirst, barred_cons, barred_nil, and_true]
    and_intros <;> rfl

/-- A mapping is spelled, if the values in it are. -/
theorem spelled_mapping {entries : List (String × Value)}
    (hvalues : ∀ entry ∈ entries, Value.Spelled free entry.2)
    (hdistinct : Entries.Distinct entries) :
    Value.Spelled free (.mapping entries) := by
  obtain ⟨inside, hinside⟩ : ∃ inside, mappingChars entries = '\x7b' :: inside := ⟨_, rfl⟩
  rw [Value.Spelled, toList_mapping, Value.reread, rereadAll_eq]
  refine ⟨?_, fun blank rest hblank closed hne => ?_⟩
  · rw [hinside]
    exact opening_of_head (by decide)
  · have hfaces : (of (blank ++ mappingChars entries ++ rest)).Faces blank.length
        (mappingChars entries ++ rest) := by
      rw [List.append_assoc, hinside]
      exact .of_spaces hblank rfl
    have hshown : blank ++ mappingChars entries ++ rest ≠ [] := by simp [hinside]
    have hsole := sole_object (inside ++ rest)
    rw [← List.cons_append, ← hinside] at hsole
    have hobject : Settles free Reader.object (opened (blank ++ mappingChars entries ++ rest))
        (blank ++ mappingChars entries).length (Means · (.mapping (entries.map rereadEntry))) := by
      refine (settles_object hvalues hdistinct hblank).transfer (object_opened hshown) ?_
      exact fun _ => Iff.rfl
    have hprimary := offers_primary hshown hfaces hsole.1 hobject hsole.2.1
    have hassignment := offers_assignment_of_primary (by simp [hinside]) closed.stopped hfaces
      hsole.2.2 hprimary
    exact Offers.unclosed hassignment closed hne

/-! ## All values -/

theorem spelled_string (text : String) : Value.Spelled free (.string text) := by
  have htext : (Value.string text).print.toList = Literal.quotedChars text.toList := by
    rw [Value.print, Literal.quoted, String.toList_ofList]
  rw [Value.Spelled, htext]
  exact ⟨@opening_of_head '"' _ (by decide), fun _ _ hblank closed hne =>
    Offers.unclosed (offers_string hblank closed text) closed hne⟩

theorem spelled_boolean (value : Bool) : Value.Spelled free (.boolean value) where
  opening := by
    cases value with
    | true => exact @opening_of_head 't' _ (by decide)
    | false => exact @opening_of_head 'f' _ (by decide)
  offers _ _ hblank closed hne := Offers.unclosed (offers_boolean hblank closed value) closed hne

theorem opening_of_isDigit {c : Char} (hc : c.isDigit = true) (front : List Char) :
    Opening (c :: front) :=
  opening_of_head (@forall_isDigit
    (fun d => Lexeme.isSpace d = false ∧ d ≠ '/' ∧ d ≠ '\x7d' ∧ d ≠ ')' ∧ d ≠ '.') (by decide) c hc)

theorem spelled_number {number : Number} (hfinite : number.isFinite = true)
    (hwritable : number.isWritable = true) : Value.Spelled free (.number number) := by
  obtain ⟨negative, text, size, hprints⟩ := Number.exists_prints hfinite hwritable
  rw [Value.Spelled, Value.print, Value.reread, hprints.literal_eq, ← hprints.signed_eq]
  cases negative with
  | true =>
      exact ⟨@opening_of_head '-' _ (by decide), fun _ _ hblank closed hne =>
        Offers.unclosed (offers_negative hblank closed hprints.isLiteralOf) closed hne⟩
  | false =>
      obtain ⟨c, more, htext, hc⟩ := hprints.isLiteralOf.starts
      refine ⟨?_, fun _ _ hblank closed hne =>
        Offers.unclosed (offers_number hblank closed hprints.isLiteralOf) closed hne⟩
      change Opening text
      rw [htext]
      exact opening_of_isDigit hc more

mutual

/-- Every legible value is spelled by its print. -/
theorem spelled_of_legible : (value : Value) → value.Legible free → Value.Spelled free value
  | .string text, _ => spelled_string text
  | .number _, h => spelled_number h.1 h.2
  | .boolean value, _ => spelled_boolean value
  | .expression _, h => h
  | .mapping entries, h => spelled_mapping (spelled_of_allLegible entries h.2) h.1

theorem spelled_of_allLegible : (entries : List (String × Value)) →
    Value.AllPrintableWith (StandsAlone free) entries →
      ∀ entry ∈ entries, Value.Spelled free entry.2
  | [], _ => fun _ hentry => nomatch hentry
  | (_, value) :: rest, h => fun entry hentry => by
    rcases List.mem_cons.mp hentry with rfl | hentry
    · exact spelled_of_legible value h.1
    · exact spelled_of_allLegible rest h.2 entry hentry

end

end EditableMarkup.Source
