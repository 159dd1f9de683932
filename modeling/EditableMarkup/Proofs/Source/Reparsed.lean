import EditableMarkup.Proofs.Source.Module
import EditableMarkup.Proofs.Source.Roots

/-!
# Printed trees are parsed back

A printable tree that is printed and parsed again is the same tree without the
attributes that are off, whether a word in it hints at a component or not.  One
kind of text is excepted: the first attribute of the root begins with the word
`extends`, and an arrow and the start of a comment stand in its strings.

Such an attribute may belong to the type parameters of an arrow function, and so
may the name of a root without attributes, if its first child opens a
parenthesis.  No other printed text opens like an arrow function, so no other
one has to be read without cost.
-/

namespace EditableMarkup.Source

open EditableMarkup.Grammar EditableMarkup.Grammar.Reader EditableMarkup.Grammar.Place
open EditableMarkup.Grammar.Rule

variable {free : Prop}

/-- The first attribute that is printed begins with the word `extends`. -/
def opensWithExtends (node : Node) : Bool :=
  (Entries.kept node.attributes).head?.any fun entry =>
    (Lexeme.keyword "extends" entry.1.toList).isSome

/-! ## Texts that do not trail off -/

/-- No arrow stands in a text. -/
def Arrowless (text : List Char) : Prop := ¬ ['=', '>'] <:+: text

theorem Arrowless.not_trailsOff {text : List Char} (h : Arrowless text) : ¬ TrailsOff text := by
  rintro ⟨before, between, comment, rfl, _⟩
  exact h ⟨before, between ++ '/' :: '/' :: comment, by simp⟩

theorem arrowless_nil : Arrowless [] := by
  intro h
  cases List.eq_nil_of_infix_nil h

/-- A character starts an arrow only if it is an equals sign in front of an angle bracket. -/
theorem Arrowless.cons {c : Char} {text : List Char} (h : Arrowless text)
    (hc : c = '=' → text.head? ≠ some '>') : Arrowless (c :: text) := by
  intro hinfix
  rcases List.infix_cons_iff.mp hinfix with hprefix | hinfix
  · obtain ⟨heq, rest, rfl⟩ := List.cons_prefix_cons.mp hprefix
    exact hc heq.symm rfl
  · exact h hinfix

/-- A text without angle brackets adds no arrow in front of another one. -/
theorem Arrowless.append {front text : List Char} (h : Arrowless text) (hfront : '>' ∉ front)
    (htext : text.head? ≠ some '>') : Arrowless (front ++ text) := by
  induction front with
  | nil => exact h
  | cons c front ih =>
    rw [List.mem_cons, not_or] at hfront
    refine (ih hfront.2).cons fun _ => ?_
    cases front with
    | nil => exact htext
    | cons d front =>
      rw [List.cons_append, List.head?_cons, ne_eq, Option.some_inj]
      exact fun hd => hfront.2 (by simp [hd])

/-- An angle bracket behind a text without equals signs makes no arrow. -/
theorem Arrowless.append_closed {front text : List Char} (h : Arrowless text)
    (hequals : '=' ∉ front) : Arrowless (front ++ '>' :: text) := by
  induction front with
  | nil => exact h.cons fun hc => by cases hc
  | cons c front ih =>
      rw [List.mem_cons, not_or] at hequals
      exact (ih hequals.2).cons fun hc => absurd hc.symm hequals.1

/-- A text whose last line closes a tag does not trail off. -/
theorem not_trailsOff_of_lines {front name : List Char} (hname : '/' ∉ name) :
    ¬ TrailsOff (front ++ '\n' :: '<' :: '/' :: (name ++ ['>'])) := by
  rintro ⟨before, between, comment, htext, hline⟩
  have hsuffix : '/' :: '/' :: comment <:+ front ++ '\n' :: '<' :: '/' :: (name ++ ['>']) :=
    ⟨before ++ '=' :: '>' :: between, by rw [htext]; simp⟩
  have hrest : '/' ∉ name ++ ['>'] := by simp [hname]
  rcases List.suffix_or_suffix_of_suffix hsuffix (List.suffix_append front _) with hinside | hacross
  · -- The two slashes stand in the last line, which has only one.
    simp only [List.suffix_cons_iff, List.cons.injEq, false_and, false_or, Char.reduceEq,
      true_and] at hinside
    rcases hinside with heq | hinside
    · exact hrest (by rw [← heq]; simp)
    · exact hrest (hinside.subset (by simp))
  · -- The last line and the line break in front of it stand in the comment.
    have hmem : '\n' ∈ '/' :: '/' :: comment := hacross.subset (by simp)
    simp only [List.mem_cons, Char.reduceEq, false_or] at hmem
    exact hline hmem

/-! ## Printed markup is sheltered -/

/-- No arrow function opens with a fragment. -/
theorem guarded_fragment (rest : List Char) : Guarded ('<' :: '>' :: rest) := by
  intro blank behind hblank
  have hfaces := (@Faces.of_spaces ('<' :: '>' :: (rest ++ behind)) _ hblank rfl).transfer
    (shows_atAssignment _)
  change Fails Rule.arrowFunction (atAssignment (blank ++ '<' :: '>' :: (rest ++ behind)))
  refine fails_arrowFunction_angle hfaces fun reading hreading => ?_
  obtain ⟨opening, hopening, inner, hinner, _⟩ := exists_of_reads_bind hreading
  have hbracket : Settles True (Reader.sign "<")
      (atAssignment (blank ++ '<' :: '>' :: (rest ++ behind)))
      (blank.length + 1) fun _ => True := settles_sign hfaces rfl rfl
  rw [hbracket.used_eq hopening, hfaces.advance (by omega)] at hinner
  have hname : Fails Rule.name (of ('>' :: (rest ++ behind))) :=
    starts_name _ _ _ (.of_firm rfl) (barred_singleton.mpr rfl)
  exact absurd hinner (fails_bind (fails_bind (fails_iterate (fails_map (fails_bind hname)))) inner)

section Element

variable {word rest : List Char}

/-- No arrow function opens with a tag that is neither closed at once nor goes on with the word
`extends`. -/
theorem fails_arrowFunction_of_bounded (hword : Lexeme.markupName word = some word.length)
    {blank text : List Char} (hblank : ∀ c ∈ blank, Lexeme.isSpace c = true)
    (stops : Stops Lexeme.continuesMarkupName rest) (bounded : Bounded (of rest) text)
    (hclosed : ∀ more, text = '>' :: more → Fails parameterList (of more)) :
    Fails Rule.arrowFunction (atAssignment (blank ++ '<' :: (word ++ rest))) := by
  have hfaces := (@Faces.of_spaces ('<' :: (word ++ rest)) _ hblank rfl).transfer
    (shows_atAssignment _)
  refine fails_arrowFunction_angle hfaces fun reading hreading => ?_
  have hname : Stops Lexeme.continuesName rest :=
    stops.of_imp fun c hc => by simp [Lexeme.continuesMarkupName, hc]
  obtain ⟨more, hmore, hadvance⟩ := exists_of_reads_typeParameters hfaces hword hname bounded hreading
  rw [hadvance]
  exact hclosed more hmore

theorem guarded_of_bounded (hword : Lexeme.markupName word = some word.length)
    (h : ∀ behind, Stops Lexeme.continuesMarkupName (rest ++ behind) ∧
      ∃ text, Bounded (of (rest ++ behind)) text ∧
        ∀ more, text = '>' :: more → Fails parameterList (of more)) :
    Guarded ('<' :: (word ++ rest)) := by
  intro blank behind hblank
  obtain ⟨stops, text, bounded, hclosed⟩ := h behind
  rw [List.cons_append, List.append_assoc]
  exact fails_arrowFunction_of_bounded hword hblank stops bounded hclosed

/-- A tag of a name alone opens no arrow function, if no parameters open behind it. -/
theorem fails_arrowFunction_closed (hword : Lexeme.markupName word = some word.length)
    {blank more : List Char} (hblank : ∀ c ∈ blank, Lexeme.isSpace c = true)
    (hmore : Fails parameterList (of more)) :
    Fails Rule.arrowFunction (atAssignment (blank ++ '<' :: (word ++ '>' :: more))) := by
  have bounded : Bounded (of ('>' :: more)) ('>' :: more) := by
    refine ⟨⟨0, .of_firm rfl⟩, ?_⟩
    simp only [barred_cons, barred_nil, and_true]
    exact ⟨rfl, rfl, rfl⟩
  refine fails_arrowFunction_of_bounded hword hblank rfl bounded fun other hother => ?_
  rwa [← (List.cons.inj hother).2]

/-- A tag of a name that closes itself opens no arrow function. -/
theorem guarded_selfClosed (hword : Lexeme.markupName word = some word.length) :
    Guarded ('<' :: (word ++ [' ', '/', '>'])) := by
  refine guarded_of_bounded hword fun behind => ⟨rfl, '/' :: '>' :: behind, ?_, nofun⟩
  have hfaces : (of ([' '] ++ '/' :: '>' :: behind)).Faces 1 ('/' :: '>' :: behind) :=
    .of_spaces (by simp [Lexeme.isSpace]) rfl
  refine ⟨⟨1, hfaces⟩, ?_⟩
  simp only [barred_cons, barred_nil, and_true]
  exact ⟨rfl, rfl, rfl⟩

/-- A tag that goes on with an attribute other than `extends` opens no arrow function. -/
theorem guarded_attributes (hword : Lexeme.markupName word = some word.length)
    {entry : String × Value} {entries : Entries Value}
    (hnames : ∀ other ∈ entry :: entries, IsMarkupName other.1)
    (hextends : Lexeme.keyword "extends" entry.1.toList = none)
    (hrest : ∀ behind, TagRest (rest ++ behind)) :
    Guarded ('<' :: (word ++ ((entry :: entries).flatMap attributeChars ++ rest))) := by
  refine guarded_of_bounded hword fun behind => ?_
  obtain ⟨key, value⟩ := entry
  have hkey : IsMarkupName key := hnames (key, value) (List.mem_cons_self ..)
  have htail := tagRest_attributes (fun other hother => hnames other (List.mem_cons_of_mem _ hother))
    (hrest behind)
  have hsplit : ((key, value) :: entries).flatMap attributeChars ++ rest ++ behind =
      ' ' :: (key.toList ++ (suffixChars value ++
        (entries.flatMap attributeChars ++ (rest ++ behind)))) := by simp [attributeChars]
  have hstops := stops_suffix htail value
  have hnone : Lexeme.keyword "extends" (key.toList ++ (suffixChars value ++
      (entries.flatMap attributeChars ++ (rest ++ behind)))) = none :=
    Lexeme.keyword_append_eq_none hextends
      (Lexeme.reservedWords_continue "extends" (by simp [Lexeme.reservedWords]))
      (hstops.of_imp fun c hc => by simp [Lexeme.continuesMarkupName, hc])
  rw [hsplit]
  refine ⟨rfl, _, ⟨⟨1, faces_key hkey _⟩, ?_⟩, fun more hmore => ?_⟩
  · simp only [barred_cons, barred_nil, and_true]
    exact ⟨hnone, sign_markupName hkey rfl _, sign_markupName hkey rfl _⟩
  · have hbracket := @sign_markupName _ hkey ">" rfl (suffixChars value ++
      (entries.flatMap attributeChars ++ (rest ++ behind)))
    rw [hmore] at hbracket
    cases hbracket

end Element

/-! ## What stands behind the attributes -/

/-- What stands behind the attributes of a printed element: the end of a tag that closes itself, a
text in braces or as it stands, or lines and the closing tag in a line of its own. -/
inductive TagTail (closing : List Char) : List Char → Prop where
  | selfClosed : TagTail closing [' ', '/', '>']
  | braced (rest : List Char) : TagTail closing ('>' :: '\x7b' :: rest)
  | raw {text : List Char} (raw : Raw text) :
    TagTail closing ('>' :: (text ++ '<' :: '/' :: (closing ++ ['>'])))
  | lines (front : List Char) :
    TagTail closing ('>' :: (front ++ '\n' :: '<' :: '/' :: (closing ++ ['>'])))

section Tail

variable {word closing tail : List Char}

theorem TagTail.tagRest (h : TagTail closing tail) (behind : List Char) :
    TagRest (tail ++ behind) := by
  cases h with
  | selfClosed => exact tagRest_slash behind
  | braced rest => exact tagRest_close _
  | raw _ => exact tagRest_close _
  | lines front => exact tagRest_close _

/-- An element without attributes is sheltered. -/
theorem TagTail.sheltered (h : TagTail closing tail)
    (hword : Lexeme.markupName word = some word.length)
    (hclosing : Lexeme.markupName closing = some closing.length) :
    Sheltered ('<' :: (word ++ tail)) := by
  have hwordChars := Lexeme.continuesMarkupName_of_markupName hword
  have hclosingChars := Lexeme.continuesMarkupName_of_markupName hclosing
  have hequals : '=' ∉ word := fun hmem => Bool.false_ne_true (hwordChars _ hmem)
  have hequals' : '=' ∉ closing := fun hmem => Bool.false_ne_true (hclosingChars _ hmem)
  have hslash : '/' ∉ closing := fun hmem => Bool.false_ne_true (hclosingChars _ hmem)
  cases h with
  | selfClosed => exact Or.inl (guarded_selfClosed hword)
  | braced rest =>
      refine Or.inl fun blank behind hblank => ?_
      rw [List.cons_append, List.append_assoc]
      exact fails_arrowFunction_closed hword hblank
        (starts_parameterList _ _ _ (.of_firm rfl) (barred_singleton.mpr rfl))
  | @raw text raw =>
      have hend : Arrowless ('<' :: '/' :: closing ++ ['>']) :=
        arrowless_nil.append_closed (by simp [hequals'])
      have htext : '>' ∉ text := fun hmem => Bool.false_ne_true ((raw.plain _ hmem).symm.trans rfl)
      have hinside : Arrowless (text ++ ('<' :: '/' :: closing ++ ['>'])) :=
        hend.append htext (by simp)
      have hwhole : Arrowless ('<' :: word ++ '>' :: (text ++ ('<' :: '/' :: closing ++ ['>']))) :=
        hinside.append_closed (by simp [hequals])
      exact Or.inr hwhole.not_trailsOff
  | lines front =>
      have hlines := @not_trailsOff_of_lines ('<' :: (word ++ '>' :: front)) closing hslash
      refine Or.inr ?_
      simpa using hlines

end Tail

theorem toList_margin (indent : Int) : (margin indent 0).toList = [] := by
  simp [margin]

/-- What stands between the tags of a printed element is a tail with a closing tag of any name. -/
theorem tagTail_of_between {indent : Int} {inner : List Char}
    (h : (∃ text, inner = (printText text).toList) ∨ ∃ front, inner = front ++ lineGap indent 0)
    (closing : List Char) : TagTail closing ('>' :: (inner ++ '<' :: '/' :: (closing ++ ['>']))) := by
  rcases h with ⟨text, rfl⟩ | ⟨front, rfl⟩
  · rw [printText]
    split
    · have hbraced : '>' :: ((braced (Literal.quoted text)).toList ++
          '<' :: '/' :: (closing ++ ['>'])) =
          '>' :: '\x7b' :: ((Literal.quoted text).toList ++
            '\x7d' :: '<' :: '/' :: (closing ++ ['>'])) := by simp [braced]
      rw [hbraced]
      exact .braced _
    · next hsafe => exact .raw (raw_of_isUnsafeText (Bool.eq_false_iff.mpr hsafe))
  · have hlines : '>' :: (front ++ lineGap indent 0 ++ '<' :: '/' :: (closing ++ ['>'])) =
        '>' :: (front ++ '\n' :: '<' :: '/' :: (closing ++ ['>'])) := by
      simp [lineGap, toList_margin]
    rw [hlines]
    exact .lines front

/-- A printed element is a tag with its attributes and a tail. -/
theorem exists_tagTail {name id : String} {attributes : Entries Value}
    {contents : List (Content Node)}
    (hlegible : Node.Legible free ⟨.named name, attributes, contents, id⟩) (indent : Int) :
    ∃ tail, TagTail name.toList tail ∧
      (Node.print ⟨.named name, attributes, contents, id⟩ indent).toList =
        '<' :: (name.toList ++ ((Entries.kept attributes).flatMap attributeChars ++ tail)) := by
  rw [Node.print]
  by_cases hne : contents = []
  · subst hne
    refine ⟨_, .selfClosed, ?_⟩
    rw [Node.printAt, Node.printEmpty]
    simp [toList_margin, toList_opening hlegible.2.1]
  · obtain ⟨inner, hprint, _, hbetween⟩ :=
      exists_enclosed hlegible hne (lines_of_printable hlegible.2.2 indent 1 false)
    refine ⟨_, tagTail_of_between hbetween name.toList, ?_⟩
    rw [hprint, toList_margin, List.nil_append]

/-- A printed fragment opens with a tag without a name. -/
theorem exists_fragment (attributes : Entries Value) (contents : List (Content Node)) (id : String)
    (indent : Int) : ∃ rest,
      (Node.print ⟨.fragment, attributes, contents, id⟩ indent).toList = '<' :: '>' :: rest := by
  rw [Node.print]
  by_cases hne : contents = []
  · subst hne
    refine ⟨['<', '/', '>'], ?_⟩
    rw [Node.printAt]
    simp [toList_margin, Node.printEmpty]
  · refine ⟨lineChars (Node.printChildren indent 1 false contents) ++ ['\n', '<', '/', '>'], ?_⟩
    rw [printAt_lines hne (by simp), ← toList_printLines hne]
    simp [toList_margin, Node.opening, Node.closing]

/-- A tag with its attributes and a tail is sheltered, unless its first attribute begins with the word
`extends`. -/
theorem sheltered_element {name closing id : String} {attributes : Entries Value}
    {contents : List (Content Node)} (hname : IsMarkupName name) (hclosing : IsMarkupName closing)
    (hattributes : AttributesLegible free (.named name) attributes) {tail : List Char}
    (htail : TagTail closing.toList tail)
    (hopens : opensWithExtends ⟨.named name, attributes, contents, id⟩ = false) :
    Sheltered ('<' :: (name.toList ++ ((Entries.kept attributes).flatMap attributeChars ++ tail))) := by
  cases hkept : Entries.kept attributes with
  | nil => exact htail.sheltered hname hclosing
  | cons entry entries =>
      have hnames : ∀ other ∈ entry :: entries, IsMarkupName other.1 := by
        rw [← hkept]
        exact hattributes.kept.names
      refine Or.inl (guarded_attributes hname hnames ?_ htail.tagRest)
      simpa [opensWithExtends, hkept] using hopens

/-- Printed markup is sheltered, unless it opens with the word `extends` as an attribute. -/
theorem sheltered_print {node : Node} (hlegible : node.Legible free) (indent : Int)
    (h : opensWithExtends node = true → ¬ TrailsOff (node.print indent).toList) :
    Sheltered (node.print indent).toList := by
  cases hopens : opensWithExtends node with
  | true => exact Or.inr (h hopens)
  | false =>
      obtain ⟨tag, attributes, contents, id⟩ := node
      cases tag with
      | fragment =>
          obtain ⟨rest, hrest⟩ := exists_fragment attributes contents id indent
          rw [hrest]
          exact Or.inl (guarded_fragment rest)
      | named name =>
          obtain ⟨tail, htail, htext⟩ := exists_tagTail hlegible indent
          rw [htext]
          exact sheltered_element hlegible.1 hlegible.1 hlegible.2.1 htail hopens

/-! ## Printed markup has no rival -/

/-- A text that is trimmed to a printed tree without a rival is parsed as what the tree is read back
as. -/
theorem parseWithin_reread {node : Node} (hlegible : node.Legible free) {indent : Int}
    (unrivalled : Unrivalled free (node.print indent).toList)
    {text : String} (htext : Text.trim text.toList = (node.print indent).toList) {levels : Nat}
    (hheight : node.height ≤ levels) (supply : Supply) :
    ∃ found after, parseWithin levels text supply = .ok (found, after) ∧
      found.unlabelled = node.reread := by
  rw [parseWithin, htext]
  exact (marked_print hlegible indent).parseTrimmed_reread unrivalled hheight supply

/-- A printable tree is parsed back from its text without the attributes that are off, unless its
first attribute opens with the word `extends` and its text trails off behind an arrow. -/
theorem parseWithin_print {node : Node} (hprintable : node.Printable) (indent : Int) {levels : Nat}
    (hheight : node.height ≤ levels) (supply : Supply) :
    ∃ text, node.serialize indent = .ok text ∧
      ((opensWithExtends node = true → ¬ TrailsOff text.toList) →
        ∃ found after, parseWithin levels text supply = .ok (found, after) ∧
          found.Alike node.withoutOff ∧ found.same node.withoutOff = true) := by
  refine ⟨node.print indent, hprintable.serialize_eq indent, fun htrails => ?_⟩
  have hlegible : node.Legible True := hprintable.legible
  have marked := marked_print hlegible indent
  obtain ⟨found, after, hparse, halike⟩ := marked.parseTrimmed_eq
    ((sheltered_print hlegible indent htrails).unrivalled trivial) hheight supply
  refine ⟨found, after, ?_, halike, halike.same hprintable.proper_withoutOff⟩
  rw [parseWithin, marked.trim_eq]
  exact hparse

/-- An element whose text holds words that hint at a component. -/
def hintedElement : Node :=
  ⟨.named "a", [("b", .string "() => 1"), ("c", .boolean false)], [.text "class of its own"], ""⟩

theorem printable_hintedElement : hintedElement.Printable := by
  have hname : IsMarkupName "a" := by decide
  exact ⟨hname, ⟨by simp [Entries.Distinct], by decide, ⟨trivial, trivial, trivial⟩, nofun⟩,
    by decide, trivial⟩

theorem parse_hintedElement :
    hintedElement.Printable ∧ hintedElement.height ≤ depthLimit ∧
      ∃ text, hintedElement.serialize 2 = .ok text ∧ hasHint false text.toList = true ∧
        opensWithExtends hintedElement = false ∧
        ∃ found after, parseWithin depthLimit text ⟨0⟩ = .ok (found, after) ∧
          found.same hintedElement.withoutOff = true := by
  have hheight : hintedElement.height ≤ depthLimit := by decide
  obtain ⟨text, htext, hparse⟩ := parseWithin_print printable_hintedElement 2 hheight ⟨0⟩
  obtain rfl : text = "<a b=\"() => 1\">class of its own</a>" := by
    have hprinted : hintedElement.serialize 2 = .ok "<a b=\"() => 1\">class of its own</a>" := by
      decide
    rw [hprinted] at htext
    exact (Except.ok.inj htext).symm
  obtain ⟨found, after, hfound, _, hsame⟩ := hparse fun h => absurd h (by decide)
  exact ⟨printable_hintedElement, hheight, _, htext, by decide, by decide, found, after, hfound, hsame⟩

/-- An element whose strings can be taken for an arrow function with a comment behind it. -/
def trailingElement : Node :=
  ⟨.named "a", [("extends", .boolean true), ("b", .string "\\"), ("c", .string ">()=>d // ")], [], ""⟩

/-- The text of a printable tree need not be parsed back: no markup is found in it. -/
theorem parse_trailingElement :
    trailingElement.Printable ∧
      trailingElement.serialize 2 = .ok "<a extends b=\"\\\" c=\">()=>d // \" />" ∧
      ¬ ∃ found after,
        parse "<a extends b=\"\\\" c=\">()=>d // \" />" ⟨0⟩ = .ok (found, after) := by
  have hname : IsMarkupName "a" := by decide
  refine ⟨⟨hname, ⟨by simp [Entries.Distinct], by decide,
    ⟨trivial, trivial, trivial, trivial⟩, nofun⟩, trivial⟩, by decide, ?_⟩
  rintro ⟨found, after, hfound⟩
  have hfails : (parse "<a extends b=\"\\\" c=\">()=>d // \" />" ⟨0⟩).isOk = false := by
    decide +kernel
  rw [hfound] at hfails
  cases hfails

end EditableMarkup.Source
