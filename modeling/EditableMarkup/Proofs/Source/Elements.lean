import EditableMarkup.Proofs.Source.Lines

/-!
# Reading printed elements

A printed node is read as one element or one fragment, which is turned into the
node again.  The proof goes along the tree: the lines of the children are read
as the children, and the tags around them leave no choice.
-/

namespace EditableMarkup.Source

open EditableMarkup.Grammar EditableMarkup.Grammar.Reader EditableMarkup.Grammar.Place
open EditableMarkup.Grammar.Rule

variable {free : Prop}

/-! ## What the children stand for -/

/-- Children are turned into what the contents are read back as, if they have levels enough. -/
theorem contentsOf_all {forms : List (Child Form)} {contents : List (Content Node)}
    (h : List.Forall₂ ChildMeans forms contents) {levels : Nat}
    (hheight : Node.heightAll contents ≤ levels) (supply : Supply) :
    ∃ found after, contentsOf levels supply forms = .ok (found, after) ∧
      Node.unlabelledAll found = Node.rereadAll contents := by
  induction h generalizing supply with
  | nil => exact ⟨[], supply, rfl, rfl⟩
  | @cons form content forms contents hform hrest ih =>
      cases hform with
      | @text slice text htext =>
          obtain ⟨found, after, hfound, hreread⟩ := ih hheight supply
          refine ⟨.text text :: found, after, ?_, congrArg _ hreread⟩
          rw [contentsOf, hfound, htext]
          rfl
      | @braces form content htidy hcontent hplain =>
          cases content with
          | text text =>
              obtain ⟨found, after, hfound, hreread⟩ := ih hheight supply
              refine ⟨.text text :: found, after, ?_, congrArg _ hreread⟩
              rw [contentsOf, hcontent, hfound]
              rfl
          | expression source =>
              obtain ⟨found, after, hfound, hreread⟩ := ih hheight supply
              refine ⟨.expression source :: found, after, ?_, congrArg _ hreread⟩
              rw [contentsOf, hcontent, hfound]
              rfl
          | node node => cases hplain
      | @markup form node stands =>
          rw [Node.heightAll] at hheight
          obtain ⟨first, between, hfirst, hsame⟩ := stands.converted levels supply (by omega)
          obtain ⟨found, after, hfound, hreread⟩ := ih (by omega) between
          refine ⟨.node first :: found, after, ?_, ?_⟩
          · rw [contentsOf, hfirst]
            simp only [hfound, bind, Except.bind]
            rfl
          · rw [Node.unlabelledAll, Node.rereadAll, hsame, hreread]

/-- Children that stand for contents obey the rules on markup. -/
theorem tidy_children {forms : List (Child Form)} {contents : List (Content Node)}
    (h : List.Forall₂ ChildMeans forms contents) :
    ∀ occurrence ∈ occurrencesInChildren forms, ∀ source,
      violation? source occurrence = none := by
  induction h with
  | nil =>
      intro occurrence hoccurrence
      cases hoccurrence
  | cons hform hrest ih =>
      intro occurrence hoccurrence
      cases hform with
      | text htext => exact ih occurrence hoccurrence
      | braces htidy hcontent hplain =>
          rcases List.mem_append.mp hoccurrence with hfirst | hbehind
          · exact htidy occurrence hfirst
          · exact ih occurrence hbehind
      | markup stands =>
          rcases List.mem_append.mp hoccurrence with hfirst | hbehind
          · exact stands.tidy occurrence hfirst
          · exact ih occurrence hbehind

/-! ## What elements stand for -/

section Stands

variable {tag : Tag} {attributes : Entries Value} {contents : List (Content Node)} {id : String}

/-- The attributes of a printed tag are collected again. -/
theorem attributesOf_kept (hlegible : AttributesLegible free tag attributes)
    {forms : List (Attribute Form)}
    (h : List.Forall₂ AttributeMeans forms ((Entries.kept attributes).map rereadEntry)) :
    attributesOf [] forms = .ok (Value.rereadAll (Entries.kept attributes)) := by
  have hdistinct : Entries.Distinct ([] ++ (Entries.kept attributes).map rereadEntry) := by
    rw [List.nil_append, Entries.Distinct, List.map_map]
    exact hlegible.kept.distinct
  rw [rereadAll_eq]
  simpa using attributesOf_all h [] hdistinct

/-- A node that is made of what the parts of another one are read back as. -/
theorem unlabelled_freshNode {found : List (Content Node)}
    (hlegible : Node.ChildrenLegible free contents)
    (hfound : Node.unlabelledAll found = Node.rereadAll contents) (supply : Supply) :
    (freshNode tag (Value.rereadAll (Entries.kept attributes)) found supply).1.unlabelled =
      Node.reread ⟨tag, attributes, contents, id⟩ := by
  rw [freshNode, Node.unlabelled, Node.reread, Node.unlabelledAll_withoutBlankTexts, hfound,
    hlegible.withoutBlankTexts_rereadAll]

theorem stands_fragment (hlegible : Node.Legible free ⟨.fragment, attributes, contents, id⟩)
    {slice : Slice} {forms : List (Child Form)} (h : List.Forall₂ ChildMeans forms contents) :
    Stands (.fragment slice forms) ⟨.fragment, attributes, contents, id⟩ where
  isMarkup := rfl
  tidy := by
    intro occurrence hoccurrence source
    rw [occurrences] at hoccurrence
    rcases List.mem_cons.mp hoccurrence with rfl | hinside
    · rfl
    · exact tidy_children h occurrence hinside source
  printable := hlegible.mono fun _ _ => trivial
  converted := by
    intro levels supply hheight
    rw [Node.height] at hheight
    obtain ⟨_, hattributes, hcontents⟩ := hlegible
    obtain rfl : attributes = [] := hattributes.fragment rfl
    obtain ⟨found, after, hfound, hreread⟩ :=
      contentsOf_all h (show Node.heightAll contents ≤ levels - 1 by omega) supply
    have hlevels : levels ≠ 0 := by omega
    have hnode : nodeOf levels supply (.fragment slice forms) =
        .ok (freshNode .fragment [] found after) := by
      simp [nodeOf, hlevels, hfound, bind, Except.bind, pure, Except.pure]
    exact ⟨_, _, hnode, @unlabelled_freshNode _ .fragment [] _ _ _ hcontents hreread after⟩

theorem stands_selfClosed {name : String}
    (hlegible : Node.Legible free ⟨.named name, attributes, [], id⟩) {slice word : Slice}
    (hword : word.text = name) {forms : List (Attribute Form)}
    (h : List.Forall₂ AttributeMeans forms ((Entries.kept attributes).map rereadEntry)) :
    Stands (.selfClosed slice (.simple word) forms) ⟨.named name, attributes, [], id⟩ where
  isMarkup := rfl
  tidy := by
    intro occurrence hoccurrence source
    rw [occurrences] at hoccurrence
    rcases List.mem_cons.mp hoccurrence with rfl | hinside
    · rfl
    · exact tidy_attributes h occurrence hinside source
  printable := hlegible.mono fun _ _ => trivial
  converted := by
    intro levels supply hheight
    rw [Node.height] at hheight
    obtain ⟨_, hattributes, hcontents⟩ := hlegible
    have hentries := attributesOf_kept hattributes h
    have hlevels : levels ≠ 0 := by omega
    have hnode : nodeOf levels supply (.selfClosed slice (.simple word) forms) =
        .ok (freshNode (.named name) (Value.rereadAll (Entries.kept attributes)) [] supply) := by
      simp [nodeOf, hlevels, hentries, tagOf, hword, bind, Except.bind, pure, Except.pure]
    exact ⟨_, _, hnode, unlabelled_freshNode hcontents rfl supply⟩

theorem stands_element {name : String}
    (hlegible : Node.Legible free ⟨.named name, attributes, contents, id⟩)
    {slice word closing : Slice} (hword : word.text = name) (hclosing : closing.text = name)
    {forms : List (Attribute Form)} {children : List (Child Form)}
    (h : List.Forall₂ AttributeMeans forms ((Entries.kept attributes).map rereadEntry))
    (hchildren : List.Forall₂ ChildMeans children contents) :
    Stands (.element slice (.simple word) forms children (.simple closing))
      ⟨.named name, attributes, contents, id⟩ where
  isMarkup := rfl
  tidy := by
    intro occurrence hoccurrence source
    rw [occurrences] at hoccurrence
    rcases List.mem_cons.mp hoccurrence with rfl | hinside
    · have hsame : ElementName.text (.simple word) = ElementName.text (.simple closing) :=
        hword.trans hclosing.symm
      rw [violation?, if_pos hsame]
    · rcases List.mem_append.mp hinside with hattribute | hchild
      · exact tidy_attributes h occurrence hattribute source
      · exact tidy_children hchildren occurrence hchild source
  printable := hlegible.mono fun _ _ => trivial
  converted := by
    intro levels supply hheight
    rw [Node.height] at hheight
    obtain ⟨_, hattributes, hcontents⟩ := hlegible
    have hentries := attributesOf_kept hattributes h
    obtain ⟨found, after, hfound, hreread⟩ :=
      contentsOf_all hchildren (show Node.heightAll contents ≤ levels - 1 by omega) supply
    have hlevels : levels ≠ 0 := by omega
    have hnode : nodeOf levels supply
        (.element slice (.simple word) forms children (.simple closing)) =
        .ok (freshNode (.named name) (Value.rereadAll (Entries.kept attributes)) found after) := by
      simp [nodeOf, hlevels, hentries, hfound, tagOf, hword, bind, Except.bind, pure, Except.pure]
    exact ⟨_, _, hnode, unlabelled_freshNode hcontents hreread after⟩

end Stands

/-! ## Tags -/

/-- A text in front of a closing tag is read as children of some kinds, up to the tag. -/
def EnclosedBefore (free : Prop) (inner rest : List Char) (kinds : List (Child Form → Prop)) :
    Prop :=
  Offers free Rule.inside (of (inner ++ '<' :: '/' :: rest)) (inner.length + 1)
    (fun inside => AreOf inside.children kinds) (Fails (Reader.sign "/"))

/-- A text between two tags is read as children for some contents, up to the closing tag. -/
def Enclosed (free : Prop) (inner : List Char) (contents : List (Content Node)) : Prop :=
  ∀ rest, Lexeme.skipped ('/' :: rest) = none → EnclosedBefore free inner rest (meanings contents)

theorem LinesBefore.enclosed {behindText : Bool} {chars ending rest : List Char}
    {kinds : List (Child Form → Prop)}
    (lines : LinesBefore free (ending ++ '<' :: '/' :: rest) behindText chars kinds)
    (hending : ∀ c ∈ ending, Lexeme.isSpace c = true) (hfirm : Lexeme.skipped ('/' :: rest) = none) :
    EnclosedBefore free (chars ++ ending) rest kinds := by
  rw [EnclosedBefore, List.append_assoc, List.length_append, Nat.add_assoc]
  exact lines.offers_inside hending hfirm

theorem Lines.enclosed {behindText : Bool} {chars : List Char} {contents : List (Content Node)}
    (lines : Lines free behindText chars contents) {ending : List Char}
    (hending : ∀ c ∈ ending, Lexeme.isSpace c = true) : Enclosed free (chars ++ ending) contents :=
  fun _ hfirm => (lines _).enclosed hending hfirm

section Tags

variable {place : Place} {lead : Nat} {inner rest : List Char} {attributes : Entries Value}
  {kinds : List (Child Form → Prop)} {kind : Form → Prop}

/-- A fragment with children of some kinds is read as one fragment. -/
theorem settles_fragment (enclosed : EnclosedBefore free inner ('>' :: rest) kinds)
    (hkind : ∀ slice children, AreOf children kinds → kind (.fragment slice children))
    (faces : place.Faces lead ('<' :: '>' :: (inner ++ '<' :: '/' :: '>' :: rest))) :
    Settles free Rule.fragment place (lead + 1 + (0 + 1 + (inner.length + 1 + (0 + 1 + (0 + 1)))))
      (fun found => kind found.form) := by
  have hclose : (of ('>' :: (inner ++ '<' :: '/' :: '>' :: rest))).Faces 0
      ('>' :: (inner ++ '<' :: '/' :: '>' :: rest)) := .of_firm rfl
  have hslash : (of ('/' :: '>' :: rest)).Faces 0 ('/' :: '>' :: rest) := .of_firm rfl
  have hend : (of ('>' :: rest)).Faces 0 ('>' :: rest) := .of_firm rfl
  have hplace : (of (inner ++ '<' :: '/' :: '>' :: rest)).advance (inner.length + 1) =
      of ('/' :: '>' :: rest) := by
    rw [advance_add, advance_of, List.drop_left]
    rfl
  refine Offers.slicedAny ?_
  refine (settles_sign faces rfl rfl).andThen fun _ _ => ?_
  rw [faces.advance (by omega)]
  refine (settles_sign hclose rfl rfl).andThen fun _ _ => ?_
  rw [hclose.advance (by decide)]
  refine enclosed.bind (fun _ _ hfails => fails_bind hfails) fun inside hinside => ?_
  rw [hplace]
  refine (settles_sign hslash rfl rfl).andThen fun _ _ => ?_
  rw [hslash.advance (by decide)]
  exact (settles_sign hend rfl rfl).returning fun _ _ slice => hkind slice _ hinside

/-- The name and the attributes of a tag are read as they are printed. -/
theorem settles_opening {α : Type} {name : String} (hname : IsMarkupName name)
    (hattributes : AttributesLegible free (.named name) attributes) {tail : List Char}
    (ends : TagEnds tail)
    (faces : place.Faces lead
      ('<' :: (name.toList ++ ((Entries.kept attributes).flatMap attributeChars ++ tail))))
    {ending : ElementName → List (Attribute Form) → Reader α} {count : Nat} {kind : α → Prop}
    (hdead : ∀ name forms place, Unfinished place → Fails (ending name forms) place)
    (next : ∀ word forms, word.text = name →
      List.Forall₂ AttributeMeans forms ((Entries.kept attributes).map rereadEntry) →
      Settles free (ending (.simple word) forms) (of tail) count kind) :
    Settles free
      (do
        Reader.sign "<"
        let name ← elementName
        let attributes ← many elementAttribute
        ending name attributes)
      place
      (lead + 1 + (0 + name.toList.length +
        (((Entries.kept attributes).flatMap attributeChars).length + count))) kind := by
  have hkept := hattributes.kept
  have hvalues : ∀ entry ∈ Entries.kept attributes,
      entry.2.Legible free ∧ entry.2.isOff = false := by
    intro entry hentry
    refine ⟨hkept.values.mem entry hentry, ?_⟩
    simpa using (List.mem_filter.mp hentry).2
  have htagRest := tagRest_attributes hkept.names ends.tagRest
  obtain ⟨c, more, hopens, hc⟩ := startsName_of_markupName hname
  have hword : (of (name.toList ++ ((Entries.kept attributes).flatMap attributeChars ++
      tail))).Faces 0 (name.toList ++ ((Entries.kept attributes).flatMap attributeChars ++ tail)) := by
    refine .of_firm ?_
    rw [hopens]
    exact skipped_of_startsName hc _
  have hpos : 0 < name.toList.length := by
    rw [hopens]
    simp
  refine (settles_sign faces rfl rfl).andThen fun _ _ => ?_
  rw [faces.advance (by omega)]
  refine (settles_elementName hname htagRest hword).andThen ?_
  rintro found rfl
  have hplace : (of (name.toList ++ ((Entries.kept attributes).flatMap attributeChars ++
      tail))).advance (0 + name.toList.length) =
      of ((Entries.kept attributes).flatMap attributeChars ++ tail) := by
    rw [hword.advance (by omega), List.drop_left]
  have hend : (of ((Entries.kept attributes).flatMap attributeChars ++ tail)).advance
      ((Entries.kept attributes).flatMap attributeChars).length = of tail := by
    rw [advance_of, List.drop_left]
  rw [hplace]
  refine (offers_attributes hkept.names hvalues ends).bind (fun _ _ => hdead _ _ _) ?_
  intro forms hforms
  rw [hend]
  refine next _ _ ?_ hforms
  rw [Slice.text_of_append, String.ofList_toList]

/-- Where a tag does not end, neither of its endings is read. -/
theorem Unfinished.fails {α : Type} {closed : Unit → Reader α} {selfClosed : Unit → Reader α}
    (unfinished : Unfinished place) :
    Fails (Reader.oneOf [Reader.sign ">" >>= closed, Reader.sign "/" >>= selfClosed]) place := by
  refine fails_oneOf ?_
  intro other hother
  simp only [List.mem_cons, List.not_mem_nil, or_false] at hother
  rcases hother with rfl | rfl
  · exact fails_bind unfinished.1
  · exact fails_bind unfinished.2

/-- A printed element without children is read as an element that closes itself. -/
theorem settles_selfClosed {name id : String}
    (hlegible : Node.Legible free ⟨.named name, attributes, [], id⟩)
    (faces : place.Faces lead
      ('<' :: (name.toList ++ ((Entries.kept attributes).flatMap attributeChars ++
        (' ' :: '/' :: '>' :: rest))))) :
    Settles free elementMarkup place
      (lead + 1 + (0 + name.toList.length +
        (((Entries.kept attributes).flatMap attributeChars).length + (1 + 1 + (0 + 1)))))
      (fun found => Stands found.form ⟨.named name, attributes, [], id⟩) := by
  refine Offers.slicedAny ?_
  refine settles_opening hlegible.1 hlegible.2.1 (.slash rest) faces ?_ ?_
  · exact fun _ _ _ unfinished => unfinished.fails
  · intro word forms hword hforms
    have hslash : (of ([' '] ++ '/' :: '>' :: rest)).Faces 1 ('/' :: '>' :: rest) :=
      .of_spaces (by simp [Lexeme.isSpace]) rfl
    have hclose : (of ('>' :: rest)).Faces 0 ('>' :: rest) := .of_firm rfl
    have hmade : Settles free
        (do
          Reader.sign "/"
          Reader.sign ">"
          return fun slice =>
            { form := .selfClosed slice (.simple word) forms, closing := [], inside := [] } :
          Reader (Slice → Tagged))
        (of ([' '] ++ '/' :: '>' :: rest)) (1 + 1 + (0 + 1))
        (fun make => ∀ slice, Stands (make slice).form ⟨.named name, attributes, [], id⟩) := by
      refine (settles_sign hslash rfl rfl).andThen fun _ _ => ?_
      rw [hslash.advance (by omega)]
      exact (settles_sign hclose rfl rfl).returning fun _ _ slice =>
        stands_selfClosed hlegible hword hforms
    refine hmade.choose (by simp) ?_
    intro other hother
    simp only [List.mem_cons, List.not_mem_nil, or_false] at hother
    rcases hother with rfl | rfl
    · exact Or.inr ((starts_sign rfl).bind _ _ _ hslash (barred_singleton.mpr rfl))
    · exact Or.inl rfl

/-- Behind a slash, a name opens no comment. -/
theorem skipped_slash_markupName {name : String} (hname : IsMarkupName name) (rest : List Char) :
    Lexeme.skipped ('/' :: (name.toList ++ rest)) = none := by
  obtain ⟨c, more, hopens, hc⟩ := startsName_of_markupName hname
  rw [hopens]
  exact skipped_slash_of_startsName hc _

/-- An element with children of some kinds is read as an element with a closing tag, whatever the
name in this tag is. -/
theorem settles_element {name other : String} (hname : IsMarkupName name)
    (hother : IsMarkupName other) (hattributes : AttributesLegible free (.named name) attributes)
    (enclosed : EnclosedBefore free inner (other.toList ++ '>' :: rest) kinds)
    (hkind : ∀ slice word forms children, word.text = name →
      List.Forall₂ AttributeMeans forms ((Entries.kept attributes).map rereadEntry) →
      AreOf children kinds → kind (.element slice (.simple word) forms children
        (.simple ⟨other.toList ++ '>' :: rest, other.toList.length⟩)))
    (faces : place.Faces lead
      ('<' :: (name.toList ++ ((Entries.kept attributes).flatMap attributeChars ++
        ('>' :: (inner ++ '<' :: '/' :: (other.toList ++ '>' :: rest))))))) :
    Settles free elementMarkup place
      (lead + 1 + (0 + name.toList.length +
        (((Entries.kept attributes).flatMap attributeChars).length +
          (0 + 1 + (inner.length + 1 + (0 + 1 + (0 + other.toList.length + (0 + 1))))))))
      (fun found => kind found.form) := by
  refine Offers.slicedAny ?_
  refine settles_opening hname hattributes (.close _) faces ?_ ?_
  · exact fun _ _ _ unfinished => unfinished.fails
  · intro word forms hword hforms
    obtain ⟨c, more, hopens, hc⟩ := startsName_of_markupName hother
    have hclosing : (of (other.toList ++ '>' :: rest)).Faces 0 (other.toList ++ '>' :: rest) := by
      refine .of_firm ?_
      rw [hopens]
      exact skipped_of_startsName hc _
    have hclose : (of ('>' :: (inner ++ '<' :: '/' :: (other.toList ++ '>' :: rest)))).Faces 0
        ('>' :: (inner ++ '<' :: '/' :: (other.toList ++ '>' :: rest))) := .of_firm rfl
    have hslash : (of ('/' :: (other.toList ++ '>' :: rest))).Faces 0
        ('/' :: (other.toList ++ '>' :: rest)) := .of_firm (skipped_slash_markupName hother _)
    have hplace : (of (inner ++ '<' :: '/' :: (other.toList ++ '>' :: rest))).advance
        (inner.length + 1) = of ('/' :: (other.toList ++ '>' :: rest)) := by
      rw [advance_add, advance_of, List.drop_left]
      rfl
    have hmade : Settles free
        (do
          Reader.sign ">"
          let inside ← inside
          Reader.sign "/"
          let closing ← elementName
          Reader.sign ">"
          return fun slice =>
            { form := .element slice (.simple word) forms inside.children closing
              closing := inside.closing, inside := inside.arrivals } : Reader (Slice → Tagged))
        (of ('>' :: (inner ++ '<' :: '/' :: (other.toList ++ '>' :: rest))))
        (0 + 1 + (inner.length + 1 + (0 + 1 + (0 + other.toList.length + (0 + 1)))))
        (fun make => ∀ slice, kind (make slice).form) := by
      refine (settles_sign hclose rfl rfl).andThen fun _ _ => ?_
      rw [hclose.advance (by omega)]
      refine enclosed.bind (fun _ _ hfails => fails_bind hfails) fun found hfound => ?_
      rw [hplace]
      refine (settles_sign hslash rfl rfl).andThen fun _ _ => ?_
      rw [hslash.advance (by omega)]
      refine (settles_elementName hother (tagRest_close rest) hclosing).andThen ?_
      rintro closing rfl
      have hend : (of (other.toList ++ '>' :: rest)).advance (0 + other.toList.length) =
          of ('>' :: rest) := by
        rw [Nat.zero_add, advance_of, List.drop_left]
      rw [hend]
      exact (settles_sign (.of_firm rfl) rfl rfl).returning fun _ _ slice =>
        hkind slice word forms _ hword hforms hfound
    refine hmade.choose (List.mem_cons_self ..) ?_
    intro other hother
    simp only [List.mem_cons, List.not_mem_nil, or_false] at hother
    rcases hother with rfl | rfl
    · exact Or.inl rfl
    · exact Or.inr ((starts_sign rfl).bind _ _ _ (.of_firm rfl) (barred_singleton.mpr rfl))

/-- Behind an angle bracket something fails to be read. -/
theorem fails_bracket {α : Type} {second : Unit → Reader α} {text : List Char}
    (faces : place.Faces lead ('<' :: text)) (h : ∀ value, Fails (second value) (of text)) :
    Fails (Reader.sign "<" >>= second) place := by
  have hbracket : Settles True (Reader.sign "<") place (lead + 1) fun _ => True :=
    settles_sign faces rfl rfl
  refine fails_bind_of_fails fun before hbefore => ?_
  rcases hbracket.only before hbefore with ⟨hused, _⟩ | hfalse
  · rw [hused, faces.advance (by omega)]
    exact h before.value
  · exact hfalse.elim

end Tags

/-! ## Printed nodes -/

section Marked

variable {inner rest : List Char} {contents : List (Content Node)} {attributes : Entries Value}
  {kinds : List (Child Form → Prop)} {kind : Form → Prop} {id : String}

theorem marked_of_markup {front : List Char} {c : Char} {more : List Char}
    (hfront : front = '<' :: c :: more) (hc : Lexeme.startsName c = true ∨ c = '>')
    (hlast : ∃ more, front = more ++ ['>'])
    (h : ∀ blank, (∀ c ∈ blank, Lexeme.isSpace c = true) →
      Settles free Rule.markup (bare (blank ++ (front ++ rest))) (blank.length + front.length)
        (fun found => kind found.form)) : MarkedBefore free front rest kind where
  opens := ⟨c, more, hfront, hc⟩
  closes := hlast
  settles blank hblank := by
    have hne : blank ++ (front ++ rest) ≠ [] := by simp [hfront]
    exact (h blank hblank).transfer (tagged_of hne) fun _ => Iff.rfl

/-- A fragment around children of some kinds is marked. -/
theorem markedBefore_fragment (enclosed : EnclosedBefore free inner ('>' :: rest) kinds)
    (hkind : ∀ slice children, AreOf children kinds → kind (.fragment slice children)) :
    MarkedBefore free ('<' :: '>' :: (inner ++ ['<', '/', '>'])) rest kind := by
  have hlast : '<' :: '>' :: (inner ++ ['<', '/', '>']) =
      '<' :: '>' :: (inner ++ ['<', '/']) ++ ['>'] := by simp
  refine marked_of_markup rfl (Or.inr rfl) ⟨_, hlast⟩ fun blank hblank => ?_
  have hsplit : '<' :: '>' :: (inner ++ ['<', '/', '>']) ++ rest =
      '<' :: '>' :: (inner ++ '<' :: '/' :: '>' :: rest) := by simp
  rw [hsplit]
  have hfaces : (bare (blank ++ '<' :: '>' :: (inner ++ '<' :: '/' :: '>' :: rest))).Faces
      blank.length ('<' :: '>' :: (inner ++ '<' :: '/' :: '>' :: rest)) :=
    Faces.transfer (.of_spaces hblank rfl) (shows_bare _)
  have hlength : blank.length + ('<' :: '>' :: (inner ++ ['<', '/', '>'])).length =
      blank.length + 1 + (0 + 1 + (inner.length + 1 + (0 + 1 + (0 + 1)))) := by
    simp only [List.length_cons, List.length_append, List.length_nil]
    omega
  rw [hlength]
  refine (settles_fragment enclosed hkind hfaces).choose (by simp) ?_
  intro other hother
  simp only [List.mem_cons, List.not_mem_nil, or_false] at hother
  rcases hother with rfl | rfl
  · refine Or.inr (fails_sliced (fails_bracket hfaces fun _ => ?_))
    refine starts_elementName.bind _ _ _ (.of_firm rfl) ?_
    simp only [barred_cons, barred_nil, and_true]
    and_intros <;> rfl
  · exact Or.inl rfl

/-- A fragment around children for some contents is marked. -/
theorem marked_fragment (hlegible : Node.Legible free ⟨.fragment, attributes, contents, id⟩)
    (enclosed : Enclosed free inner contents) :
    Marked free ('<' :: '>' :: (inner ++ ['<', '/', '>'])) ⟨.fragment, attributes, contents, id⟩ :=
  fun _ => markedBefore_fragment (enclosed _ rfl) fun _ _ hchildren =>
    stands_fragment hlegible (areOf_meanings.mp hchildren)

/-- No fragment is read where a tag has a name. -/
theorem fails_fragment {name : String} (hname : IsMarkupName name) {place : Place} {lead : Nat}
    {rest : List Char} (faces : place.Faces lead ('<' :: (name.toList ++ rest))) :
    Fails Rule.fragment place := by
  obtain ⟨c, more, hopens, hc⟩ := startsName_of_markupName hname
  refine fails_sliced (fails_bracket faces fun _ => ?_)
  refine (starts_sign rfl).bind _ 0 (name.toList ++ rest) (.of_firm ?_)
    (barred_singleton.mpr (sign_markupName hname rfl rest))
  rw [hopens]
  exact skipped_of_startsName hc _

/-- An element without children is marked. -/
theorem marked_selfClosed {name : String}
    (hlegible : Node.Legible free ⟨.named name, attributes, [], id⟩) :
    Marked free ('<' :: (name.toList ++ ((Entries.kept attributes).flatMap attributeChars ++
      [' ', '/', '>']))) ⟨.named name, attributes, [], id⟩ := by
  have hname : IsMarkupName name := hlegible.1
  obtain ⟨c, more, hopens, hc⟩ := startsName_of_markupName hname
  have hlast : '<' :: (name.toList ++ ((Entries.kept attributes).flatMap attributeChars ++
      [' ', '/', '>'])) = '<' :: (name.toList ++ ((Entries.kept attributes).flatMap attributeChars ++
        [' ', '/'])) ++ ['>'] := by simp
  refine fun rest => marked_of_markup (by rw [hopens]; rfl) (Or.inl hc) ⟨_, hlast⟩
    fun blank hblank => ?_
  have hsplit : '<' :: (name.toList ++ ((Entries.kept attributes).flatMap attributeChars ++
      [' ', '/', '>'])) ++ rest =
      '<' :: (name.toList ++ ((Entries.kept attributes).flatMap attributeChars ++
        (' ' :: '/' :: '>' :: rest))) := by simp
  rw [hsplit]
  have hfaces : (bare (blank ++ '<' :: (name.toList ++ ((Entries.kept attributes).flatMap
      attributeChars ++ (' ' :: '/' :: '>' :: rest))))).Faces blank.length
      ('<' :: (name.toList ++ ((Entries.kept attributes).flatMap attributeChars ++
        (' ' :: '/' :: '>' :: rest)))) :=
    Faces.transfer (.of_spaces hblank rfl) (shows_bare _)
  have hlength : blank.length + ('<' :: (name.toList ++ ((Entries.kept attributes).flatMap
      attributeChars ++ [' ', '/', '>']))).length =
      blank.length + 1 + (0 + name.toList.length +
        (((Entries.kept attributes).flatMap attributeChars).length + (1 + 1 + (0 + 1)))) := by
    simp only [List.length_cons, List.length_append, List.length_nil]
    omega
  rw [hlength]
  refine (settles_selfClosed hlegible hfaces).choose (List.mem_cons_self ..) ?_
  intro other hother
  simp only [List.mem_cons, List.not_mem_nil, or_false] at hother
  rcases hother with rfl | rfl
  · exact Or.inl rfl
  · exact Or.inr (fails_fragment hname hfaces)

/-- An element around children of some kinds is marked, whatever the name in its closing tag is. -/
theorem markedBefore_element {name other : String} (hname : IsMarkupName name)
    (hother : IsMarkupName other) (hattributes : AttributesLegible free (.named name) attributes)
    (enclosed : EnclosedBefore free inner (other.toList ++ '>' :: rest) kinds)
    (hkind : ∀ slice word forms children, word.text = name →
      List.Forall₂ AttributeMeans forms ((Entries.kept attributes).map rereadEntry) →
      AreOf children kinds → kind (.element slice (.simple word) forms children
        (.simple ⟨other.toList ++ '>' :: rest, other.toList.length⟩))) :
    MarkedBefore free ('<' :: (name.toList ++ ((Entries.kept attributes).flatMap attributeChars ++
      '>' :: (inner ++ '<' :: '/' :: (other.toList ++ ['>']))))) rest kind := by
  obtain ⟨c, more, hopens, hc⟩ := startsName_of_markupName hname
  have hlast : '<' :: (name.toList ++ ((Entries.kept attributes).flatMap attributeChars ++
      '>' :: (inner ++ '<' :: '/' :: (other.toList ++ ['>'])))) =
      '<' :: (name.toList ++ ((Entries.kept attributes).flatMap attributeChars ++
        '>' :: (inner ++ '<' :: '/' :: other.toList))) ++ ['>'] := by simp
  refine marked_of_markup (by rw [hopens]; rfl) (Or.inl hc) ⟨_, hlast⟩ fun blank hblank => ?_
  have hsplit : '<' :: (name.toList ++ ((Entries.kept attributes).flatMap attributeChars ++
      '>' :: (inner ++ '<' :: '/' :: (other.toList ++ ['>'])))) ++ rest =
      '<' :: (name.toList ++ ((Entries.kept attributes).flatMap attributeChars ++
        '>' :: (inner ++ '<' :: '/' :: (other.toList ++ '>' :: rest)))) := by simp
  rw [hsplit]
  have hfaces : (bare (blank ++ '<' :: (name.toList ++ ((Entries.kept attributes).flatMap
      attributeChars ++ '>' :: (inner ++ '<' :: '/' :: (other.toList ++ '>' :: rest)))))).Faces
      blank.length ('<' :: (name.toList ++ ((Entries.kept attributes).flatMap attributeChars ++
        '>' :: (inner ++ '<' :: '/' :: (other.toList ++ '>' :: rest))))) :=
    Faces.transfer (.of_spaces hblank rfl) (shows_bare _)
  have hlength : blank.length + ('<' :: (name.toList ++ ((Entries.kept attributes).flatMap
      attributeChars ++ '>' :: (inner ++ '<' :: '/' :: (other.toList ++ ['>']))))).length =
      blank.length + 1 + (0 + name.toList.length +
        (((Entries.kept attributes).flatMap attributeChars).length +
          (0 + 1 + (inner.length + 1 + (0 + 1 + (0 + other.toList.length + (0 + 1))))))) := by
    simp only [List.length_cons, List.length_append, List.length_nil]
    omega
  rw [hlength]
  refine (settles_element hname hother hattributes enclosed hkind hfaces).choose
    (List.mem_cons_self ..) ?_
  intro reader hreader
  simp only [List.mem_cons, List.not_mem_nil, or_false] at hreader
  rcases hreader with rfl | rfl
  · exact Or.inl rfl
  · exact Or.inr (fails_fragment hname hfaces)

/-- An element around children for some contents is marked. -/
theorem marked_element {name : String}
    (hlegible : Node.Legible free ⟨.named name, attributes, contents, id⟩)
    (enclosed : Enclosed free inner contents) :
    Marked free ('<' :: (name.toList ++ ((Entries.kept attributes).flatMap attributeChars ++
      '>' :: (inner ++ '<' :: '/' :: (name.toList ++ ['>'])))))
      ⟨.named name, attributes, contents, id⟩ := by
  have hname : IsMarkupName name := hlegible.1
  intro rest
  refine markedBefore_element hname hname hlegible.2.1
    (enclosed _ (skipped_slash_markupName hname _)) fun slice word forms children hword hforms hchildren => ?_
  refine stands_element hlegible hword ?_ hforms (areOf_meanings.mp hchildren)
  rw [Slice.text_of_append, String.ofList_toList]

end Marked

end EditableMarkup.Source
