import EditableMarkup.Proofs.Source.Children

/-!
# Reading printed lines

The lines of the children of a node are read as these children.  A text that
stands as it is takes in the gap in front of the next line, so the place behind
a child may lie anywhere in the next gap.
-/

namespace EditableMarkup.Source

open EditableMarkup.Grammar EditableMarkup.Grammar.Reader EditableMarkup.Grammar.Place
open EditableMarkup.Grammar.Rule

variable {free : Prop}

/-! ## Lines -/

/-- Markup in front of a text: it opens with a tag and is read as one form of a kind. -/
structure MarkedBefore (free : Prop) (front rest : List Char) (kind : Form → Prop) : Prop where
  opens : ∃ c more, front = '<' :: c :: more ∧ (Lexeme.startsName c = true ∨ c = '>')
  closes : ∃ more, front = more ++ ['>']
  settles : ∀ blank, (∀ c ∈ blank, Lexeme.isSpace c = true) →
    Settles free Reader.tagged (of (blank ++ (front ++ rest))) (blank.length + front.length)
      (fun found => kind found.form)

/-- Markup as it is printed: wherever it stands, it is read as one form for its node. -/
def Marked (free : Prop) (front : List Char) (node : Node) : Prop :=
  ∀ rest, MarkedBefore free front rest (Stands · node)

theorem Marked.opens {front : List Char} {node : Node} (marked : Marked free front node) :
    ∃ c more, front = '<' :: c :: more ∧ (Lexeme.startsName c = true ∨ c = '>') :=
  (marked []).opens

theorem Marked.closes {front : List Char} {node : Node} (marked : Marked free front node) :
    ∃ more, front = more ++ ['>'] :=
  (marked []).closes

/-- Each child is of its kind. -/
abbrev AreOf (children : List (Child Form)) (kinds : List (Child Form → Prop)) : Prop :=
  List.Forall₂ (fun child kind => kind child) children kinds

/-- What children mean that stand for contents. -/
def meanings (contents : List (Content Node)) : List (Child Form → Prop) :=
  contents.map fun content child => ChildMeans child content

theorem meanings_cons (content : Content Node) (contents : List (Content Node)) :
    meanings (content :: contents) = (ChildMeans · content) :: meanings contents := rfl

theorem areOf_meanings {children : List (Child Form)} {contents : List (Content Node)} :
    AreOf children (meanings contents) ↔ List.Forall₂ ChildMeans children contents :=
  List.forall₂_map_right_iff

/-- Lines for children of some kinds, each behind a gap of spaces, in front of a text; the flag tells
whether a text that stands as it is comes before them. -/
inductive LinesBefore (free : Prop) (behind : List Char) :
    Bool → List Char → List (Child Form → Prop) → Prop where
  | nil {behindText : Bool} : LinesBefore free behind behindText [] []
  | text {gap : List Char} (hgap : ∀ c ∈ gap, Lexeme.isSpace c = true) {text : String}
      {chars : List Char} {kinds : List (Child Form → Prop)} (raw : Raw text.toList)
      (hblank : Text.isBlankText text = false) (rest : LinesBefore free behind true chars kinds) :
      LinesBefore free behind false (gap ++ (text.toList ++ chars))
        ((ChildMeans · (.text text)) :: kinds)
  | braces {gap : List Char} (hgap : ∀ c ∈ gap, Lexeme.isSpace c = true) {behindText later : Bool}
      {value : Value} {kind : Child Form → Prop} {chars : List Char}
      {kinds : List (Child Form → Prop)} (hlegible : value.Legible free)
      (hmeans : ∀ form, Means form value.reread → kind (.braces form))
      (rest : LinesBefore free behind later chars kinds) :
      LinesBefore free behind behindText (gap ++ '\x7b' :: (value.print.toList ++ '\x7d' :: chars))
        (kind :: kinds)
  | markup {gap : List Char} (hgap : ∀ c ∈ gap, Lexeme.isSpace c = true) {behindText later : Bool}
      {front : List Char} {formKind : Form → Prop} {kind : Child Form → Prop} {chars : List Char}
      {kinds : List (Child Form → Prop)}
      (marked : MarkedBefore free front (chars ++ behind) formKind)
      (hmeans : ∀ form, formKind form → kind (.markup form))
      (rest : LinesBefore free behind later chars kinds) :
      LinesBefore free behind behindText (gap ++ (front ++ chars)) (kind :: kinds)

/-- Lines that are read as children for some contents, whatever stands behind them. -/
def Lines (free : Prop) (behindText : Bool) (chars : List Char) (contents : List (Content Node)) :
    Prop :=
  ∀ behind, LinesBefore free behind behindText chars (meanings contents)

theorem Lines.nil {behindText : Bool} : Lines free behindText [] [] :=
  fun _ => .nil

theorem Lines.markup {gap : List Char} (hgap : ∀ c ∈ gap, Lexeme.isSpace c = true)
    {behindText later : Bool} {front : List Char} {node : Node} {chars : List Char}
    {contents : List (Content Node)} (marked : Marked free front node)
    (rest : Lines free later chars contents) :
    Lines free behindText (gap ++ (front ++ chars)) (.node node :: contents) :=
  fun behind => .markup hgap (marked _) (fun _ => .markup) (rest behind)

/-! ## Places in a gap -/

/-- Spaces in front of a text behind a gap lie in the gap. -/
theorem exists_gap {skipped remaining gap shown : List Char}
    (hskipped : ∀ c ∈ skipped, Lexeme.isSpace c = true) (hshown : Stops Lexeme.isSpace shown)
    (h : gap ++ shown = skipped ++ remaining) :
    ∃ left, gap = skipped ++ left ∧ remaining = left ++ shown := by
  rcases List.append_eq_append_iff.mp h with ⟨more, hskippedEq, hshownEq⟩ | ⟨left, hgap, hremaining⟩
  · cases more with
    | nil =>
        refine ⟨[], ?_, ?_⟩
        · simpa using hskippedEq.symm
        · simpa using hshownEq.symm
    | cons c more =>
        have hc := hskipped c (by simp [hskippedEq])
        rw [hshownEq] at hshown
        have hnot : Lexeme.isSpace c = false := hshown
        rw [hc] at hnot
        cases hnot
  · exact ⟨left, hgap, hremaining⟩

theorem stops_of_skipped {text : List Char} (h : Lexeme.skipped text = none) :
    Stops Lexeme.isSpace text := by
  have hrun := Lexeme.run_eq_zero_of_skipped_eq_none h
  cases text with
  | nil => rfl
  | cons c rest =>
      refine Bool.eq_false_iff.mpr fun hc => ?_
      have hspace : Lexeme.isSpace c = true := hc
      simp [Lexeme.run, hspace] at hrun

namespace LinesBefore

variable {ending : List Char}

/-- Behind a text that stands as it is, spaces lead up to a sign that ends it. -/
theorem exists_lead {rest chars : List Char} {kinds : List (Child Form → Prop)}
    (lines : LinesBefore free (ending ++ '<' :: rest) true chars kinds)
    (hending : ∀ c ∈ ending, Lexeme.isSpace c = true) :
    ∃ lead shown, chars ++ (ending ++ '<' :: rest) = lead ++ shown ∧
      (∀ c ∈ lead, Lexeme.isSpace c = true) ∧ Stops (fun c => !Lexeme.endsText c) shown := by
  cases lines with
  | nil => exact ⟨ending, '<' :: rest, rfl, hending, rfl⟩
  | @braces gap hgap _ _ _ _ _ _ hlegible hmeans lines =>
      exact ⟨gap, _, List.append_assoc .., hgap, rfl⟩
  | @markup gap hgap _ _ _ _ _ _ _ marked hmeans lines =>
      obtain ⟨c, more, rfl, _⟩ := marked.opens
      exact ⟨gap, _, List.append_assoc .., hgap, rfl⟩

end LinesBefore

/-! ## No closing tag -/

theorem astray_of_sign {place : Place} {lead : Nat} {text : List Char}
    (faces : place.Faces lead text) (h : Lexeme.sign "<" text = none) : Astray place :=
  fun reading hreading =>
    absurd hreading (starts_sign rfl _ _ _ faces (barred_singleton.mpr h) reading)

theorem skipped_of_opens {c : Char} (hc : Lexeme.startsName c = true ∨ c = '>')
    (rest : List Char) : Lexeme.skipped (c :: rest) = none := by
  rcases hc with hc | rfl
  · exact skipped_of_startsName hc rest
  · rfl

theorem sign_slash_of_opens {c : Char} (hc : Lexeme.startsName c = true ∨ c = '>')
    (rest : List Char) : Lexeme.sign "/" (c :: rest) = none := by
  rcases hc with hc | rfl
  · exact @Lexeme.sign_eq_none_of_head _ (fun c => !Lexeme.startsName c) _ _ rfl (by simp [hc])
  · rfl

/-- Markup does not close a tag. -/
theorem MarkedBefore.astray {front rest : List Char} {kind : Form → Prop}
    (marked : MarkedBefore free front rest kind) {blank : List Char}
    (hblank : ∀ c ∈ blank, Lexeme.isSpace c = true) : Astray (of (blank ++ (front ++ rest))) := by
  obtain ⟨c, more, rfl, hc⟩ := marked.opens
  have hfaces : (of (blank ++ ('<' :: c :: more ++ rest))).Faces blank.length
      ('<' :: c :: (more ++ rest)) := .of_spaces hblank rfl
  have hbracket : Settles free (Reader.sign "<") (of (blank ++ ('<' :: c :: more ++ rest)))
      (blank.length + 1) fun _ => True := settles_sign hfaces rfl rfl
  intro reading hreading
  rcases hbracket.only reading hreading with ⟨hused, _⟩ | hfalse
  · rw [hused, hfaces.advance (by omega)]
    exact starts_sign rfl _ _ _ (.of_firm (skipped_of_opens hc _))
      (barred_singleton.mpr (sign_slash_of_opens hc _))
  · exact hfalse.elim

/-! ## From line to line -/

/-- One more child is read behind some children. -/
theorem chain_child {whole front piece remaining : List Char}
    (hwhole : whole = front ++ (piece ++ remaining)) {last : Nat}
    {lastKind : List (Child Form) → Prop} {kind : Child Form → Prop}
    {done : List (Child Form → Prop)} (astray : Astray (of (piece ++ remaining)))
    (hpiece : 0 < piece.length)
    (settles : Settles free child (of (piece ++ remaining)) piece.length
      (fun found => kind found.child))
    (chain : RunChain free (of whole) last lastKind (front ++ piece).length
      (AreOf · (done ++ [kind]))) :
    RunChain free (of whole) last lastKind front.length (AreOf · done) := by
  have hplace : (of whole).advance front.length = of (piece ++ remaining) := by
    rw [hwhole, advance_of, List.drop_left]
  rw [List.length_append] at chain
  rw [← hplace] at astray settles
  refine @RunChain.next _ _ _ _ _ _ _ _ kind astray hpiece settles ?_ chain
  intro children found hchildren hfound
  exact List.rel_append hchildren (.cons hfound .nil)

/-- Children that are read one by one up to spaces in front of a closing tag. -/
theorem offers_inside_of_chain {before after rest : List Char} {kinds : List (Child Form → Prop)}
    (hafter : ∀ c ∈ after, Lexeme.isSpace c = true) (hfirm : Lexeme.skipped ('/' :: rest) = none)
    (chain : RunChain free (of (before ++ (after ++ '<' :: '/' :: rest))) before.length
      (AreOf · kinds) 0 (AreOf · [])) :
    Offers free Rule.inside (of (before ++ (after ++ '<' :: '/' :: rest)))
      (before.length + (after.length + 1)) (fun inside => AreOf inside.children kinds)
      (Fails (Reader.sign "/")) := by
  have hplace : (of (before ++ (after ++ '<' :: '/' :: rest))).advance before.length =
      of (after ++ '<' :: '/' :: rest) := by
    rw [advance_of, List.drop_left]
  have hfaces : (of (after ++ '<' :: '/' :: rest)).Faces after.length ('<' :: '/' :: rest) :=
    .of_spaces hafter rfl
  have hslash : Settles free (Reader.sign "/") (of ('/' :: rest)) (0 + 1) fun _ => True :=
    settles_sign (.of_firm hfirm) rfl rfl
  refine chain.offers_inside .nil ?_ ?_ ?_
  · rw [length_of, List.length_append]
    omega
  · rw [hplace]
    exact settles_sign hfaces rfl rfl
  · intro hfails
    obtain ⟨reading, hreading, _⟩ := hslash.reads
    rw [advance_add, hplace, hfaces.advance (by omega)] at hfails
    exact hfails reading hreading

namespace LinesBefore

variable {ending rest : List Char}

/-- From line to line the children are read, up to the closing tag. -/
theorem exists_chain (hending : ∀ c ∈ ending, Lexeme.isSpace c = true)
    (hfirm : Lexeme.skipped ('/' :: rest) = none) {behindText : Bool} {chars : List Char}
    {kinds : List (Child Form → Prop)}
    (lines : LinesBefore free (ending ++ '<' :: '/' :: rest) behindText chars kinds)
    {front skipped remaining : List Char} (done : List (Child Form → Prop))
    (hskipped : ∀ c ∈ skipped, Lexeme.isSpace c = true)
    (hsplit : chars ++ (ending ++ '<' :: '/' :: rest) = skipped ++ remaining) :
    ∃ before after, front ++ remaining = before ++ (after ++ '<' :: '/' :: rest) ∧
      (∀ c ∈ after, Lexeme.isSpace c = true) ∧
      RunChain free (of (front ++ remaining)) before.length (AreOf · (done ++ kinds)) front.length
        (AreOf · done) := by
  induction lines generalizing front skipped remaining done with
  | nil =>
      have hbracket : Stops Lexeme.isSpace ('<' :: '/' :: rest) := rfl
      obtain ⟨left, hleft, rfl⟩ := exists_gap hskipped hbracket hsplit
      have hblank : ∀ c ∈ left, Lexeme.isSpace c = true := by
        intro c hc
        exact hending c (by simp [hleft, hc])
      refine ⟨front, left, rfl, hblank, ?_⟩
      rw [List.append_nil]
      refine .stop ?_
      rw [advance_of, List.drop_left]
      exact fails_child_closing hblank hfirm
  | @text gap hgap text chars kinds raw hblank lines ih =>
      obtain ⟨lead, shown, hlead, hspaces, hstops⟩ := lines.exists_lead hending
      have hblanks := fun c hc => isBlank_of_isSpace c (hspaces c hc)
      have hfirmText := raw.skipped hblank hblanks hstops
      have hpos : 0 < text.toList.length := by
        obtain ⟨c, more, htext⟩ := exists_cons_of_isBlankText hblank
        simp [htext]
      rw [List.append_assoc, List.append_assoc, hlead] at hsplit
      obtain ⟨left, hleft, rfl⟩ := exists_gap hskipped (stops_of_skipped hfirmText) hsplit
      have hpending : ∀ c ∈ left, Lexeme.isSpace c = true := by
        intro c hc
        exact hgap c (by simp [hleft, hc])
      have hwhole : front ++ (left ++ (text.toList ++ (lead ++ shown))) =
          front ++ (left ++ (text.toList ++ lead) ++ shown) := by simp
      have hpiece : left ++ (text.toList ++ lead) ++ shown =
          left ++ (text.toList ++ (lead ++ shown)) := by simp
      obtain ⟨before, after, hsame, hafter, hchain⟩ :=
        @ih (front ++ (left ++ (text.toList ++ lead))) lead shown
          (done ++ [(ChildMeans · (.text text))]) hspaces hlead
      rw [List.append_assoc front, ← hwhole] at hsame hchain
      rw [List.append_assoc done] at hchain
      refine ⟨before, after, hsame, hafter, chain_child hwhole ?_ ?_ ?_ hchain⟩
      · rw [hpiece]
        exact astray_of_sign (.of_spaces hpending hfirmText) (raw.sign hblank rfl _)
      · simp only [List.length_append]
        omega
      · rw [hpiece, List.length_append, List.length_append]
        exact settles_child_text raw hblank hpending hblanks hstops
  | @braces gap hgap behindText later value kind chars kinds hlegible hmeans lines ih =>
      have hbrace : Stops Lexeme.isSpace ('\x7b' :: (value.print.toList ++ '\x7d' :: (chars ++
          (ending ++ '<' :: '/' :: rest)))) := rfl
      rw [List.append_assoc, List.cons_append, List.append_assoc, List.cons_append] at hsplit
      obtain ⟨left, hleft, rfl⟩ := exists_gap hskipped hbrace hsplit
      have hpending : ∀ c ∈ left, Lexeme.isSpace c = true := by
        intro c hc
        exact hgap c (by simp [hleft, hc])
      have hpiece : left ++ '\x7b' :: (value.print.toList ++ ['\x7d']) ++
          (chars ++ (ending ++ '<' :: '/' :: rest)) =
          left ++ '\x7b' :: (value.print.toList ++ '\x7d' ::
            (chars ++ (ending ++ '<' :: '/' :: rest))) := by simp
      have hlength : (left ++ '\x7b' :: (value.print.toList ++ ['\x7d'])).length =
          left.length + 1 + (value.print.toList.length + (0 + 1)) := by
        simp only [List.length_append, List.length_cons, List.length_nil]
        omega
      obtain ⟨before, after, hsame, hafter, hchain⟩ :=
        @ih (front ++ (left ++ '\x7b' :: (value.print.toList ++ ['\x7d']))) []
          (chars ++ (ending ++ '<' :: '/' :: rest)) (done ++ [kind]) (by simp) rfl
      rw [List.append_assoc front, hpiece] at hsame hchain
      rw [List.append_assoc done] at hchain
      refine ⟨before, after, hsame, hafter, chain_child (by rw [hpiece]) ?_ ?_ ?_ hchain⟩
      · rw [hpiece]
        exact astray_of_sign (.of_spaces hpending rfl) rfl
      · rw [hlength]
        omega
      · rw [hpiece, hlength]
        refine (settles_child_braces hpending hlegible).imp ?_
        rintro found ⟨form, hfound, hform⟩
        rw [hfound]
        exact hmeans form hform
  | @markup gap hgap behindText later piece formKind kind chars kinds marked hmeans lines ih =>
      obtain ⟨c, more, hopens, _⟩ := marked.opens
      have hbracket : Stops Lexeme.isSpace (piece ++ (chars ++ (ending ++ '<' :: '/' :: rest))) := by
        rw [hopens]
        rfl
      rw [List.append_assoc, List.append_assoc] at hsplit
      obtain ⟨left, hleft, rfl⟩ := exists_gap hskipped hbracket hsplit
      have hpending : ∀ c ∈ left, Lexeme.isSpace c = true := by
        intro c hc
        exact hgap c (by simp [hleft, hc])
      obtain ⟨before, after, hsame, hafter, hchain⟩ :=
        @ih (front ++ (left ++ piece)) [] (chars ++ (ending ++ '<' :: '/' :: rest))
          (done ++ [kind]) (by simp) rfl
      rw [List.append_assoc front, List.append_assoc left] at hsame hchain
      rw [List.append_assoc done] at hchain
      have hfaces : (of (left ++ (piece ++ (chars ++ (ending ++ '<' :: '/' :: rest))))).Faces
          left.length (piece ++ (chars ++ (ending ++ '<' :: '/' :: rest))) := by
        refine .of_spaces hpending ?_
        rw [hopens]
        rfl
      refine ⟨before, after, hsame, hafter, chain_child (by rw [List.append_assoc]) ?_ ?_ ?_ hchain⟩
      · rw [List.append_assoc]
        exact marked.astray hpending
      · simp only [hopens, List.length_append, List.length_cons]
        omega
      · have hsettles := marked.settles left hpending
        rw [hopens] at hfaces hsettles ⊢
        rw [List.append_assoc, List.length_append]
        refine (settles_child_markup hfaces hsettles).imp ?_
        rintro found ⟨form, hfound, hform⟩
        rw [hfound]
        exact hmeans form hform

/-- Children are read from lines up to a closing tag. -/
theorem offers_inside (hending : ∀ c ∈ ending, Lexeme.isSpace c = true)
    (hfirm : Lexeme.skipped ('/' :: rest) = none) {behindText : Bool} {chars : List Char}
    {kinds : List (Child Form → Prop)}
    (lines : LinesBefore free (ending ++ '<' :: '/' :: rest) behindText chars kinds) :
    Offers free Rule.inside (of (chars ++ (ending ++ '<' :: '/' :: rest)))
      (chars.length + (ending.length + 1)) (fun inside => AreOf inside.children kinds)
      (Fails (Reader.sign "/")) := by
  obtain ⟨before, after, hsame, hafter, hchain⟩ :=
    @exists_chain free ending rest hending hfirm _ _ _ lines [] []
      (chars ++ (ending ++ '<' :: '/' :: rest)) [] (by simp) rfl
  rw [List.nil_append] at hsame hchain
  have hlength : chars.length + (ending.length + 1) = before.length + (after.length + 1) := by
    have hlengths := congrArg List.length hsame
    simp only [List.length_append, List.length_cons] at hlengths
    omega
  rw [hsame] at hchain ⊢
  rw [hlength]
  exact offers_inside_of_chain hafter hfirm hchain

end LinesBefore

end EditableMarkup.Source
