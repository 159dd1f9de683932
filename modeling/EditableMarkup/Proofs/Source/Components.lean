import EditableMarkup.Proofs.Reading.Classes
import EditableMarkup.Proofs.Source.Reparsed
import EditableMarkup.Proofs.Tree.Same

/-!
# Components that return markup

Printed markup may stand in a source as what a function, an arrow function or
the method of a class returns.  Each of these components is read as a module of
one statement, and the markup that is found in it is the one that it returns.
-/

namespace EditableMarkup

namespace Source

open EditableMarkup.Grammar EditableMarkup.Grammar.Reader EditableMarkup.Grammar.Place

/-! ## What a component is about -/

section About

variable {node : Node} {form body inner : Form}

/-- The body of a function returns markup that stands for a node. -/
structure Yields (body : Form) (node : Node) : Prop where
  returned : ∃ inner, returnedMarkup body = some inner ∧ Stands inner node
  tidy : Tidy body

theorem markupOf_of_stands (hinner : form.unwrapped = inner) (stands : Stands inner node) :
    markupOf form = some inner := by
  rw [markupOf, hinner, if_pos stands.isMarkup]

theorem unwrapped_of_stands (stands : Stands form node) : form.unwrapped = form := by
  have hmarkup := stands.isMarkup
  cases form with
  | group slice inner => cases hmarkup
  | _ => rfl

/-- In parentheses, markup still stands for its node. -/
theorem exists_of_group (h : ∃ slice inner, form = .group slice inner ∧ Stands inner node) :
    Tidy form ∧ ∃ inner, markupOf form = some inner ∧ Stands inner node := by
  obtain ⟨slice, inner, rfl, stands⟩ := h
  refine ⟨?_, inner, markupOf_of_stands (unwrapped_of_stands stands) stands, stands⟩
  intro occurrence hoccurrence source
  rw [occurrences] at hoccurrence
  rcases List.mem_cons.mp hoccurrence with rfl | hinside
  · rfl
  · exact stands.tidy occurrence hinside source

/-- A form without a block yields the markup that it is. -/
theorem yields_group (h : ∃ slice inner, form = .group slice inner ∧ Stands inner node) :
    Yields form node := by
  obtain ⟨htidy, found, hfound, hstands⟩ := exists_of_group h
  obtain ⟨slice, inner, rfl, stands⟩ := h
  refine ⟨⟨found, ?_, hstands⟩, htidy⟩
  have hunwrapped : (Form.group slice inner).unwrapped = inner := unwrapped_of_stands stands
  have hmarkup := stands.isMarkup
  rw [returnedMarkup, hunwrapped]
  cases inner with
  | block slice statements => cases hmarkup
  | _ => exact hfound

/-- A block yields the markup that it returns. -/
theorem yields_returns {kind : Form → Prop} (h : Returns kind body)
    (hkind : ∀ form, kind form → Tidy form ∧ ∃ inner, markupOf form = some inner ∧ Stands inner node) :
    Yields body node := by
  obtain ⟨slice, slice', form, rfl, hform⟩ := h
  obtain ⟨htidy, inner, hinner, stands⟩ := hkind form hform
  refine ⟨⟨inner, hinner, stands⟩, fun occurrence hoccurrence source => ?_⟩
  rw [occurrences, occurrencesIn, occurrencesIn, occurrences, List.append_nil] at hoccurrence
  simp only [List.mem_cons] at hoccurrence
  rcases hoccurrence with rfl | rfl | hinside
  · rfl
  · rfl
  · exact htidy occurrence hinside source

/-- A module of one function is about the markup that the function returns. -/
theorem about_function (h : IsFunction (Yields · node) form) : About [form] node := by
  obtain ⟨slice, body, rfl, yields⟩ := h
  obtain ⟨inner, hinner, stands⟩ := yields.returned
  refine ⟨⟨inner, ?_, stands⟩, fun occurrence hoccurrence source => ?_⟩
  · have hfirst : Occurrence.markup? (.form (.function slice [] body)) = some inner := hinner
    rw [findMarkup, occurrencesIn, occurrences, List.cons_append, List.findSome?_cons, hfirst]
  · rw [occurrencesIn, occurrencesIn, List.append_nil, occurrences, occurrencesIn,
      List.nil_append] at hoccurrence
    rcases List.mem_cons.mp hoccurrence with rfl | hinside
    · rfl
    · exact yields.tidy occurrence hinside source

/-- What is about a node in a statement is about it as the statement. -/
theorem About.plain (about : About [form] node) (slice : Slice) : About [.plain slice [form]] node := by
  have hoccurrences : occurrencesIn [.plain slice [form]] =
      .form (.plain slice [form]) :: occurrencesIn [form] := by
    rw [occurrencesIn, occurrencesIn, List.append_nil, occurrences]
  obtain ⟨inner, hinner, stands⟩ := about.found
  refine ⟨⟨inner, ?_, stands⟩, fun occurrence hoccurrence source => ?_⟩
  · rw [findMarkup, hoccurrences]
    exact hinner
  · rw [hoccurrences] at hoccurrence
    rcases List.mem_cons.mp hoccurrence with rfl | hinside
    · rfl
    · exact about.tidy occurrence hinside source

end About

/-! ## Markup inside a component -/

section Inside

variable {front behind : List Char} {node : Node} {part : Nat → Prop}

/-- Sheltered markup stands between brackets of its own. -/
theorem Marked.enclosed (marked : Marked True front node) (shelter : Shelter front behind part) :
    Reader.Enclosed front behind (Stands · node) part where
  opens := by
    obtain ⟨c, more, hopens, _⟩ := marked.opens
    exact ⟨'<', _, hopens, Or.inl rfl⟩
  closes := by
    obtain ⟨before, hcloses⟩ := marked.closes
    exact ⟨before, '>', hcloses, rfl, by decide⟩
  secures _ hblank := (marked _).secures_assignment hblank shelter

/-- If what is left from a place is no end, no end is at the place. -/
theorem not_endsAt_of_faces {place : Place} {used lead : Nat} {text : List Char}
    (faces : (place.advance used).Faces lead text) (hne : text ≠ []) : ¬ EndsAt place used := by
  rintro ⟨gap, hgap, hend⟩
  refine Faces.not_endsAt faces hne ⟨gap, by rwa [advance_zero], ?_⟩
  rw [length_advance]
  omega

/-- A statement around sheltered markup is read as a module. -/
theorem Shelter.readWhole_module (shelter : Shelter front behind part) {source ahead : List Char}
    {stops : List Nat} {kind : Form → Prop} (hsource : source = ahead ++ (front ++ behind))
    (hbehind : ∃ more c, behind = more ++ [c] ∧ IsMark c)
    (keeps : Keeps Reader.statement (of source) source.length 0 kind)
    (passes : Passes (Reader.many Reader.statement) (of source) (Halts source.length stops part))
    (hstops : ∀ stop ∈ stops, ¬ EndsAt (of source) stop) :
    ∃ form, readWhole Rule.module (of source) = .ok [form] ∧ kind form := by
  obtain ⟨more, c, hmore, hc⟩ := hbehind
  have hlast : ahead ++ (front ++ behind) = (ahead ++ (front ++ more)) ++ [c] := by simp [hmore]
  have hne : source ≠ [] := by simp [hsource, hmore]
  refine Source.readWhole_module keeps hne passes (fun stop hstop _ => hstops stop hstop)
    fun used hless hpart => ?_
  rw [hsource] at hless hpart ⊢
  exact shelter.not_endsAt hlast hc hless hpart

end Inside

/-! ## Components as modules -/

section Sources

variable {name front : List Char} {node : Node}

theorem functionText_eq (name front : List Char) : functionText name ('(' :: (front ++ [')'])) [] =
    ("function ".toList ++ name ++ "() \x7b return (".toList) ++ (front ++ [')', ';', ' ', '\x7d']) := by
  simp [functionText, body, returning]

theorem constantText_eq (name front : List Char) : constantText name ('(' :: (front ++ [')'])) [] =
    ("const ".toList ++ name ++ " = () => (".toList) ++ (front ++ [')', ';']) := by
  simp [constantText, settingText, arrowText]

theorem classText_eq (name front : List Char) : classText name front [] =
    ("class ".toList ++ name ++ " \x7b render() \x7b return ".toList) ++
      (front ++ [';', ' ', '\x7d', ' ', '\x7d']) := by
  simp [classText, classBody, methodText, body, returning]

section Read

variable (marked : Marked True front node) (sheltered : Sheltered front)
  (hname : Lexeme.name name = some name.length)

include marked sheltered hname

/-- A function that returns markup in parentheses is a module about the markup. -/
theorem Marked.readWhole_function :
    ∃ form, readWhole Rule.module (of (functionText name ('(' :: (front ++ [')'])) [])) =
      .ok [form] ∧ About [form] node := by
  obtain ⟨part, shelter⟩ :=
    @Sheltered.exists_shelter front [')', ';', ' ', '\x7d'] sheltered marked.closes (by simp)
  have secures := ((marked.enclosed shelter).group shelter.closing).functionStatement
    shelter.closing hname
  have hmany := (secures.passes.halts []).many shelter.closing (by simp)
  rw [length_of] at hmany
  obtain ⟨_, hread, slice, inner, rfl, hinner⟩ := shelter.readWhole_module (functionText_eq name front)
    ⟨[')', ';', ' '], '\x7d', rfl, rfl, by decide⟩ secures.keeps hmany fun stop hstop => by
      rw [List.mem_singleton.mp hstop]
      exact Faces.not_endsAt (.of_firm rfl) (List.cons_ne_nil _ _)
  exact ⟨_, hread, about_function ⟨slice, inner, rfl, yields_returns hinner fun _ => exists_of_group⟩⟩

/-- A constant that is set to an arrow function with markup in parentheses is a module about the
markup. -/
theorem Marked.readWhole_constant :
    ∃ form, readWhole Rule.module (of (constantText name ('(' :: (front ++ [')'])) [])) =
      .ok [form] ∧ About [form] node := by
  obtain ⟨part, shelter⟩ :=
    @Sheltered.exists_shelter front [')', ';'] sheltered marked.closes (by simp)
  have enclosed := (marked.enclosed shelter).group shelter.closing
  obtain ⟨_, _, hend⟩ := settles_constant (shows_of (constantText name ('(' :: (front ++ [')'])) []))
  obtain ⟨_, hread, slice, inner, rfl, slice', body, rfl, hbody⟩ := shelter.readWhole_module
    (constantText_eq name front) ⟨[')'], ';', rfl, rfl, by decide⟩ (enclosed.keeps_constant shelter.closing hname)
    (enclosed.passes_constant shelter.closing hname) fun stop hstop => by
      simp only [List.mem_cons, List.not_mem_nil, or_false] at hstop
      rcases hstop with rfl | rfl
      · exact Faces.not_endsAt (.of_firm rfl) (List.cons_ne_nil _ _)
      · have hfaces : (of (settingText ('(' :: (front ++ [')'])) [])).Faces 1
            ('=' :: ' ' :: arrowText ('(' :: (front ++ [')'])) [';']) := .of_space rfl
        rw [← hend] at hfaces
        exact not_endsAt_of_faces hfaces (List.cons_ne_nil _ _)
  exact ⟨_, hread, (about_function ⟨slice', body, rfl, yields_group hbody⟩).plain slice⟩

/-- A class whose method returns markup is a module about the markup. -/
theorem Marked.readWhole_class :
    ∃ form, readWhole Rule.module (of (classText name front [])) = .ok [form] ∧
      About [form] node := by
  obtain ⟨part, shelter⟩ :=
    @Sheltered.exists_shelter front [';', ' ', '\x7d', ' ', '\x7d'] sheltered marked.closes (by simp)
  have secures := (marked.enclosed shelter).classStatement shelter.closing hname
  have hmany := (secures.passes.halts []).many shelter.closing (by simp)
  rw [length_of] at hmany
  obtain ⟨_, hread, slice, inner, rfl, slice', body, rfl, hbody⟩ := shelter.readWhole_module
    (classText_eq name front) ⟨[';', ' ', '\x7d', ' '], '\x7d', rfl, rfl, by decide⟩ secures.keeps hmany fun stop hstop => by
      rw [List.mem_singleton.mp hstop]
      exact Faces.not_endsAt (.of_firm rfl) (List.cons_ne_nil _ _)
  have hyields : Yields body node := yields_returns hbody fun form stands =>
    ⟨stands.tidy, form, markupOf_of_stands (unwrapped_of_stands stands) stands, stands⟩
  exact ⟨_, hread, (about_function ⟨slice', body, rfl, hyields⟩).plain slice⟩

end Read

end Sources

/-! ## Components as sources -/

/-- A word is a name that no reserved word opens. -/
def IsName (word : String) : Prop :=
  Lexeme.name word.toList = some word.toList.length

instance (word : String) : Decidable (IsName word) :=
  inferInstanceAs (Decidable (_ = _))

/-- A function, a constant that is set to an arrow function, and a class with one method; each of
them returns some markup. -/
def componentSources (name markup : String) : List String :=
  ["function " ++ name ++ "() \x7b return (" ++ markup ++ "); \x7d",
    "const " ++ name ++ " = () => (" ++ markup ++ ");",
    "class " ++ name ++ " \x7b render() \x7b return " ++ markup ++ "; \x7d \x7d"]

/-- A source that opens with a hint at a component and whose ends are no blanks is parsed as the
node that it is about as a module. -/
theorem parseWithin_of_about {source : String} {text ahead behind : List Char} {node : Node}
    (htext : source.toList = text) (hsplit : text = ahead ++ behind)
    (hhint : startsWithHint false text = true) (hopens : text.head?.any Text.isBlank = false)
    (hcloses : ∃ last, behind.getLast? = some last ∧ Text.isBlank last = false)
    (hread : ∃ form, readWhole Rule.module (of text) = .ok [form] ∧ About [form] node)
    {levels : Nat} (hheight : node.height ≤ levels) (supply : Supply) :
    ∃ found after, parseWithin levels source supply = .ok (found, after) ∧
      found.Alike node.withoutOff := by
  obtain ⟨form, hread, about⟩ := hread
  obtain ⟨last, hlast, hblank⟩ := hcloses
  have hend : text.getLast?.any Text.isBlank = false := by
    rw [hsplit, List.getLast?_append, hlast]
    exact hblank
  have hhas : hasHint false text = true := by
    cases text with
    | nil => cases hhint
    | cons c rest => rw [hasHint, hhint, Bool.true_or]
  rw [parseWithin, htext, Text.trim_eq_self hopens hend]
  exact parseTrimmed_of_about hhas hread about hheight supply

/-- Each component that returns sheltered markup is parsed as the node of the markup. -/
theorem Marked.parseWithin_component {markup name : String} {node : Node}
    (marked : Marked True markup.toList node) (sheltered : Sheltered markup.toList)
    (hname : IsName name)
    {source : String} (hsource : source ∈ componentSources name markup) {levels : Nat}
    (hheight : node.height ≤ levels) (supply : Supply) :
    ∃ found after, parseWithin levels source supply = .ok (found, after) ∧
      found.Alike node.withoutOff := by
  simp only [componentSources, List.mem_cons, List.not_mem_nil, or_false] at hsource
  rcases hsource with rfl | rfl | rfl
  · refine parseWithin_of_about ?_ (functionText_eq name.toList markup.toList) rfl rfl
      ⟨'\x7d', by simp, rfl⟩ (marked.readWhole_function sheltered hname) hheight supply
    simp [functionText, body, returning]
  · refine parseWithin_of_about ?_ (constantText_eq name.toList markup.toList) rfl rfl
      ⟨';', by simp, rfl⟩ (marked.readWhole_constant sheltered hname) hheight supply
    simp [constantText, settingText, arrowText]
  · refine parseWithin_of_about ?_ (classText_eq name.toList markup.toList) rfl rfl
      ⟨'\x7d', by simp, rfl⟩ (marked.readWhole_class sheltered hname) hheight supply
    simp [classText, classBody, methodText, body, returning]

/-! ## Printed trees in components -/

/-- The components around a printed tree are parsed as what the printed tree itself is parsed as,
unless its first attribute opens with the word `extends` and its text trails off behind an arrow. -/
theorem parseWithin_componentSources {node : Node} (hprintable : node.Printable) (indent : Int)
    {name : String} (hname : IsName name) {levels : Nat} (hheight : node.height ≤ levels)
    (supply : Supply) :
    ∃ text, node.serialize indent = .ok text ∧
      ((opensWithExtends node = true → ¬ TrailsOff text.toList) →
        ∃ found after, parseWithin levels text supply = .ok (found, after) ∧
          ∀ source ∈ componentSources name text, ∀ supply',
            ∃ found' after', parseWithin levels source supply' = .ok (found', after') ∧
              found'.Alike node.withoutOff ∧ found'.same found = true) := by
  refine ⟨node.print indent, hprintable.serialize_eq indent, fun htrails => ?_⟩
  have hlegible : node.Legible True := hprintable.legible
  have marked := marked_print hlegible indent
  have sheltered := sheltered_print hlegible indent htrails
  obtain ⟨found, after, hparse, halike⟩ :=
    marked.parseTrimmed_eq (sheltered.unrivalled trivial) hheight supply
  refine ⟨found, after, by rwa [parseWithin, marked.trim_eq], fun source hsource supply' => ?_⟩
  obtain ⟨found', after', hparse', halike'⟩ :=
    marked.parseWithin_component sheltered hname hsource hheight supply'
  exact ⟨found', after', hparse', halike', halike'.same_of_alike hprintable.proper_withoutOff halike⟩

/-- An element whose string opens with an arrow function and a comment. -/
def arrowElement : Node :=
  ⟨.named "a", [("b", .string ">() => 1 // none"), ("c", .boolean false)], [.text "class"], ""⟩

theorem parse_arrowElement :
    ∃ text, arrowElement.Printable ∧ IsName "View" ∧ arrowElement.height ≤ depthLimit ∧
      arrowElement.serialize 2 = .ok text ∧
      ∃ found after, parseWithin depthLimit text ⟨0⟩ = .ok (found, after) ∧
        ∀ source ∈ componentSources "View" text, ∀ supply',
          ∃ found' after', parseWithin depthLimit source supply' = .ok (found', after') ∧
            found'.same found = true := by
  have hname : IsMarkupName "a" := by decide
  have hprintable : arrowElement.Printable :=
    ⟨hname, ⟨by simp [Entries.Distinct], by decide, ⟨trivial, trivial, trivial⟩, nofun⟩,
      by decide, trivial⟩
  have hview : IsName "View" := by decide
  have hheight : arrowElement.height ≤ depthLimit := by decide
  obtain ⟨text, htext, hparse⟩ := parseWithin_componentSources hprintable 2 hview hheight ⟨0⟩
  obtain ⟨found, after, hfound, hsources⟩ := hparse fun h => absurd h (by decide)
  refine ⟨text, hprintable, hview, hheight, htext, found, after, hfound, ?_⟩
  intro source hsource supply'
  obtain ⟨found', after', hfound', _, hsame⟩ := hsources source hsource supply'
  exact ⟨found', after', hfound', hsame⟩

/-- An element whose strings can be taken for the end of a function with a comment behind it. -/
def breakingElement : Node :=
  ⟨.named "a",
    [("extends", .boolean true), ("b", .string "\\"), ("c", .string ">()=>d);\x7d//")], [], ""⟩

/-- The text of the element. -/
def breakingText : String :=
  "<a extends b=\"\\\" c=\">()=>d);\x7d//\" />"

/-- A printable tree that is parsed back from its own text need not be parsed back from a component. -/
theorem parse_breakingElement :
    breakingElement.Printable ∧ breakingElement.serialize 2 = .ok breakingText ∧
      (parse breakingText ⟨0⟩).isOk = true ∧ IsName "N" ∧
      ¬ ∀ source ∈ componentSources "N" breakingText,
        ∃ found after, parse source ⟨0⟩ = .ok (found, after) := by
  have hname : IsMarkupName "a" := by decide
  refine ⟨⟨hname, ⟨by simp [Entries.Distinct], by decide,
    ⟨trivial, trivial, trivial, trivial⟩, nofun⟩, trivial⟩, by decide, by decide +kernel,
    by decide, fun hsources => ?_⟩
  obtain ⟨found, after, hfound⟩ := hsources _ (List.mem_cons_self ..)
  have hfails : (parse ("function " ++ "N" ++ "() \x7b return (" ++ breakingText ++ "); \x7d")
      ⟨0⟩).isOk = false := by
    decide +kernel
  rw [hfound] at hfails
  cases hfails

end Source

end EditableMarkup
