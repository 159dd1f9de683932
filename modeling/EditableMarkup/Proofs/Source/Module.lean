import EditableMarkup.Proofs.Reading.Statements
import EditableMarkup.Proofs.Source.Sheltered

/-!
# Marked text in a module

Printed markup is a primary expression, so a module may hold it wherever an
expression stands.  On its own it is one expression statement, and the tree of
the module is the tree of the markup.
-/

namespace EditableMarkup.Source

open EditableMarkup.Grammar EditableMarkup.Grammar.Reader EditableMarkup.Grammar.Place
open EditableMarkup.Grammar.Rule

variable {free : Prop}

/-! ## Where an angle bracket stands -/

theorem primary_angle (rest : List Char) : ∀ other ∈ primaryTable,
    other = (Reader.markup, [Lexeme.sign "<"]) ∨ Barred other.2 ('<' :: rest) := by
  intro other hother
  simp only [primaryTable, List.mem_cons, List.not_mem_nil, or_false] at hother
  rcases hother with rfl | rfl | rfl | rfl | rfl | rfl | rfl | rfl | rfl | rfl | rfl | rfl | rfl | rfl
  case inr.inr.inr.inr.inr.inr.inr.inr.inr.inr.inr.inr.inr => exact Or.inl rfl
  all_goals
    refine Or.inr ?_
    simp only [barred_cons, barred_nil, and_true]
    and_intros <;> rfl

/-! ## Markup as an expression -/

section Expression

variable {front behind blank : List Char} {kind : Form → Prop}

theorem MarkedBefore.ne_nil (marked : MarkedBefore free front behind kind) : front ≠ [] := by
  obtain ⟨c, more, rfl, _⟩ := marked.opens
  exact List.cons_ne_nil _ _

theorem MarkedBefore.faces (marked : MarkedBefore free front behind kind)
    (hblank : ∀ c ∈ blank, Lexeme.isSpace c = true) :
    ∃ more, (of (blank ++ (front ++ behind))).Faces blank.length ('<' :: more) := by
  obtain ⟨c, more, rfl, _⟩ := marked.opens
  exact ⟨_, .of_spaces hblank rfl⟩

theorem MarkedBefore.settles_primary (marked : MarkedBefore free front behind kind)
    (hblank : ∀ c ∈ blank, Lexeme.isSpace c = true) :
    Settles free Reader.markup (opened (blank ++ (front ++ behind))) (blank.length + front.length)
      kind := by
  have hne : blank ++ (front ++ behind) ≠ [] := by simp [marked.ne_nil]
  have htagged : Settles free Reader.tagged (opened (blank ++ (front ++ behind)))
      (blank.length + front.length) (fun found => kind found.form) := by
    refine (marked.settles blank hblank).transfer ?_ fun _ => Iff.rfl
    rw [tagged_of hne, tagged_opened hne]
  exact htagged.map fun _ hfound => hfound

theorem operatorFirst_angle (rest : List Char) : Barred operatorFirst ('<' :: rest) := by
  simp only [operatorFirst, barred_cons, barred_nil, and_true]
  and_intros <;> rfl

/-- Guarded markup holds an expression: in front of a comma or a closing sign it is one operand. -/
theorem Marked.holds {node : Node} (marked : Marked free front node) (guarded : Guarded front) :
    Holds free front := by
  refine ⟨?_, fun blank rest hblank closed hne => ?_⟩
  · obtain ⟨c, more, rfl, _⟩ := marked.opens
    exact @opening_of_head '<' _ (by decide)
  have marked := marked rest
  have hfront : blank ++ front ≠ [] := by simp [marked.ne_nil]
  obtain ⟨more, hfaces⟩ := marked.faces hblank
  have hprimary := offers_primary (by simp [marked.ne_nil]) hfaces (by simp [primaryTable])
    (marked.settles_primary hblank) (primary_angle more)
  have harrow := guarded blank rest hblank
  rw [← List.append_assoc] at hfaces hprimary harrow
  rw [← List.length_append] at hprimary
  have hassignment := offers_assignment_of_arrowless hfront closed.stopped hfaces
    (operatorFirst_angle more) harrow hprimary
  exact Offers.unclosed (hassignment.imp fun _ stands => stands.tidy) closed hne

/-- What is left behind marked text belongs to its shelter. -/
theorem MarkedBefore.part_behind {part : Nat → Prop} (shelter : Shelter front behind part) :
    part ((opened (blank ++ (front ++ behind))).length - (blank.length + front.length)) := by
  have hlength : (opened (blank ++ (front ++ behind))).length -
      (blank.length + front.length) = behind.length := by
    rw [length_under]
    simp only [List.length_append]
    omega
  rw [hlength]
  exact shelter.atEnd

/-- Marked text is secured as an assignment, whatever shelters it. -/
theorem MarkedBefore.secures_assignment (marked : MarkedBefore True front behind kind)
    (hblank : ∀ c ∈ blank, Lexeme.isSpace c = true) {part : Nat → Prop}
    (shelter : Shelter front behind part) :
    Secures Reader.assignment (of (blank ++ (front ++ behind))) (blank.length + front.length)
      kind part := by
  have hne : blank ++ (front ++ behind) ≠ [] := by simp [marked.ne_nil]
  obtain ⟨more, hfaces⟩ := marked.faces hblank
  have hprimary := Reader.secures_primary hne hfaces (by simp [primaryTable]) (primary_angle more)
    ((marked.settles_primary hblank).secures (MarkedBefore.part_behind shelter))
  exact Reader.secures_assignment shelter.closing hne hfaces (operatorFirst_angle more)
    (shelter.arrow blank hblank) hprimary

end Expression

/-! ## One statement as a module -/

/-- A statement that is kept up to the end of a source is read as a module, if no comment leads from
elsewhere to the end. -/
theorem readWhole_module {source : List Char} {cost : Nat} {kind : Form → Prop}
    {stops : List Nat} {part : Nat → Prop}
    (keeps : Keeps Reader.statement (of source) source.length cost kind) (hne : source ≠ [])
    (passes : Passes (Reader.many Reader.statement) (of source) (Halts source.length stops part))
    (hstops : ∀ stop ∈ stops, stop < source.length → ¬ EndsAt (of source) stop)
    (hpart : ∀ used < source.length, part (source.length - used) → ¬ EndsAt (of source) used) :
    ∃ form, readWhole Rule.module (of source) = .ok [form] ∧ kind form := by
  obtain ⟨found, leads, hused, _, form, hform, hkind⟩ :=
    keeps.exists_leads_many (List.length_pos_iff.mpr hne)
  refine ⟨form, ?_, hkind⟩
  rw [← hform]
  refine readWhole_of_leads leads (by rw [hused, length_of]) fun other hother hless => ?_
  have hleft := passes other hother
  rw [length_of] at hless
  rcases hleft with ⟨stop, hstop, hleft⟩ | hleft
  · rw [length_of] at hleft
    have heq : stop = other.used := by omega
    subst heq
    exact hstops _ hstop hless
  · rw [length_of] at hleft
    exact hpart _ hless hleft

/-- A source does not end in front of its first lexeme. -/
theorem Faces.not_endsAt {place : Place} {lead : Nat} {text : List Char}
    (faces : place.Faces lead text) (hne : text ≠ []) : ¬ EndsAt place 0 := by
  rintro ⟨gap, hgap, hend⟩
  have hpositive := List.length_pos_iff.mpr hne
  rw [advance_zero, faces.gaps] at hgap
  rw [faces.length_eq] at hend
  split at hgap
  · rw [List.mem_singleton] at hgap
    omega
  · simp only [List.mem_cons, List.not_mem_nil, or_false] at hgap
    omega

section Module

variable {front : List Char} {kind : Form → Prop} {part : Nat → Prop}

/-- An expression statement of one form of a kind. -/
abbrev IsStatementOf (kind : Form → Prop) (form : Form) : Prop :=
  ∃ slice inner, form = .plain slice [inner] ∧ kind inner

theorem MarkedBefore.faces_whole (marked : MarkedBefore free front [] kind) :
    ∃ more, (of front).Faces 0 ('<' :: more) := by
  have hfaces := @MarkedBefore.faces free front [] [] kind marked (by simp)
  rwa [List.nil_append, List.append_nil] at hfaces

/-- Marked text that is a whole source is one primary expression. -/
theorem MarkedBefore.settles_whole (marked : MarkedBefore free front [] kind) :
    Settles free Rule.primary (opened front) front.length kind := by
  obtain ⟨more, hfaces⟩ := marked.faces_whole
  have hsettles := @MarkedBefore.settles_primary free front [] [] kind marked (by simp)
  rw [List.nil_append, List.append_nil, List.length_nil, Nat.zero_add] at hsettles
  exact offers_primary marked.ne_nil hfaces (by simp [primaryTable]) hsettles (primary_angle more)

theorem fails_semicolon_end (hne : front ≠ []) :
    Fails (Reader.sign ";") ((atStatement front).advance front.length) := by
  rw [(shows_atStatement front).advance (List.length_pos_iff.mpr hne), List.drop_length]
  exact starts_sign rfl _ 0 [] (.of_firm rfl) (barred_singleton.mpr rfl)

/-- Sheltered markup that is read without cost is kept as a statement. -/
theorem MarkedBefore.keeps_statement (marked : MarkedBefore True front [] kind)
    (shelter : Shelter front [] part) :
    Keeps Reader.statement (of front) front.length 1 (IsStatementOf kind) := by
  obtain ⟨before, hcloses⟩ := marked.closes
  obtain ⟨more, hfaces⟩ := marked.faces_whole
  have hassignment := @MarkedBefore.secures_assignment front [] [] kind marked (by simp) part shelter
  simp only [List.nil_append, List.append_nil, List.length_nil, Nat.zero_add] at hassignment
  refine keeps_expressionStatement marked.ne_nil hfaces (statement_bracket (Or.inl rfl) more) rfl
    (keeps_expression marked.ne_nil hassignment.keeps) (fails_semicolon_end marked.ne_nil)
    fun nearer hless reading hreading hend => ?_
  obtain ⟨gap, _, hused, rest, hrest⟩ :=
    exists_of_reads_sign_shows ((shows_atStatement front).advance_shows nearer) hreading
  have hlength : ";".toList.length = 1 := rfl
  have hsize : front.length = before.length + 1 := by rw [hcloses]; simp
  rw [List.drop_drop, show nearer + gap = before.length by omega, hcloses, List.drop_left] at hrest
  cases hrest

/-- Markup that opens no arrow function is kept as a statement at some cost. -/
theorem MarkedBefore.exists_keeps_statement (marked : MarkedBefore free front [] kind)
    (harrow : Fails Rule.arrowFunction (atAssignment front)) :
    ∃ cost, Keeps Reader.statement (of front) front.length cost (IsStatementOf kind) := by
  obtain ⟨more, hfaces⟩ := marked.faces_whole
  have hexpression := settles_expression_whole marked.ne_nil hfaces (operatorFirst_angle more)
      harrow
    marked.settles_whole
  have hstatement := settles_expressionStatement marked.ne_nil hfaces
    (statement_bracket (Or.inl rfl) more) rfl hexpression (fails_semicolon_end marked.ne_nil)
  refine hstatement.exists_keeps ?_
  rw [AscendsAt, statement_of marked.ne_nil]
  exact ascendsAt_oneOf

/-- Sheltered marked text that is kept as a statement is read as a module. -/
theorem MarkedBefore.readWhole_of_keeps (marked : MarkedBefore free front [] kind)
    (shelter : Shelter front [] part) {cost : Nat}
    (hkeeps : Keeps Reader.statement (of front) front.length cost (IsStatementOf kind)) :
    ∃ slice inner, readWhole Rule.module (of front) = .ok [.plain slice [inner]] ∧ kind inner := by
  obtain ⟨before, hcloses⟩ := marked.closes
  obtain ⟨more, hfaces⟩ := marked.faces_whole
  have harrow := shelter.arrow [] (by simp)
  rw [List.nil_append, List.append_nil] at harrow
  have hleft : part ((opened front).length - front.length) := by
    rw [length_under, Nat.sub_self]
    exact shelter.atEnd
  have hexpression := passes_expression shelter.closing marked.ne_nil
    (passes_assignment shelter.closing marked.ne_nil hfaces (operatorFirst_angle more) harrow
      (marked.settles_whole.passes hleft))
  have hpasses : Passes Reader.statement (of front) part :=
    passes_statement marked.ne_nil hfaces
      (fun entry hentry => Or.inl (statement_bracket (Or.inl rfl) more entry hentry))
      (passes_expressionStatement marked.ne_nil shelter.closing hexpression) rfl
  have hzero : ∀ stop ∈ [0], stop < front.length → ¬ EndsAt (of front) stop := by
    intro stop hstop _
    rw [List.mem_singleton.mp hstop]
    exact Faces.not_endsAt hfaces (List.cons_ne_nil _ _)
  have hpart : ∀ used < front.length, part (front.length - used) → ¬ EndsAt (of front) used := by
    intro used hless hleft
    have hlast : [] ++ (front ++ []) = before ++ ['>'] := by simp [hcloses]
    have hnot := @Shelter.not_endsAt _ _ _ shelter _ _ _ hlast ⟨rfl, by decide⟩ used
    simp only [List.nil_append, List.append_nil] at hnot
    exact hnot hless hleft
  have hmany := (hpasses.halts []).many shelter.closing (by simp)
  rw [length_of] at hmany
  obtain ⟨_, hread, slice, inner, rfl, hinner⟩ :=
    Source.readWhole_module hkeeps marked.ne_nil hmany hzero hpart
  exact ⟨slice, inner, hread, hinner⟩

/-- Marked text that nothing rivals is read as a module of one expression statement. -/
theorem MarkedBefore.readWhole_module (marked : MarkedBefore free front [] kind)
    (unrivalled : Unrivalled free front) :
    ∃ slice inner, readWhole Rule.module (of front) = .ok [.plain slice [inner]] ∧ kind inner := by
  rcases unrivalled with guarded | ⟨hfree, htrails⟩
  · have harrow : Fails Rule.arrowFunction (atAssignment front) := by
      have hwhole := guarded [] [] (by simp)
      rwa [List.nil_append, List.append_nil] at hwhole
    obtain ⟨cost, hkeeps⟩ := marked.exists_keeps_statement harrow
    exact marked.readWhole_of_keeps (guarded.shelter List.not_mem_nil) hkeeps
  · obtain rfl : free = True := eq_true hfree
    have hshelter := shelter_of_not_trailsOff marked.closes List.not_mem_nil htrails
    exact marked.readWhole_of_keeps hshelter (marked.keeps_statement hshelter)

end Module

/-! ## What a module is about -/

/-- A module is about a node: its forms obey the rules on markup, and the markup that is found among
them stands for the node. -/
structure About (forms : List Form) (node : Node) : Prop where
  found : ∃ form, findMarkup forms = some form ∧ Stands form node
  tidy : ∀ occurrence ∈ occurrencesIn forms, ∀ source, violation? source occurrence = none

/-- A module of one expression is about the markup that the expression is. -/
theorem about_expression {slice : Slice} {form : Form} {node : Node} (stands : Stands form node) :
    About [.plain slice [form]] node where
  found := by
    refine ⟨form, ?_, stands⟩
    rw [findMarkup, occurrencesIn, occurrencesIn, List.append_nil, occurrences, occurrencesIn,
      occurrencesIn]
    exact findSome?_occurrences stands.isMarkup []
  tidy := by
    intro occurrence hoccurrence source
    rw [occurrencesIn, occurrencesIn, List.append_nil, occurrences, occurrencesIn, occurrencesIn,
      List.append_nil] at hoccurrence
    rcases List.mem_cons.mp hoccurrence with rfl | hinside
    · rfl
    · exact stands.tidy occurrence hinside source

/-- A source that is read as a module about a node holds a form that stands for the node. -/
theorem exists_stands_of_about {source : List Char} {forms : List Form} {node : Node}
    (hhint : hasHint false source = true) (hread : readWhole Rule.module (of source) = .ok forms)
    (about : About forms node) :
    ∃ form, Stands form node ∧ ∀ levels supply,
      parseTrimmed levels source supply = nodeOf levels supply form := by
  obtain ⟨form, hfound, stands⟩ := about.found
  refine ⟨form, stands, fun levels supply => ?_⟩
  rw [parseTrimmed, if_pos hhint, formsOf_of_readWhole hread about.tidy]
  exact treeOf_of_findMarkup hfound levels supply

/-- A source that is read as a module about a node is parsed as this node. -/
theorem parseTrimmed_of_about {source : List Char} {forms : List Form} {node : Node}
    (hhint : hasHint false source = true) (hread : readWhole Rule.module (of source) = .ok forms)
    (about : About forms node) {levels : Nat} (hheight : node.height ≤ levels) (supply : Supply) :
    ∃ found after, parseTrimmed levels source supply = .ok (found, after) ∧
      found.Alike node.withoutOff := by
  obtain ⟨form, stands, hparse⟩ := exists_stands_of_about hhint hread about
  rw [hparse]
  exact stands.exists_nodeOf hheight supply

section Unrivalled

variable {front : List Char} {node : Node}

/-- Marked text that nothing rivals is a form that stands for its node, whether a word in it hints
at a component or not. -/
theorem Marked.exists_stands (marked : Marked free front node)
    (unrivalled : Unrivalled free front) :
    ∃ form, Stands form node ∧ ∀ levels supply,
      parseTrimmed levels front supply = nodeOf levels supply form := by
  cases hhint : hasHint false front with
  | true =>
      obtain ⟨slice, inner, hread, stands⟩ := (marked []).readWhole_module unrivalled
      exact exists_stands_of_about hhint hread (about_expression stands)
  | false =>
      obtain ⟨form, stands, hparse⟩ := parseMarkup_of_marked marked
      refine ⟨form, stands, fun levels supply => ?_⟩
      rw [parseTrimmed, hhint, if_neg Bool.false_ne_true]
      exact hparse levels none supply

/-- Marked text that nothing rivals is parsed as its node. -/
theorem Marked.parseTrimmed_eq (marked : Marked free front node)
    (unrivalled : Unrivalled free front)
    {levels : Nat} (hheight : node.height ≤ levels) (supply : Supply) :
    ∃ found after, parseTrimmed levels front supply = .ok (found, after) ∧
      found.Alike node.withoutOff := by
  obtain ⟨form, stands, hparse⟩ := marked.exists_stands unrivalled
  rw [hparse]
  exact stands.exists_nodeOf hheight supply

/-- Marked text that nothing rivals is parsed as what its node is read back as. -/
theorem Marked.parseTrimmed_reread (marked : Marked free front node)
    (unrivalled : Unrivalled free front)
    {levels : Nat} (hheight : node.height ≤ levels) (supply : Supply) :
    ∃ found after, parseTrimmed levels front supply = .ok (found, after) ∧
      found.unlabelled = node.reread := by
  obtain ⟨form, stands, hparse⟩ := marked.exists_stands unrivalled
  rw [hparse]
  exact stands.converted levels supply hheight

end Unrivalled

end EditableMarkup.Source
