import EditableMarkup.Proofs.Source.Printed
import EditableMarkup.Source.Parse

/-!
# Whole sources

A source is read to its end.  If nothing in its forms violates the rules on
markup and the first markup among them stands for a node, the source is parsed
as this node.
-/

namespace EditableMarkup.Source

open EditableMarkup.Grammar EditableMarkup.Grammar.Reader EditableMarkup.Grammar.Place

variable {free : Prop}

/-! ## Reading to the end -/

section Whole

variable {α : Type} {reader : Reader α} {place : Place}

/-- A place is the last one of a source, if what lies behind it can be skipped. -/
def EndsAt (place : Place) (used : Nat) : Prop :=
  ∃ gap ∈ (place.advance used).gaps, used + gap = place.length

theorem any_gaps_iff {used : Nat} :
    ((place.advance used).gaps.any fun gap => used + gap = place.length) = true ↔
      EndsAt place used := by
  simp [EndsAt]

theorem endsAt_length (place : Place) : EndsAt place place.length := by
  refine ⟨0, ?_, rfl⟩
  have hnil : place.advance place.length = [] := List.drop_length
  rw [hnil]
  exact List.mem_singleton.mpr rfl

theorem readWhole_of_find? {reading : Reading α}
    (h : ((reader place).readings.find? fun reading =>
      (place.advance reading.used).gaps.any fun gap => reading.used + gap = place.length) =
      some reading) : readWhole reader place = .ok reading.value := by
  rw [readWhole]
  simp only [h]

/-- The reading that leads to the end of a source is what is read, if no shorter one may end there. -/
theorem readWhole_of_leads {reading : Reading α}
    (leads : Reading.Leads (reader place).readings reading) (hused : reading.used = place.length)
    (hshorter : ∀ other, Reads reader place other → other.used < place.length →
      ¬ EndsAt place other.used) : readWhole reader place = .ok reading.value := by
  refine readWhole_of_find? (leads.find? ?_ fun other hother hless => ?_)
  · rw [any_gaps_iff, hused]
    exact endsAt_length place
  · rw [Bool.eq_false_iff, Ne, any_gaps_iff]
    exact hshorter other hother (hused ▸ hless)

/-- What settles at the end of a source is read. -/
theorem readWhole_of_settles {kind : α → Prop}
    (settles : Settles free reader place place.length kind) :
    ∃ value, readWhole reader place = .ok value ∧ kind value := by
  have hfound : ∃ reading, ((reader place).readings.find? fun reading =>
      (place.advance reading.used).gaps.any fun gap => reading.used + gap = place.length) =
      some reading := by
    obtain ⟨reading, hreading, hused⟩ := settles.reaches
    refine Option.isSome_iff_exists.mp (List.find?_isSome.mpr ⟨reading, hreading, ?_⟩)
    rw [any_gaps_iff, hused]
    exact endsAt_length place
  obtain ⟨reading, hfind⟩ := hfound
  refine ⟨reading.value, readWhole_of_find? hfind, ?_⟩
  rcases settles.only reading (List.mem_of_find?_eq_some hfind) with ⟨_, _, hkind⟩ | hfalse
  · exact hkind
  · exact hfalse.elim

/-- A source of which no reading leads to the end is not read. -/
theorem readWhole_error_of_forall
    (h : ∀ reading, Reads reader place reading → ¬ EndsAt place reading.used) :
    ∃ stop, readWhole reader place = .error stop := by
  have hnone : ((reader place).readings.find? fun reading =>
      (place.advance reading.used).gaps.any fun gap => reading.used + gap = place.length) =
      none := by
    refine List.find?_eq_none.mpr fun reading hreading htest => ?_
    exact h reading hreading (any_gaps_iff.mp htest)
  rw [readWhole]
  simp only [hnone]
  split
  · exact ⟨_, rfl⟩
  · exact ⟨_, rfl⟩

/-- What settles before the end of a source is not all of it. -/
theorem readWhole_error {used : Nat} {kind : α → Prop}
    (settles : Settles free reader place used kind)
    (h : ¬ EndsAt place used) : ∃ stop, readWhole reader place = .error stop := by
  refine readWhole_error_of_forall fun reading hreading => ?_
  rcases settles.only reading hreading with ⟨hused, _⟩ | hfalse
  · rwa [hused]
  · exact hfalse.elim

end Whole

/-! ## Forms and trees -/

theorem formsOf_of_readWhole {reader : Reader (List Form)} {source : List Char} {forms : List Form}
    (h : readWhole reader (of source) = .ok forms)
    (htidy : ∀ occurrence ∈ occurrencesIn forms, ∀ source, violation? source occurrence = none) :
    formsOf reader source = .ok forms := by
  have hnone : (occurrencesIn forms).findSome? (violation? source) = none :=
    List.findSome?_eq_none_iff.mpr fun occurrence hoccurrence =>
      htidy occurrence hoccurrence source
  rw [formsOf, h]
  simp only [hnone]

theorem formsOf_of_error {reader : Reader (List Form)} {source : List Char} {stop : Stop}
    (h : readWhole reader (of source) = .error stop) :
    formsOf reader source = .error (stopDiagnostic source stop) := by
  rw [formsOf, h]

/-- Markup is the first thing that occurs in it. -/
theorem exists_occurrences {form : Form} (h : form.isMarkup = true) :
    ∃ rest, occurrences form = .form form :: rest := by
  cases form with
  | element slice name attributes children closing => exact ⟨_, rfl⟩
  | selfClosed slice name attributes => exact ⟨_, rfl⟩
  | fragment slice children => exact ⟨_, rfl⟩
  | _ => cases h

theorem markup?_form {form : Form} (h : form.isMarkup = true) :
    Occurrence.markup? (.form form) = some form := by
  cases form with
  | element slice name attributes children closing => rfl
  | selfClosed slice name attributes => rfl
  | fragment slice children => rfl
  | _ => cases h

theorem findSome?_occurrences {form : Form} (h : form.isMarkup = true) (rest : List Occurrence) :
    (occurrences form ++ rest).findSome? Occurrence.markup? = some form := by
  obtain ⟨inside, hinside⟩ := exists_occurrences h
  rw [hinside, List.cons_append, List.findSome?_cons, markup?_form h]

theorem findMarkup_cons {form : Form} (h : form.isMarkup = true) (rest : List Form) :
    findMarkup (form :: rest) = some form :=
  findSome?_occurrences h _

/-! ## Markup as it stands -/

section Markup

variable {front : List Char} {node : Node}

/-- Marked text is markup, up to a text that no semicolon opens. -/
theorem MarkedBefore.settles_markupSource {rest : List Char} {kind : Form → Prop}
    (marked : MarkedBefore free front rest kind) (hrest : Fails (Reader.sign ";") (of rest)) :
    Settles free Rule.markupSource (of (front ++ rest)) front.length
      (fun forms => ∃ form, forms = [form] ∧ kind form) := by
  have hend : (of (front ++ rest)).advance front.length = of rest := by
    rw [advance_of, List.drop_left]
  have htagged := marked.settles [] (by simp)
  rw [List.length_nil, Nat.zero_add] at htagged
  have hmarkup : Settles free Reader.markup (of (front ++ rest)) front.length kind :=
    htagged.map fun _ hfound => hfound
  have hsource : Settles free Rule.markupSource (of (front ++ rest)) (front.length + 0)
      (fun forms => ∃ form, forms = [form] ∧ kind form) := by
    refine hmarkup.andThen fun form hform => ?_
    rw [hend]
    exact (Offers.missing hrest).returning fun _ _ => ⟨form, rfl, hform⟩
  exact hsource

/-- A text between angle brackets is not trimmed. -/
theorem trim_eq_of_brackets {text before behind : List Char} (hopens : text = '<' :: behind)
    (hcloses : text = before ++ ['>']) : Text.trim text = text := by
  refine Text.trim_eq_self ?_ ?_
  · rw [hopens]
    rfl
  · rw [hcloses, List.getLast?_concat]
    rfl

theorem MarkedBefore.trim_eq {rest : List Char} {kind : Form → Prop}
    (marked : MarkedBefore free front rest kind) : Text.trim front = front := by
  obtain ⟨c, more, hopens, _⟩ := marked.opens
  obtain ⟨before, hcloses⟩ := marked.closes
  exact trim_eq_of_brackets hopens hcloses

theorem Marked.trim_eq (marked : Marked free front node) : Text.trim front = front :=
  (marked []).trim_eq

/-- Blanks behind marked text are trimmed. -/
theorem Marked.trim_append (marked : Marked free front node) {behind : List Char}
    (hbehind : ∀ c ∈ behind, Text.isBlank c = true) : Text.trim (front ++ behind) = front := by
  obtain ⟨c, more, hopens, _⟩ := marked.opens
  obtain ⟨before, hcloses⟩ := marked.closes
  have hhead : front.head?.any Text.isBlank = false := by
    rw [hopens]
    rfl
  have hlast : front.getLast?.any Text.isBlank = false := by
    rw [hcloses, List.getLast?_concat]
    rfl
  have htrim := @Text.trim_append [] front behind (by simp) hbehind hhead hlast
  rwa [List.nil_append] at htrim

/-- A form that stands for a node is turned into an alike tree. -/
theorem Stands.exists_nodeOf {form : Form} (stands : Stands form node) {levels : Nat}
    (hheight : node.height ≤ levels) (supply : Supply) :
    ∃ found after, nodeOf levels supply form = .ok (found, after) ∧
      found.Alike node.withoutOff := by
  obtain ⟨found, after, hnode, hreread⟩ := stands.converted levels supply hheight
  exact ⟨found, after, hnode, stands.printable.alike_of_unlabelled_eq hreread⟩

theorem treeOf_of_findMarkup {forms : List Form} {form : Form}
    (hfound : findMarkup forms = some form) (levels : Nat) (supply : Supply) :
    treeOf levels forms supply = nodeOf levels supply form := by
  rw [treeOf, hfound]

/-- Marked text on its own is one piece of markup. -/
theorem MarkedBefore.readWhole_markupSource {kind : Form → Prop}
    (marked : MarkedBefore free front [] kind) :
    ∃ form, readWhole Rule.markupSource (of front) = .ok [form] ∧ kind form := by
  have hnone : Fails (Reader.sign ";") (of []) :=
    starts_sign rfl _ 0 [] (.of_firm rfl) (barred_singleton.mpr rfl)
  have hsettles := marked.settles_markupSource hnone
  rw [List.append_nil, ← length_of front] at hsettles
  obtain ⟨_, hwhole, form, rfl, hform⟩ := readWhole_of_settles hsettles
  exact ⟨form, hwhole, hform⟩

theorem formsOf_of_marked (marked : Marked free front node) :
    ∃ form, formsOf Rule.markupSource front = .ok [form] ∧ Stands form node := by
  obtain ⟨form, hwhole, stands⟩ := (marked []).readWhole_markupSource
  refine ⟨form, formsOf_of_readWhole hwhole fun occurrence hoccurrence => ?_, stands⟩
  rw [occurrencesIn, occurrencesIn, List.append_nil] at hoccurrence
  exact stands.tidy occurrence hoccurrence

/-- Marked text that is read as markup is a form that stands for its node. -/
theorem parseMarkup_of_marked (marked : Marked free front node) :
    ∃ form, Stands form node ∧ ∀ levels earlier supply,
      parseMarkup levels front earlier supply = nodeOf levels supply form := by
  obtain ⟨c, more, hopens, _⟩ := marked.opens
  obtain ⟨form, hforms, stands⟩ := formsOf_of_marked marked
  have hhead : front.head? = some '<' := by rw [hopens]; rfl
  refine ⟨form, stands, fun levels earlier supply => ?_⟩
  rw [parseMarkup, if_pos hhead, hforms]
  exact treeOf_of_findMarkup (findMarkup_cons stands.isMarkup []) levels supply

/-! ## Several roots -/

/-- Marked texts in lines of their own. -/
theorem lines_of_marked {fronts : List (List Char)} {nodes : List Node}
    (h : List.Forall₂ (Marked free) fronts nodes) :
    Lines free false (fronts.flatMap fun front => '\n' :: front) (nodes.map Content.node) := by
  induction h with
  | nil => exact .nil
  | @cons front node fronts nodes marked hrest ih =>
      have hgap : ∀ c ∈ ['\n'], Lexeme.isSpace c = true := by simp [Lexeme.isSpace]
      rw [List.flatMap_cons, List.map_cons, List.cons_append]
      exact .markup hgap marked ih

/-- Markup with more markup behind it is not one piece of markup. -/
theorem formsOf_error_of_marked (marked : Marked free front node) {rest : List Char} {other : Node}
    {second : List Char} (hsecond : Marked free second other) :
    ∃ diagnostic, formsOf Rule.markupSource (front ++ '\n' :: (second ++ rest)) =
      .error diagnostic := by
  obtain ⟨c, more, rfl, _⟩ := hsecond.opens
  have hfaces : (of (['\n'] ++ ('<' :: c :: more ++ rest))).Faces 1 ('<' :: c :: more ++ rest) :=
    .of_spaces (by simp [Lexeme.isSpace]) rfl
  have hend : (of (front ++ '\n' :: ('<' :: c :: more ++ rest))).advance front.length =
      of (['\n'] ++ ('<' :: c :: more ++ rest)) := by
    rw [advance_of, List.drop_left]
    rfl
  have hnone : Fails (Reader.sign ";") (of (['\n'] ++ ('<' :: c :: more ++ rest))) :=
    starts_sign rfl _ _ _ hfaces (barred_singleton.mpr rfl)
  have hsettles := (marked _).settles_markupSource hnone
  have hshort : ¬ EndsAt (of (front ++ '\n' :: ('<' :: c :: more ++ rest))) front.length := by
    rintro ⟨gap, hgap, hlength⟩
    rw [hend, hfaces.gaps, if_neg Nat.one_ne_zero] at hgap
    rw [length_of] at hlength
    simp only [List.mem_cons, List.not_mem_nil, or_false] at hgap
    simp only [List.length_append, List.length_cons] at hlength
    omega
  obtain ⟨stop, hstop⟩ := readWhole_error hsettles hshort
  exact ⟨_, formsOf_of_error hstop⟩

/-- Several marked texts are no markup as they stand, but inside a fragment they are. -/
theorem parseMarkup_of_several {first second : List Char} {rest : List (List Char)}
    {node other : Node} {others : List Node} (marked : Marked free first node)
    (hsecond : Marked free second other) (hrest : List.Forall₂ (Marked free) rest others)
    {id : String}
    (hlegible : Node.Legible free ⟨.fragment, [], (node :: other :: others).map Content.node, id⟩)
    {levels : Nat}
    (hheight : Node.height ⟨.fragment, [], (node :: other :: others).map Content.node, id⟩ ≤ levels)
    (earlier : Option Diagnostic) (supply : Supply) :
    ∃ found after, parseMarkup levels
        (first ++ (second :: rest).flatMap fun front => '\n' :: front) earlier supply =
        .ok (found, after) ∧
      found.Alike (Node.withoutOff
        ⟨.fragment, [], (node :: other :: others).map Content.node, id⟩) := by
  have hlines := @Lines.markup free [] (by simp) false false _ _ _ _ marked
    (lines_of_marked (List.Forall₂.cons hsecond hrest))
  have hfragment := marked_fragment hlegible (@Lines.enclosed free _ _ _ hlines [] (by simp))
  obtain ⟨form, hforms, stands⟩ := formsOf_of_marked hfragment
  have hwrapped : '<' :: '>' :: ([] ++ (first ++ (second :: rest).flatMap fun front =>
      '\n' :: front) ++ [] ++ ['<', '/', '>']) =
      wrapped (first ++ (second :: rest).flatMap fun front => '\n' :: front) := by
    simp [wrapped]
  rw [hwrapped] at hforms
  obtain ⟨diagnostic, herror⟩ : ∃ diagnostic, formsOf Rule.markupSource
      (first ++ (second :: rest).flatMap fun front => '\n' :: front) = .error diagnostic :=
    formsOf_error_of_marked marked hsecond
  have hhead : (first ++ (second :: rest).flatMap fun front => '\n' :: front).head? = some '<' := by
    obtain ⟨c, more, rfl, _⟩ := marked.opens
    rfl
  obtain ⟨found, after, hnode, halike⟩ := stands.exists_nodeOf hheight supply
  refine ⟨found, after, ?_, halike⟩
  rw [parseMarkup, if_pos hhead, herror, hforms]
  exact (treeOf_of_findMarkup (findMarkup_cons stands.isMarkup []) levels supply).trans hnode

end Markup

end EditableMarkup.Source
