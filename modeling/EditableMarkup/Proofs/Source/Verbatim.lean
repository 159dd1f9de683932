import EditableMarkup.Proofs.Source.Accepted
import EditableMarkup.Proofs.Source.Roots

/-!
# Expressions word for word

Whatever is no literal is kept word for word: the text of every expression in the
tree of a source is a part of the trimmed source, without blanks at its ends and
without a comment in front.  This holds for the values of attributes, for what
mappings hold at any depth, and for children, once the dots of a spread are
dropped.
-/

namespace EditableMarkup

/-! ## Expressions of values -/

mutual

/-- All expressions in a value, also those in mappings. -/
def Value.expressions : Value → List String
  | .expression source => [source]
  | .mapping entries => Value.expressionsIn entries
  | .string _ | .number _ | .boolean _ => []

/-- All expressions in the values of entries. -/
def Value.expressionsIn : List (String × Value) → List String
  | [] => []
  | (_, value) :: rest => value.expressions ++ Value.expressionsIn rest

end

theorem Value.mem_expressionsIn {text : String} {entries : List (String × Value)} :
    text ∈ Value.expressionsIn entries ↔ ∃ entry ∈ entries, text ∈ entry.2.expressions := by
  induction entries with
  | nil => simp [Value.expressionsIn]
  | cons entry rest ih => simp [Value.expressionsIn, ih]

namespace Source

open EditableMarkup.Grammar

/-! ## Quoted texts -/

/-- The marks that open a comment. -/
def commentMarks : List String :=
  ["//", "/*"]

/-- A text is taken from a source word for word: it is a part of the source, not empty, without blanks
at its ends, and no comment opens it. -/
structure Verbatim (source : List Char) (text : String) : Prop where
  part : text.toList <:+: source
  tight : Text.Tight text.toList
  noComment : ∀ mark ∈ commentMarks, ¬ mark.toList <+: text.toList

/-- An expression among children, without the dots of a spread. -/
def withoutSpread (text : String) : String :=
  match text.toList with
  | '.' :: '.' :: '.' :: rest => String.ofList rest
  | _ => text

/-- A node takes its expressions from a source: those in its attributes, and those among its
children. -/
structure TakesVerbatim (source : List Char) (node : Node) : Prop where
  attributes : ∀ entry ∈ node.attributes, ∀ text ∈ entry.2.expressions, Verbatim source text
  children : ∀ text, .expression text ∈ node.children → Verbatim source (withoutSpread text)

variable {source : List Char} {window : Window}

/-- What a slice covers of a window lies in the source that the window shows. -/
theorem infix_of_cutFrom (shows_ : ShowsOnly window source) {slice : Slice}
    (cut : slice.CutFrom window) : slice.chars <:+: source := by
  obtain ⟨behind, hsource, hleft⟩ := shows_
  obtain ⟨front, hfront⟩ := cut.suffix
  have hchars := List.take_append_drop slice.length slice.source
  have hwhole : (front ++ slice.chars) ++ slice.source.drop slice.length = source ++ behind := by
    rw [List.append_assoc, Slice.chars, hchars, hfront, hsource]
  have hlength := cut.length_le
  have hprefix : front ++ slice.chars <+: source := by
    refine List.prefix_of_prefix_length_le ⟨_, hwhole⟩ ⟨behind, rfl⟩ ?_
    have hall := congrArg List.length hwhole
    simp only [List.length_append, List.length_drop] at hall ⊢
    omega
  exact (List.suffix_append front slice.chars).isInfix.trans hprefix.isInfix

/-- The text of a slice is taken from the source, and it is no spread. -/
theorem verbatim_of_cutFrom (shows_ : ShowsOnly window source) {slice : Slice}
    (cut : slice.CutFrom window) : Verbatim source slice.text where
  part := by
    rw [Slice.text, String.toList_ofList]
    exact infix_of_cutFrom shows_ cut
  tight := by
    rw [Slice.text, String.toList_ofList]
    exact cut.tight
  noComment mark hmark hstart := by
    have hslash : ∀ mark ∈ commentMarks, mark.toList.head? = some '/' := by decide
    obtain ⟨more, hmore⟩ := List.head?_eq_some_iff.mp (hslash mark hmark)
    rw [Slice.text, String.toList_ofList, hmore] at hstart
    obtain ⟨behind, hbehind⟩ := hstart.trans (List.take_prefix ..)
    exact cut.noSlash (by rw [← hbehind]; rfl)

theorem withoutSpread_of_cutFrom {slice : Slice} (cut : slice.CutFrom window) :
    withoutSpread slice.text = slice.text := by
  unfold withoutSpread
  split
  next rest hdots =>
    rw [Slice.text, String.toList_ofList] at hdots
    have hstart : ['.', '.', '.'] <+: slice.chars := ⟨rest, hdots.symm⟩
    exact absurd (hstart.trans (List.take_prefix ..)) cut.noDots
  next => rfl

theorem withoutSpread_spread (text : String) : withoutSpread ("..." ++ text) = text := by
  have hdots : ("..." ++ text).toList = '.' :: '.' :: '.' :: text.toList := by
    rw [String.toList_append]
    rfl
  simp only [withoutSpread, hdots, String.ofList_toList]

/-! ## Values -/

theorem verbatim_of_sound (shows_ : ShowsOnly window source) {form : Form}
    (sound : form.Sound window) : Verbatim source form.text :=
  verbatim_of_cutFrom shows_ (sound form (mem_occurrences_self form)).cut

/-- A single expression, the whole form. -/
theorem verbatim_expression (shows_ : ShowsOnly window source) {form : Form}
    (sound : form.Sound window) :
    ∀ text ∈ (Value.expression form.text).expressions, Verbatim source text := by
  intro text htext
  rw [Value.expressions, List.mem_singleton] at htext
  rw [htext]
  exact verbatim_of_sound shows_ sound

mutual

theorem verbatim_valueOf (shows_ : ShowsOnly window source) : ∀ (form : Form) (value : Value),
    form.Sound window → valueOf form = .ok value → ∀ text ∈ value.expressions, Verbatim source text
  | .string slice, value, _, h => by
      rw [valueOf] at h
      obtain ⟨_, _, h⟩ := exists_of_bind_eq_ok h
      cases h
      exact fun _ htext => absurd htext List.not_mem_nil
  | .number slice, value, sound, h => by
      rw [valueOf] at h
      obtain ⟨number, _, h⟩ := exists_of_bind_eq_ok h
      cases number with
      | none =>
          cases h
          exact verbatim_expression shows_ sound
      | some number =>
          cases h
          exact fun _ htext => absurd htext List.not_mem_nil
  | .boolean slice, value, _, h => by
      rw [valueOf] at h
      cases h
      exact fun _ htext => absurd htext List.not_mem_nil
  | .signed slice sign operand, value, sound, h => by
      cases operand with
      | number literal =>
          rw [valueOf] at h
          obtain ⟨number, _, h⟩ := exists_of_bind_eq_ok h
          cases number with
          | none =>
              cases h
              exact verbatim_expression shows_ sound
          | some number =>
              cases h
              exact fun _ htext => absurd htext List.not_mem_nil
      | _ =>
          cases h
          exact verbatim_expression shows_ sound
  | .group slice inner, value, sound, h => by
      rw [valueOf] at h
      obtain ⟨found, hfound, h⟩ := exists_of_bind_eq_ok h
      have hinner := verbatim_valueOf shows_ inner found (Form.sound_group.mp sound).2 hfound
      cases found with
      | expression text =>
          cases h
          exact verbatim_expression shows_ sound
      | string text | number number | boolean value | mapping entries =>
          cases h
          exact hinner
  | .object slice members, value, sound, h => by
      rw [valueOf] at h
      obtain ⟨entries, hentries, h⟩ := exists_of_bind_eq_ok h
      cases entries with
      | none =>
          cases h
          exact verbatim_expression shows_ sound
      | some entries =>
          cases h
          intro text htext
          obtain ⟨entry, hentry, htext⟩ := Value.mem_expressionsIn.mp htext
          exact verbatim_entriesOf shows_ members [] entries (Form.sound_object.mp sound).2
            (fun _ h => absurd h List.not_mem_nil) hentries entry hentry text htext
  | .plain .., value, sound, h | .function .., value, sound, h | .block .., value, sound, h
  | .returned .., value, sound, h | .returnedNothing _, value, sound, h
  | .element .., value, sound, h | .selfClosed .., value, sound, h
  | .fragment .., value, sound, h => by
      cases h
      exact verbatim_expression shows_ sound

theorem verbatim_entriesOf (shows_ : ShowsOnly window source) : ∀ (members : List (Member Form))
    (entries result : Entries Value),
    (∀ member ∈ members, member.Sound window) →
    (∀ entry ∈ entries, ∀ text ∈ entry.2.expressions, Verbatim source text) →
    entriesOf entries members = .ok (some result) →
    ∀ entry ∈ result, ∀ text ∈ entry.2.expressions, Verbatim source text
  | [], entries, result, _, hentries, h => by
      rw [entriesOf] at h
      cases h
      exact hentries
  | .property (.word key) value :: rest, entries, result, sound, hentries, h => by
      obtain ⟨hproperty, hrest⟩ := List.forall_mem_cons.mp sound
      rw [entriesOf] at h
      obtain ⟨meaning, hmeaning, h⟩ := exists_of_bind_eq_ok h
      refine verbatim_entriesOf shows_ rest _ result hrest (fun entry hentry => ?_) h
      rcases Entries.mem_of_mem_set hentry with hold | rfl
      · exact hentries entry hold
      · exact verbatim_valueOf shows_ value meaning (Member.sound_property.mp hproperty).2 hmeaning
  | .property (.quoted key) value :: rest, entries, result, sound, hentries, h => by
      obtain ⟨hproperty, hrest⟩ := List.forall_mem_cons.mp sound
      rw [entriesOf] at h
      obtain ⟨name, _, h⟩ := exists_of_bind_eq_ok h
      obtain ⟨meaning, hmeaning, h⟩ := exists_of_bind_eq_ok h
      refine verbatim_entriesOf shows_ rest _ result hrest (fun entry hentry => ?_) h
      rcases Entries.mem_of_mem_set hentry with hold | rfl
      · exact hentries entry hold
      · exact verbatim_valueOf shows_ value meaning (Member.sound_property.mp hproperty).2 hmeaning
  | .property (.number _) _ :: _, _, _, _, _, h | .property (.computed _) _ :: _, _, _, _, _, h
  | .other _ :: _, _, _, _, _, h => by
      cases h

end

/-! ## Attributes and children -/

theorem verbatim_settingOf (shows_ : ShowsOnly window source) {setting : Setting Form}
    (sound : setting.Sound window) (hbraces : ∀ slice, setting ≠ .emptyBraces slice)
    {value : Value} (h : settingOf setting = .ok value) : ∀ text ∈ value.expressions, Verbatim source text := by
  cases setting with
  | quoted slice =>
      cases h
      exact fun _ htext => absurd htext List.not_mem_nil
  | braces form => exact verbatim_valueOf shows_ form value (Setting.sound_braces.mp sound) h
  | emptyBraces slice => exact absurd rfl (hbraces slice)
  | markup form =>
      cases h
      exact verbatim_expression shows_ (Setting.sound_markup.mp sound)

theorem verbatim_becomes (shows_ : ShowsOnly window source) {child : Child Form}
    (sound : child.Sound window) {text : String} (h : Becomes child (.expression text)) : Verbatim source (withoutSpread text) := by
  cases h with
  | braces h =>
      next form =>
      have hform := Child.sound_braces.mp sound
      have hinner : form.unwrapped.Sound window := fun other hother =>
        hform other (covered_occurrences form _ (mem_occurrences_unwrapped form) hother)
      have hcut := (hinner _ (mem_occurrences_self _)).cut
      have hwhole : Verbatim source (withoutSpread form.unwrapped.text) := by
        rw [Form.text, withoutSpread_of_cutFrom hcut]
        exact verbatim_of_cutFrom shows_ hcut
      obtain ⟨value, _, h⟩ := exists_of_bind_eq_ok h
      cases value with
      | string text | boolean value => cases h
      | number number =>
          simp only at h
          split at h
          · cases h
          · cases h
      | mapping entries | expression source =>
          cases h
          exact hwhole
  | spread form =>
      rw [withoutSpread_spread]
      exact verbatim_of_sound shows_ (Child.sound_spread.mp sound)

/-- An attribute that is set to empty braces occurs among the attributes. -/
theorem emptySetting_mem {attributes : List (Attribute Form)} {name slice : Slice}
    (h : .named name (.emptyBraces slice) ∈ attributes) :
    .emptySetting slice ∈ occurrencesInAttributes attributes := by
  induction attributes with
  | nil => cases h
  | cons item rest ih =>
      rcases List.mem_cons.mp h with rfl | h
      · exact List.mem_cons_self ..
      · have hrest := ih h
        rcases item with _ | ⟨_, _ | _ | _ | _⟩ | _ | _ <;> simp [occurrencesInAttributes, hrest]

/-- In sound markup no attribute is set to empty braces. -/
theorem ne_emptyBraces_of_partsOf? {root form : Form} (sound : SoundMarkup window root)
    (hform : .form form ∈ occurrences root) {parts : Parts} (hparts : partsOf? form = some parts)
    {name : Slice} {setting : Setting Form} (h : .named name setting ∈ parts.attributes)
    (slice : Slice) : setting ≠ .emptyBraces slice := by
  rintro rfl
  have hmem := emptySetting_mem h
  refine sound.noEmptySetting slice (covered_occurrences root form hform ?_)
  cases form with
  | element whole tag attributes children closing =>
      cases hparts
      exact List.mem_cons_of_mem _ (List.mem_append_left _ hmem)
  | selfClosed whole tag attributes =>
      cases hparts
      exact List.mem_cons_of_mem _ hmem
  | fragment whole children =>
      cases hparts
      cases hmem
  | _ => cases hparts

/-! ## Trees -/

/-- The nodes of sound markup take their expressions from the source that the window shows. -/
theorem takesVerbatim_of_nodeOf (shows_ : ShowsOnly window source) {root : Form}
    (sound : SoundMarkup window root) {levels : Nat} {supply after : Supply} {tree : Node}
    (h : nodeOf levels supply root = .ok (tree, after)) :
    ∀ node ∈ tree.nodes, TakesVerbatim source node := by
  intro node hnode
  obtain ⟨form, parts, hform, hparts, hmake⟩ := originates_of_nodeOf root h node hnode
  have hsound := sound.parts form parts hform hparts
  refine ⟨fun entry hentry => ?_, fun text htext => ?_⟩
  · rcases setBy_of_attributesOf hmake.attributes entry hentry with hnone | hset
    · cases hnone
    · cases hset with
      | bare _ => exact fun _ htext => absurd htext List.not_mem_nil
      | named hmem hvalue =>
          have hsetting := (Attribute.sound_named.mp (hsound.attributes _ hmem)).2
          exact verbatim_settingOf shows_ hsetting
            (ne_emptyBraces_of_partsOf? sound hform hparts hmem) hvalue
  · obtain ⟨child, hchild, hbecomes⟩ := hmake.children _ htext rfl
    exact verbatim_becomes shows_ (hsound.children child hchild) hbecomes

/-- Every expression in the tree of a source is taken word for word from the trimmed source. -/
theorem parseWithin_verbatim {levels : Nat} {text : String} {supply after : Supply} {tree : Node}
    (h : parseWithin levels text supply = .ok (tree, after)) :
    ∀ node ∈ tree.nodes, TakesVerbatim (Text.trim text.toList) node := by
  obtain ⟨window, root, hshows, hsound, hnode⟩ := stemsFrom_of_parseWithin h
  exact takesVerbatim_of_nodeOf hshows hsound hnode

/-- The expressions in the attributes of a node and among its children. -/
def expressionsOf (node : Node) : List String :=
  Value.expressionsIn node.attributes ++ node.children.filterMap fun
    | .expression text => some text
    | _ => none

/-- Two roots, one with an expression inside a mapping and one with a spread. -/
def quotingSource : String := "<a b=\x7b\x7bc: ([ x ])\x7d\x7d />\n<p>\x7b... y \x7d</p>"

theorem parse_quotingSource :
    ∃ found after, parse quotingSource ⟨0⟩ = .ok (found, after) ∧
      found.nodes.flatMap expressionsOf = ["([ x ])", "...y"] ∧
      ∀ node ∈ found.nodes, TakesVerbatim (Text.trim quotingSource.toList) node := by
  obtain ⟨found, after, hparse, hquoted⟩ : ∃ found after,
      parse quotingSource ⟨0⟩ = .ok (found, after) ∧
        decide (found.nodes.flatMap expressionsOf = ["([ x ])", "...y"]) = true :=
    exists_of_isParsed (by decide +kernel)
  exact ⟨found, after, hparse, of_decide_eq_true hquoted, parseWithin_verbatim hparse⟩

end Source

end EditableMarkup
