import EditableMarkup.Proofs.Source.Answers
import EditableMarkup.Proofs.Source.Elements
import EditableMarkup.Proofs.Source.Origins

/-!
# Accepted sources

The tree of a source is the tree of some markup that was read in one of the
attempts.  Whichever attempt it was, all that the markup is made of lies in the
source: if the source was read inside a fragment, the markup is that fragment, and
its children end in front of its closing tag.
-/

namespace EditableMarkup.Source

open EditableMarkup.Grammar Place Reader

variable {source : List Char} {window : Window}

/-! ## Parts of sound markup -/

/-- What a node is made of is sound. -/
structure Parts.Sound (window : Window) (parts : Parts) : Prop where
  tag : parts.tag = .fragment ∨ ∃ name, parts.tag = tagOf name ∧ name.Lexed window.source
  attributes : ∀ item ∈ parts.attributes, item.Sound window
  children : ∀ child ∈ parts.children, child.Sound window

theorem sound_of_partsOf? {form : Form} (sound : form.Sound window) {parts : Parts}
    (h : partsOf? form = some parts) : parts.Sound window := by
  cases form with
  | element slice name attributes children closing =>
      obtain ⟨_, hname, hattributes, hchildren, _⟩ := Form.sound_element.mp sound
      cases h
      exact ⟨Or.inr ⟨name, rfl, hname⟩, hattributes, hchildren⟩
  | selfClosed slice name attributes =>
      obtain ⟨_, hname, hattributes⟩ := Form.sound_selfClosed.mp sound
      cases h
      exact ⟨Or.inr ⟨name, rfl, hname⟩, hattributes, fun _ h => absurd h List.not_mem_nil⟩
  | fragment slice children =>
      cases h
      exact ⟨Or.inl rfl, fun _ h => absurd h List.not_mem_nil, (Form.sound_fragment.mp sound).2⟩
  | _ => cases h

/-- All that the nodes of some markup are made of is sound, and no attribute in it is set to empty
braces. -/
structure SoundMarkup (window : Window) (root : Form) : Prop where
  parts : ∀ form parts, .form form ∈ occurrences root → partsOf? form = some parts →
    parts.Sound window
  noEmptySetting : ∀ slice, .emptySetting slice ∉ occurrences root

/-- A window shows a source: behind the source it leaves out as much as follows there. -/
def ShowsOnly (window : Window) (source : List Char) : Prop :=
  ∃ behind, window.source = source ++ behind ∧ behind.length = window.left

theorem showsOnly_self (source : List Char) : ShowsOnly ⟨source, 0⟩ source :=
  ⟨[], (List.append_nil source).symm, rfl⟩

/-! ## The fragment around a source -/

/-- The tag that closes the fragment around a source. -/
def closingTag : List Char :=
  ['<', '/', '>']

/-- The window of a source inside a fragment, behind the opening tag. -/
def insideWindow (source : List Char) : Window where
  source := source ++ closingTag
  left := 3

theorem showsOnly_insideWindow (source : List Char) :
    ShowsOnly (insideWindow source) source :=
  ⟨closingTag, rfl, rfl⟩

/-- A sign at the front of a text is read there. -/
theorem advance_of_reads_sign {place : Place} {spelling : String} {c : Char} {text : List Char}
    (faces : place.Faces 0 (c :: text)) (visible : Lexeme.Visible spelling)
    (hsign : Lexeme.sign spelling (c :: text) = some 1) {reading : Reading Unit}
    (h : Reads (Reader.sign spelling) place reading) :
    reading.used = 1 ∧ place.advance reading.used = of text := by
  have hused := (settles_sign faces visible hsign).used_eq h
  rw [hused]
  exact ⟨rfl, faces.advance (Nat.succ_pos _)⟩

/-- Behind an angle bracket that another one follows, no element is read. -/
theorem fails_elementMarkup_empty {place : Place} {text : List Char}
    (faces : place.Faces 0 ('<' :: '>' :: text)) : Fails Rule.elementMarkup place := by
  refine fails_sliced (fails_bracket faces fun _ => ?_)
  refine starts_elementName.bind _ _ _ (.of_firm rfl) ?_
  simp only [barred_cons, barred_nil, and_true]
  and_intros <;> rfl

/-- The children of a fragment that starts with its opening tag lie in front of its closing tag. -/
theorem fragment_of_reads {place : Place} {text : List Char}
    (faces : place.Faces 0 ('<' :: '>' :: text)) {reading : Reading Tagged}
    (h : Reads Rule.fragment place reading) {left : Nat}
    (hused : reading.used + left ≤ text.length + 5) :
    ∃ slice children, reading.value.form = .fragment slice children ∧
      ∀ child ∈ children, child.Sound ⟨text, left⟩ := by
  obtain ⟨before, hbefore, rfl⟩ := reads_sliced.mp h
  obtain ⟨bracket, hbracket, opened, hopened, rfl⟩ := exists_of_reads_bind hbefore
  obtain ⟨hbracketUsed, hplace⟩ := advance_of_reads_sign faces rfl rfl hbracket
  rw [hplace] at hopened
  obtain ⟨end_, hend, inner, hinner, rfl⟩ := exists_of_reads_bind hopened
  obtain ⟨hendUsed, hplace⟩ := advance_of_reads_sign (.of_firm rfl) rfl rfl hend
  rw [hplace] at hinner
  obtain ⟨inside, hinside, closing, hclosing, rfl⟩ := exists_of_reads_bind hinner
  obtain ⟨slash, hslash, last, hlast, rfl⟩ := exists_of_reads_bind hclosing
  obtain ⟨angle, hangle, made, hmade, rfl⟩ := exists_of_reads_bind hlast
  obtain ⟨_, _, hslashUsed, _⟩ := exists_of_reads_sign_shows ((shows_of text).advance_shows _) hslash
  obtain ⟨_, _, hangleUsed, _⟩ := exists_of_reads_sign_shows
    (((shows_of text).advance_shows _).advance_shows _) hangle
  have hone : ("/" : String).toList.length = 1 := rfl
  have hone' : (">" : String).toList.length = 1 := rfl
  rw [reads_pure.mp hmade] at hused ⊢
  simp only [Reading.followedBy_used] at hused
  have hsound : (of text).Sound ⟨text, left⟩ := Place.sound_of List.suffix_rfl
  refine ⟨_, inside.value.children, rfl, Rule.sound_of_reads_inside hsound hinside ?_⟩
  rw [text_of]
  change inside.used + left ≤ text.length + 1
  omega

/-- A source that is read inside a fragment is read as the fragment. -/
theorem fragment_of_readWhole {forms : List Form}
    (h : readWhole Rule.markupSource (of (wrapped source)) = .ok forms) :
    ∃ slice children, forms = [.fragment slice children] ∧
      ∀ child ∈ children, child.Sound (insideWindow source) := by
  have hwrapped : wrapped source = '<' :: '>' :: (source ++ closingTag) := rfl
  obtain ⟨reading, hreads, hend, rfl⟩ := exists_of_readWhole h
  rw [hwrapped] at hreads hend
  obtain ⟨markup, hmarkup, behind, hbehind, rfl⟩ := exists_of_reads_bind hreads
  obtain ⟨semicolon, _, listed, hlisted, rfl⟩ := exists_of_reads_bind hbehind
  obtain ⟨tagged, htagged, made, hmade, rfl⟩ := exists_of_reads_bind hmarkup
  rw [reads_pure.mp hmade] at hlisted hend
  rw [reads_pure.mp hlisted]
  simp only [Reading.followedBy_used, length_of, List.length_cons, List.length_append] at hend
  have hfaces : (bare ('<' :: '>' :: (source ++ closingTag))).Faces 0
      ('<' :: '>' :: (source ++ closingTag)) := .of_shows (shows_bare _) rfl
  rw [Reads, tagged_of (List.cons_ne_nil _ _)] at htagged
  obtain ⟨reader, hreader, hfound⟩ := exists_of_reads_oneOf htagged
  simp only [List.mem_cons, List.not_mem_nil, or_false] at hreader
  rcases hreader with rfl | rfl
  · exact absurd hfound (fails_elementMarkup_empty hfaces tagged)
  · have hused : tagged.used + 3 ≤ (source ++ closingTag).length + 5 := by
      rw [List.length_append]
      omega
    obtain ⟨slice, children, hform, hchildren⟩ := fragment_of_reads hfaces hfound hused
    refine ⟨slice, children, ?_, hchildren⟩
    exact congrArg (fun form => [form]) hform

/-! ## The markup of a tree -/

/-- The markup of accepted forms is sound if all forms are. -/
theorem soundMarkup_of_formsSound {reader : Reader (List Form)} {text : List Char}
    {forms : List Form} (hforms : formsOf reader text = .ok forms) (sound : FormsSound window forms)
    {root : Form} (hfound : findMarkup forms = some root) : SoundMarkup window root := by
  have hcovered := covered_occurrencesIn forms root (mem_of_findMarkup hfound).1
  refine ⟨fun form parts hmem hparts => ?_, (meaningful_of_findMarkup hforms hfound).noEmptySetting⟩
  refine sound_of_partsOf? (fun other hother => sound other (hcovered ?_)) hparts
  exact covered_occurrences root form hmem hother

/-- The markup of a source that is read inside a fragment is sound behind the opening tag. -/
theorem soundMarkup_of_wrapped {forms : List Form}
    (hforms : formsOf Rule.markupSource (wrapped source) = .ok forms) {root : Form}
    (hfound : findMarkup forms = some root) : SoundMarkup (insideWindow source) root := by
  have hnone := (meaningful_of_findMarkup hforms hfound).noEmptySetting
  obtain ⟨slice, children, rfl, hchildren⟩ := fragment_of_readWhole (of_formsOf_eq_ok hforms).1
  cases hfound
  refine ⟨fun form parts hmem hparts => ?_, hnone⟩
  rw [occurrences, List.mem_cons] at hmem
  rcases hmem with heq | hmem
  · cases heq
    cases hparts
    exact ⟨Or.inl rfl, fun _ h => absurd h List.not_mem_nil, hchildren⟩
  · refine sound_of_partsOf? (fun other hother => ?_) hparts
    have hall := allSound_children.mpr fun child hchild => (hchildren child hchild).2
    exact hall other (covered_occurrencesInChildren children form hmem hother)

/-- A result is the tree of sound markup in a source. -/
def StemsFrom (source : List Char) (levels : Nat) (supply : Supply) (result : Node × Supply) :
    Prop :=
  ∃ window root, ShowsOnly window source ∧ SoundMarkup window root ∧
    nodeOf levels supply root = .ok result

section StemsFrom

variable {levels : Nat} {supply : Supply} {result : Node × Supply}

theorem stemsFrom_of_attempt {reader : Reader (List Form)}
    (hattempt : (reader, source) ∈ attempts source) {forms : List Form}
    (hforms : formsOf reader source = .ok forms) (h : treeOf levels forms supply = .ok result) :
    StemsFrom source levels supply result := by
  have hsound := formsSound_of_attempt hattempt (of_formsOf_eq_ok hforms).1
  unfold treeOf at h
  split at h
  next root hfound =>
    exact ⟨_, root, showsOnly_self source, soundMarkup_of_formsSound hforms hsound hfound, h⟩
  next => cases h

theorem stemsFrom_of_wrapped {forms : List Form}
    (hforms : formsOf Rule.markupSource (wrapped source) = .ok forms)
    (h : treeOf levels forms supply = .ok result) : StemsFrom source levels supply result := by
  unfold treeOf at h
  split at h
  next root hfound =>
    exact ⟨_, root, showsOnly_insideWindow source, soundMarkup_of_wrapped hforms hfound, h⟩
  next => cases h

theorem stemsFrom_of_parseMarkup {earlier : Option Diagnostic}
    (h : parseMarkup levels source earlier supply = .ok result) :
    StemsFrom source levels supply result := by
  unfold parseMarkup at h
  split at h
  next =>
    split at h
    next forms hforms => exact stemsFrom_of_attempt (by simp [attempts]) hforms h
    next =>
      split at h
      next forms hforms => exact stemsFrom_of_wrapped hforms h
      next => cases h
  next => cases h

/-- The tree of a source is the tree of sound markup in the trimmed source. -/
theorem stemsFrom_of_parseWithin {text : String} (h : parseWithin levels text supply = .ok result) :
    StemsFrom (Text.trim text.toList) levels supply result := by
  unfold parseWithin parseTrimmed at h
  split at h
  next =>
    split at h
    next forms hforms => exact stemsFrom_of_attempt (by simp [attempts]) hforms h
    next => exact stemsFrom_of_parseMarkup h
  next => exact stemsFrom_of_parseMarkup h

end StemsFrom

end EditableMarkup.Source
