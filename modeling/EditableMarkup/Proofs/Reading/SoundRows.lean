import EditableMarkup.Proofs.Reading.Gaps
import EditableMarkup.Proofs.Reading.Runs
import EditableMarkup.Proofs.Reading.SoundRules

/-!
# Sound sources

The children of an element are followed in runs that meet and part; whichever
run is kept, its children were read one by one.  With the rules of markup, every
rule of the grammar gives sound constructs from sound rows.  The rows of a text
are filled by the rules from the last one to the first, so all of them are sound,
and so is what is read from the whole text.
-/

namespace EditableMarkup.Grammar

open Reader Lexeme

variable {window : Window}

/-! ## Runs of children -/

namespace Run

/-- All children of a run that ends in front of a limit are of a kind. -/
def Of (limit : Nat) (kind : Child Form → Prop) (run : Run) : Prop :=
  run.used ≤ limit → ∀ child ∈ run.children, kind child

variable {limit : Nat} {kind : Child Form → Prop} {run : Run} {runs : List Run}

theorem Of.merge {other : Run} (hrun : run.Of limit kind) (hother : other.Of limit kind) :
    (run.merge other).Of limit kind := by
  cases hbetter : run.better other with
  | false => simpa [Of, Run.merge, hbetter] using hother
  | true => simpa [Of, Run.merge, hbetter] using hrun

theorem Of.append {reading : Reading TaggedChild} (hrun : run.Of limit kind)
    (hchild : run.used + reading.used ≤ limit → kind reading.value.child) (gaps : List Nat) :
    (run.append gaps reading).Of limit kind := by
  intro hlimit
  have hend : run.used + reading.used ≤ limit := hlimit
  have hbefore := hrun (by omega)
  simpa [Run.append, or_imp, forall_and] using ⟨hbefore, hchild hend⟩

theorem Of.insert (hrun : run.Of limit kind) (hruns : ∀ other ∈ runs, other.Of limit kind) :
    ∀ other ∈ run.insert runs, other.Of limit kind := by
  induction runs with
  | nil => simpa [Run.insert] using hrun
  | cons head rest ih =>
      obtain ⟨hhead, hrest⟩ := List.forall_mem_cons.mp hruns
      unfold Run.insert
      split
      · exact List.forall_mem_cons.mpr ⟨hrun, hruns⟩
      · split
        · exact List.forall_mem_cons.mpr ⟨hrun.merge hhead, hrest⟩
        · exact List.forall_mem_cons.mpr ⟨hhead, ih hrest⟩

theorem of_insertAll {longer : List Run} (hlonger : ∀ run ∈ longer, run.Of limit kind)
    (hruns : ∀ run ∈ runs, run.Of limit kind) :
    ∀ run ∈ longer.foldl (fun runs run => run.insert runs) runs, run.Of limit kind := by
  induction longer generalizing runs with
  | nil => exact hruns
  | cons head rest ih =>
      obtain ⟨hhead, hrest⟩ := List.forall_mem_cons.mp hlonger
      exact ih hrest (hhead.insert hruns)

/-- If children that are read in front of a limit are of a kind, all runs consist of such children. -/
theorem of_grow {place : Place} {child : Reader TaggedChild}
    (hchild : ∀ used reading, Reads child (place.advance used) reading →
      used + reading.used ≤ limit → kind reading.value.child)
    (fuel : Nat) {agenda : List Run} (hagenda : ∀ run ∈ agenda, run.Of limit kind) :
    ∀ run ∈ (grow child place fuel agenda).1, run.Of limit kind := by
  induction fuel generalizing agenda with
  | zero => cases agenda <;> exact hagenda
  | succ fuel ih =>
      cases agenda with
      | nil => exact hagenda
      | cons head rest =>
          obtain ⟨hhead, hrest⟩ := List.forall_mem_cons.mp hagenda
          refine List.forall_mem_cons.mpr ⟨hhead, ih (of_insertAll ?_ hrest)⟩
          intro run hrun
          obtain ⟨reading, hreading, rfl⟩ := List.mem_map.mp hrun
          exact hhead.append (hchild _ reading hreading) _

end Run

/-! ## Markup -/

namespace Rule

theorem gives_markupWord : Gives window (Takes window.source Lexeme.markupName) markupWord :=
  .lexeme tight_markupName

theorem gives_elementName : Gives window (ElementName.Lexed window.source) elementName :=
  .oneOf
    ⟨gives_markupWord.map fun _ => id,
      gives_markupWord.bind fun _ hfirst => .skip (.sign rfl) fun _ =>
        (gives_markupWord.separatedBy (.sign rfl)).bind fun _ hrest => .pure ⟨hfirst, hrest⟩,
      gives_markupWord.bind fun _ hspace => .skip (.sign rfl) fun _ =>
        gives_markupWord.bind fun _ hword => .pure ⟨hspace, hword⟩⟩

theorem gives_setting : Gives window (Setting.Sound window) setting := by
  refine .oneOf
    ⟨(Gives.lexeme tight_markupString).map fun _ => Setting.sound_quoted.mpr,
      .sliced <| .skip (.sign rfl) fun _ => Gives.expression.optional.bind fun value hvalue =>
        .skip (.sign rfl) fun _ => .pure fun slice => ?_,
      Gives.markup.map fun _ => Setting.sound_markup.mpr⟩
  cases value with
  | none => exact Setting.sound_emptyBraces
  | some form => exact Setting.sound_braces.mpr (hvalue form rfl)

theorem gives_elementAttribute : Gives window (Attribute.Sound window) elementAttribute :=
  .oneOf
    ⟨gives_markupWord.bind fun _ hword => .either (.nothing (Attribute.sound_bare.mpr hword))
        (.skip (.sign rfl) fun _ => gives_setting.bind fun _ hsetting =>
          .pure (Attribute.sound_named.mpr ⟨hword, hsetting⟩)),
      .skip gives_markupWord.any fun _ => .skip (.sign rfl) fun _ =>
        .skip gives_markupWord.any fun _ =>
          .either (.nothing (Attribute.sound_spaced.mpr formsSound_nil))
            (.skip (.sign rfl) fun _ => gives_setting.bind fun _ hsetting =>
              .pure (Attribute.sound_spaced.mpr hsetting.2)),
      .skip (.sign rfl) fun _ => .skip (.sign rfl) fun _ => Gives.assignment.bind
        fun _ hform => .skip (.sign rfl) fun _ => .pure (Attribute.sound_spread.mpr hform)⟩

theorem yields_child :
    Yields window (Reading.IsOf fun found => found.child.Sound window) child := by
  refine .oneOf ⟨?_, .of_gives ?_, .of_gives ?_, .of_gives ?_⟩
  · -- a text may end with a blank, so it is no span
    intro place sound reading hreading _
    obtain ⟨before, hbefore, after, hafter, rfl⟩ := exists_of_reads_bind hreading
    rw [reads_pure.mp hafter]
    obtain ⟨gap, _, length, hlength, rfl⟩ := exists_of_reads_lexeme hbefore
    exact Child.sound_text.mpr ⟨(sound.advance gap).text_suffix, hlength⟩
  · exact Gives.tagged.bind fun _ helement => .pure (Child.sound_markup.mpr helement)
  · refine .skip (.sign rfl) fun _ => Gives.expression.optional.bind fun value hvalue =>
      .skip (.sign rfl) fun _ => .pure ?_
    cases value with
    | none => exact Child.sound_emptyBraces
    | some form => exact Child.sound_braces.mpr (hvalue form rfl)
  · exact .skip (.sign rfl) fun _ => .skip (.sign rfl) fun _ => Gives.expression.bind
      fun _ hform => .skip (.sign rfl) fun _ => .pure (Child.sound_spread.mpr hform)

/-- Up to the closing tag a run of children is read, and then the angle bracket of the tag. -/
theorem exists_of_reads_inside_run {place : Place} {reading : Reading Inside}
    (h : Reads inside place reading) :
    ∃ run ∈ (Run.grow child place (place.length + 1) [Run.empty]).1, ∃ bracket,
      Reads (Reader.sign "<") (place.advance run.used) bracket ∧
        reading.value.children = run.children ∧ reading.lead = run.used + bracket.lead ∧
        reading.used = run.used + bracket.used := by
  rw [Reads, readings_inside] at h
  rcases mem_of_mem_closingsAll h with ⟨run, hrun, hclosing⟩ | hnone
  · obtain ⟨bracket, hbracket, rfl⟩ := List.mem_map.mp hclosing
    exact ⟨run, hrun, bracket, hbracket, rfl, rfl, rfl⟩
  · cases hnone

/-- The children in front of a closing tag that starts within a part of a source are sound. -/
theorem sound_of_reads_inside {place : Place} (sound : place.Sound window)
    {reading : Reading Inside} (h : Reads inside place reading)
    (hlimit : reading.used + window.left ≤ place.text.length + 1) :
    ∀ child ∈ reading.value.children, child.Sound window := by
  obtain ⟨run, hrun, bracket, hbracket, hchildren, _, hused⟩ := exists_of_reads_inside_run h
  obtain ⟨gap, _, hbracketUsed, _⟩ :=
    exists_of_reads_sign_shows (sound.shows_.advance_shows run.used) hbracket
  have hsign : bracket.used = gap + 1 := hbracketUsed
  have hend : run.used ≤ place.text.length - window.left := by omega
  rw [hchildren]
  refine Run.of_grow ?_ _ ?_ run hrun hend
  · intro used child hchild hend
    exact yields_child _ (sound.advance used) child hchild
      (by rw [sound.advance_text, List.length_drop]; omega)
  · simp [Run.Of, Run.empty]

theorem gives_inside :
    Gives window (fun inside => ∀ child ∈ inside.children, child.Sound window) inside := by
  intro place sound reading hreading hlimit
  refine ⟨?_, sound_of_reads_inside sound hreading (by omega)⟩
  obtain ⟨run, _, bracket, hbracket, _, hlead, hused⟩ := exists_of_reads_inside_run hreading
  have hbehind : bracket.used + window.left ≤ (place.advance run.used).text.length := by
    rw [sound.advance_text, List.length_drop]
    omega
  have hspans := (Gives.sign rfl _ (sound.advance run.used) bracket hbracket hbehind).spans
  have hleading := LeadsIn.sign rfl _ (sound.advance run.used) bracket hbracket hbehind
  rw [sound.advance_text] at hspans
  rw [hlead, hused]
  exact hspans.shift hleading.pos

/-! ### Closing tags -/

theorem source_of_reads_markupWord {place : Place} {reading : Reading Slice}
    (h : Reads markupWord place reading) :
    reading.value.source = (place.advance reading.lead).text ∧ reading.value.source ≠ [] ∧
      reading.used ≠ 0 := by
  obtain ⟨gap, _, length, hlength, rfl⟩ := exists_of_reads_lexeme h
  obtain ⟨front, rest, hsplit, rfl, htight⟩ := tight_markupName _ _ hlength
  have hpositive := List.length_pos_iff.mpr htight.ne_nil
  refine ⟨rfl, ?_, ?_⟩
  · change (place.advance gap).text ≠ []
    rw [hsplit]
    exact List.append_ne_nil_of_left_ne_nil htight.ne_nil _
  · change gap + front.length ≠ 0
    omega

/-- The first word of a name stands where the name is read. -/
theorem source_of_reads_elementName {place : Place} {reading : Reading ElementName}
    (h : Reads elementName place reading) :
    reading.value.first.source = (place.advance reading.lead).text ∧
      reading.value.first.source ≠ [] := by
  obtain ⟨reader, hreader, hreads⟩ := exists_of_reads_oneOf h
  simp only [List.mem_cons, List.not_mem_nil, or_false] at hreader
  rcases hreader with rfl | rfl | rfl
  · obtain ⟨before, hbefore, after, hafter, rfl⟩ := exists_of_reads_bind hreads
    obtain ⟨hsource, hne, hused⟩ := source_of_reads_markupWord hbefore
    rw [reads_pure.mp hafter]
    simpa [Reading.followedBy, hused, ElementName.first] using ⟨hsource, hne⟩
  · obtain ⟨before, hbefore, after, hafter, rfl⟩ := exists_of_reads_bind hreads
    obtain ⟨hsource, hne, hused⟩ := source_of_reads_markupWord hbefore
    obtain ⟨_, _, more, hmore, rfl⟩ := exists_of_reads_bind hafter
    obtain ⟨_, _, last, hlast, rfl⟩ := exists_of_reads_bind hmore
    rw [reads_pure.mp hlast]
    simpa [Reading.followedBy, hused, ElementName.first] using ⟨hsource, hne⟩
  · obtain ⟨before, hbefore, after, hafter, rfl⟩ := exists_of_reads_bind hreads
    obtain ⟨hsource, hne, hused⟩ := source_of_reads_markupWord hbefore
    obtain ⟨_, _, more, hmore, rfl⟩ := exists_of_reads_bind hafter
    obtain ⟨_, _, last, hlast, rfl⟩ := exists_of_reads_bind hmore
    rw [reads_pure.mp hlast]
    simpa [Reading.followedBy, hused, ElementName.first] using ⟨hsource, hne⟩

/-- What is read up to a closing tag ends with the angle bracket of the tag. -/
theorem exists_of_reads_inside_bracket {place : Place} {text : List Char} (shows_ : place.Shows text)
    {reading : Reading Inside} (h : Reads inside place reading) :
    ∃ before, text = before ++ '<' :: text.drop reading.used := by
  obtain ⟨run, _, bracket, hbracket, _, _, hused⟩ := exists_of_reads_inside_run h
  obtain ⟨gap, _, hbracketUsed, rest, hrest⟩ :=
    exists_of_reads_sign_shows (shows_.advance_shows run.used) hbracket
  have hfound : text.drop (run.used + gap) = '<' :: rest := by
    rw [← List.drop_drop]
    exact hrest
  have hend : reading.used = run.used + gap + 1 := by
    rw [hused, hbracketUsed, Nat.add_assoc]
    rfl
  have hbehind : text.drop reading.used = rest := by
    rw [hend, ← List.drop_drop, hfound]
    rfl
  refine ⟨text.take (run.used + gap), ?_⟩
  rw [hbehind, ← hfound, List.take_append_drop]

/-- A name behind the bracket and the slash of a closing tag closes. -/
theorem closes_of_reads {place : Place} (sound : place.Sound window) {opening : Reading Inside}
    (hopening : Reads inside place opening) {slash : Reading Unit}
    (hslash : Reads (Reader.sign "/") (place.advance opening.used) slash)
    {name : Reading ElementName}
    (hname : Reads elementName ((place.advance opening.used).advance slash.used) name) :
    name.value.Closes window.source := by
  obtain ⟨front, hfront⟩ := sound.text_suffix
  obtain ⟨before, hbefore⟩ := exists_of_reads_inside_bracket sound.shows_ hopening
  have hshows := sound.shows_.advance_shows opening.used
  obtain ⟨gap, hgap, hused, rest, hrest⟩ := exists_of_reads_sign_shows hshows hslash
  have hslashUsed : slash.used = gap + 1 := hused
  have hrest' : (place.text.drop opening.used).drop gap = '/' :: rest := hrest
  have hsplit : place.text.drop opening.used =
      (place.text.drop opening.used).take gap ++ '/' :: rest := by
    rw [← hrest', List.take_append_drop]
  have hlength : ((place.text.drop opening.used).take gap).length = gap := by
    have hfull := congrArg List.length hrest'
    rw [List.length_drop, List.length_cons] at hfull
    rw [List.length_take]
    omega
  have hbehind : (place.text.drop opening.used).drop (gap + 1) = rest := by
    rw [← List.drop_drop, hrest']
    rfl
  rw [hslashUsed, hshows.advance (Nat.succ_pos gap), hbehind] at hname
  obtain ⟨hfirst, hne⟩ := source_of_reads_elementName hname
  rw [(Place.shows_of rest).advance_text] at hfirst
  have hskipped : rest = rest.take name.lead ++ name.value.first.source := by
    rw [hfirst, List.take_append_drop]
  have hlead : (rest.take name.lead).length = name.lead := by
    have hpositive := List.length_pos_iff.mpr hne
    rw [hfirst, List.length_drop] at hpositive
    rw [List.length_take]
    omega
  refine ⟨front ++ before, (place.text.drop opening.used).take gap, rest.take name.lead, name, ?_⟩
  rw [← hskipped, ← hsplit, hlength, hlead]
  refine ⟨?_, hgap, hname, rfl, rfl⟩
  rw [List.append_assoc, ← hbefore, hfront]

/-- The inside of an element, and what its closing tag goes on with. -/
theorem gives_closing {α : Type} {kind : α → Prop} {rest : Inside → ElementName → Reader α}
    (next : ∀ inside closing, (∀ child ∈ inside.children, child.Sound window) →
      closing.Closes window.source → Gives window kind (rest inside closing)) :
    Gives window kind (do
      let inside ← inside
      Reader.sign "/"
      let closing ← elementName
      rest inside closing) := by
  intro place sound reading hreading hlimit
  obtain ⟨opening, hopening, behind, hbehind, rfl⟩ := exists_of_reads_bind hreading
  obtain ⟨slash, hslash, named, hnamed, rfl⟩ := exists_of_reads_bind hbehind
  obtain ⟨name, hname, last, hlast, rfl⟩ := exists_of_reads_bind hnamed
  simp only [Reading.followedBy_used] at hlimit
  have hcloses := closes_of_reads sound hopening hslash hname
  have hsound := sound.advance opening.used
  have hsound' := hsound.advance slash.used
  have hinside := gives_inside place sound opening hopening (by omega)
  have hsign := Gives.sign rfl _ hsound slash hslash
    (by simp only [sound.advance_text, List.length_drop]; omega)
  have hnaming := gives_elementName _ hsound' name hname
    (by simp only [hsound.advance_text, sound.advance_text, List.length_drop]; omega)
  have hrest := next opening.value name.value hinside.kind hcloses _ (hsound'.advance name.used)
    last hlast (by
      simp only [hsound'.advance_text, hsound.advance_text, sound.advance_text, List.length_drop]
      omega)
  rw [hsound'.advance_text] at hrest
  rw [hsound.advance_text] at hnaming hrest
  rw [sound.advance_text] at hsign hnaming hrest
  exact hinside.followedBy (hsign.followedBy (hnaming.followedBy hrest))

/-! ### Elements and fragments -/

theorem gives_elementMarkup : GivesTagged window elementMarkup :=
  .sliced (.bind (.sign rfl)) <| .skip (.sign rfl) fun _ => gives_elementName.bind fun _ hname =>
    gives_elementAttribute.many.bind fun _ hattributes => .either
      (.skip (.sign rfl) fun _ => gives_closing fun _ _ hinside hcloses => .skip (.sign rfl) fun _ =>
        .pure fun _ => ⟨rfl, rfl, fun hcut =>
          Form.sound_element.mpr ⟨hcut, hname, hattributes, hinside, hcloses⟩⟩)
      (.skip (.sign rfl) fun _ => .skip (.sign rfl) fun _ => .pure fun _ => ⟨rfl, rfl, fun hcut =>
        Form.sound_selfClosed.mpr ⟨hcut, hname, hattributes⟩⟩)

theorem gives_fragment : GivesTagged window fragment :=
  .sliced (.bind (.sign rfl)) <| .skip (.sign rfl) fun _ => .skip (.sign rfl) fun _ =>
    gives_inside.bind fun _ hinside => .skip (.sign rfl) fun _ => .skip (.sign rfl) fun _ =>
      .pure fun _ => ⟨rfl, rfl, fun hcut => Form.sound_fragment.mpr ⟨hcut, hinside⟩⟩

theorem gives_markup : GivesTagged window markup :=
  Yields.oneOf ⟨gives_elementMarkup, gives_fragment⟩

end Rule

/-! ## Rows -/

namespace Place.Sound

variable {row : Row} {later : Place} {c : Char}

theorem first (sound : Place.Sound window (row :: later)) : row.Sound window :=
  sound.rows row (List.mem_cons_self ..)

/-- A column that a rule fills from sound rows. -/
theorem holds {α : Type} {law : ReadingLaw α} {reader : Reader α}
    (sound : Place.Sound window (row :: later)) (yields : Yields window law reader) :
    row.Holds window law (Thunk.mk fun _ => reader (row :: later)) :=
  fun reading hreading hlimit => yields _ sound reading hreading hlimit

theorem opened (sound : Place.Sound window (Place.bareRow c later :: later)) :
    Place.Sound window (Row.opened c later :: later) :=
  sound.replace
    { sound.first with
      pattern := sound.holds Rule.gives_pattern
      type := sound.holds Rule.gives_type
      object := sound.holds Rule.gives_object
      block := sound.holds Rule.gives_block
      markup := sound.holds Rule.gives_markup } rfl rfl

theorem withCall (sound : Place.Sound window (row :: later)) :
    Place.Sound window (row.withCall later :: later) :=
  sound.replace { sound.first with call := sound.holds Rule.gives_call } rfl rfl

theorem withUnary (sound : Place.Sound window (row :: later)) :
    Place.Sound window (row.withUnary later :: later) :=
  sound.replace { sound.first with unary := sound.holds Rule.gives_unary } rfl rfl

theorem withOperand (sound : Place.Sound window (row :: later)) :
    Place.Sound window (row.withOperand later :: later) :=
  sound.replace { sound.first with operand := sound.holds Rule.gives_operand } rfl rfl

theorem withAssignment (sound : Place.Sound window (row :: later)) :
    Place.Sound window (row.withAssignment later :: later) :=
  sound.replace { sound.first with assignment := sound.holds Rule.gives_assignment } rfl rfl

theorem withExpression (sound : Place.Sound window (row :: later)) :
    Place.Sound window (row.withExpression later :: later) :=
  sound.replace { sound.first with expression := sound.holds Rule.gives_expression } rfl rfl

theorem withStatement (sound : Place.Sound window (row :: later)) :
    Place.Sound window (row.withStatement later :: later) :=
  sound.replace { sound.first with statement := sound.holds Rule.gives_statement } rfl rfl

end Place.Sound

/-- A row in which no column is filled is sound above sound rows. -/
theorem Place.sound_bare {c : Char} {rest : List Char} (hsuffix : c :: rest <:+ window.source)
    (hrest : (Place.of rest).Sound window) : (Place.bare (c :: rest)).Sound window := by
  have htext : (Place.bare (c :: rest)).text = c :: rest := (Place.shows_bare _).text_eq
  have hrow : (Place.bareRow c (Place.of rest)).Sound window := by
    refine ⟨?_, ?_, ?_, ?_, ?_, ?_, ?_, ?_, ?_, ?_, ?_, ?_⟩
    · change (Place.bare (c :: rest)).text <:+ window.source
      rw [htext]
      exact hsuffix
    all_goals exact Row.holds_none
  refine ⟨?_, List.forall_mem_cons.mpr ⟨hrow, hrest.rows⟩⟩
  rw [htext]
  exact Place.shows_bare _

/-- All rows of a part of a source are sound. -/
theorem Place.sound_of {text : List Char} (hsuffix : text <:+ window.source) :
    (Place.of text).Sound window := by
  induction text with
  | nil => exact ⟨Place.shows_of [], fun row hrow => absurd hrow List.not_mem_nil⟩
  | cons c rest ih =>
      have hbare := Place.sound_bare hsuffix (ih ((List.suffix_cons c rest).trans hsuffix))
      exact hbare.opened.withCall.withUnary.withOperand.withAssignment.withExpression.withStatement

/-! ## Whole sources -/

/-- What is read from a whole place is a reading that ends within it. -/
theorem exists_of_readWhole {α : Type} {reader : Reader α} {place : Place} {value : α}
    (h : readWhole reader place = .ok value) :
    ∃ reading, Reads reader place reading ∧ reading.used ≤ place.length ∧ reading.value = value := by
  simp only [readWhole] at h
  split at h
  next reading hfound =>
    cases h
    have hany := List.find?_some hfound
    simp only [List.any_eq_true, decide_eq_true_eq] at hany
    obtain ⟨gap, _, hend⟩ := hany
    exact ⟨reading, List.mem_of_find?_eq_some hfound, by omega, rfl⟩
  next =>
    split at h
    · cases h
    · cases h

/-- What a source is read as is of the kind that the reader gives. -/
theorem Reader.Gives.readWhole {α : Type} {source : List Char} {kind : α → Prop} {reader : Reader α}
    (gives : Gives ⟨source, 0⟩ kind reader) {value : α}
    (h : Grammar.readWhole reader (Place.of source) = .ok value) : kind value := by
  obtain ⟨reading, hreads, hend, rfl⟩ := exists_of_readWhole h
  have sound : (Place.of source).Sound ⟨source, 0⟩ := Place.sound_of List.suffix_rfl
  refine (gives _ sound reading hreads ?_).kind
  rw [Place.length_of] at hend
  rw [Place.text_of]
  exact hend

namespace Rule

theorem gives_module : Gives window (FormsSound window) Rule.module :=
  Gives.statement.many.imp fun _ => formsSound_iff.mpr

theorem gives_markupSource : Gives window (FormsSound window) markupSource :=
  Gives.markup.bind fun _ hform => .skip (givesAny_optionalSign rfl) fun _ =>
    .pure (formsSound_cons.mpr ⟨hform, formsSound_nil⟩)

end Rule

end EditableMarkup.Grammar
