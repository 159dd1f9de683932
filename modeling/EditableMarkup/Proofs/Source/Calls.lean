import EditableMarkup.Proofs.Reading.Levels
import EditableMarkup.Proofs.Reading.Lists
import EditableMarkup.Proofs.Reading.Words
import EditableMarkup.Proofs.Source.Standing

/-!
# Reading calls

A name may be followed by members, which are looked up in what stands before
them, and by arguments in parentheses.  All of it is read as one call, and no
other reading of it could go on.  So a call stands alone, if its arguments spell
expressions; in particular, a path of names does.
-/

namespace EditableMarkup.Source

open EditableMarkup.Grammar EditableMarkup.Grammar.Reader EditableMarkup.Grammar.Place
open EditableMarkup.Grammar.Rule

variable {free : Prop}

/-! ## Calls -/

/-- A text holds an expression behind some spaces. -/
def IsArgument (free : Prop) (text : List Char) : Prop :=
  ∃ blank inner, text = blank ++ inner ∧ (∀ c ∈ blank, Lexeme.isSpace c = true) ∧
    Holds free inner

/-- What goes on with a call: the name of a member, or arguments in parentheses. -/
inductive Link where
  | member (word : List Char)
  | arguments (texts : List (List Char))

namespace Link

/-- A link as it is written. -/
def chars : Link → List Char
  | member word => '.' :: word
  | arguments texts => '(' :: (charsOf id texts ++ [')'])

/-- A member has a name, and arguments hold expressions. -/
def IsProper (free : Prop) : Link → Prop
  | member word => Lexeme.anyName word = some word.length
  | arguments texts => ∀ text ∈ texts, IsArgument free text

theorem chars_eq (link : Link) : ∃ c more, links c = true ∧ link.chars = c :: more := by
  cases link with
  | member word => exact ⟨'.', word, rfl, rfl⟩
  | arguments texts => exact ⟨'(', _, rfl, rfl⟩

end Link

/-- A name with links behind it. -/
def callChars (front : List Char) (rest : List Link) : List Char :=
  front ++ rest.flatMap Link.chars

/-- A source is a call: a name that no reserved word opens, with links behind it.  The word `async`
in front of arguments could open an arrow function. -/
def IsCall (free : Prop) (source : String) : Prop :=
  ∃ front rest, source.toList = callChars front rest ∧ Lexeme.name front = some front.length ∧
    (∀ link ∈ rest, link.IsProper free) ∧
    (front ≠ "async".toList ∨ ∀ texts, rest.head? ≠ some (.arguments texts))

/-- A plain form that is read from the first characters of a text and obeys the rules on markup. -/
def IsPlain (source : List Char) (count : Nat) (form : Form) : Prop :=
  Tidy form ∧ ∃ inside, form = .plain ⟨source, count⟩ inside

theorem IsPlain.extend {source : List Char} {count : Nat} {form : Form}
    (h : IsPlain source count form) {inside : List Form} (hinside : ∀ form ∈ inside, Tidy form)
    (more : Nat) :
    IsPlain source (count + more) (.plain (form.slice.extend more) (form :: inside)) := by
  obtain ⟨htidy, _, rfl⟩ := h
  exact ⟨tidy_plain (List.forall_mem_cons.mpr ⟨htidy, hinside⟩), _, rfl⟩

theorem IsPlain.means {front rest : List Char} {form : Form} {source : String}
    (h : IsPlain (front ++ rest) front.length form) (hsource : source.toList = front) :
    Means form (.expression source) := by
  obtain ⟨htidy, inside, rfl⟩ := h
  have htext : (Slice.mk (front ++ rest) front.length).text = source := by
    rw [Slice.text_of_append, ← hsource, String.ofList_toList]
  refine ⟨?_, rfl, ?_, htidy⟩
  · rw [valueOf]
    · exact congrArg (fun text => Except.ok (Value.expression text)) htext
    all_goals simp
  · rintro text ⟨⟩
    exact htext

/-! ## What goes on with a call -/

/-- Behind a point, a member is looked up. -/
theorem settles_callTail_member {word tail : List Char}
    (hword : Lexeme.anyName word = some word.length) (ends : WordEnds tail) :
    Settles free callTail (of ('.' :: word ++ tail)) ('.' :: word).length
      (fun inside => ∀ form ∈ inside, Tidy form) := by
  have hfaces : (of ('.' :: word ++ tail)).Faces 0 ('.' :: word ++ tail) := .of_firm rfl
  have hpoint : Settles free (oneOf [Reader.sign ".", Reader.sign "?."]) (of ('.' :: word ++ tail))
      (0 + 1) fun _ => True := by
    refine (settles_sign hfaces rfl rfl).choose (List.mem_cons_self ..) ?_
    intro other hother
    simp only [List.mem_cons, List.not_mem_nil, or_false] at hother
    rcases hother with rfl | rfl
    · exact Or.inl rfl
    · exact Or.inr (starts_sign rfl _ _ _ hfaces (barred_singleton.mpr rfl))
  have hname : Settles free anyName (of (word ++ tail)) (0 + word.length) fun _ => True := by
    have hall : AllName word := allName_of_anyName hword
    have hshown : (of (word ++ tail)).Faces 0 (word ++ tail) :=
      .of_firm (hall.skipped_eq_none ends.skipped_eq_none)
    have htaken := Lexeme.takesWhole_anyName word tail hword ends.stops
    exact (settles_lexeme hshown Lexeme.opens_anyName.solid htaken).imp fun _ _ => trivial
  have hmember : Settles free
      (do
        oneOf [Reader.sign ".", Reader.sign "?."]
        let _ ← anyName
        return [])
      (of ('.' :: word ++ tail)) (0 + 1 + (0 + word.length + 0))
      (fun inside => ∀ form ∈ inside, Tidy form) := by
    refine hpoint.andThen fun _ _ => ?_
    rw [hfaces.advance (by decide)]
    exact hname.andThen fun _ _ => .pure fun _ hform => absurd hform List.not_mem_nil
  have hlength : 0 + 1 + (0 + word.length + 0) = ('.' :: word).length := by
    rw [List.length_cons]
    omega
  rw [← hlength]
  refine hmember.choose (List.mem_cons_self ..) ?_
  intro other hother
  simp only [List.mem_cons, List.not_mem_nil, or_false] at hother
  rcases hother with rfl | rfl | rfl | rfl | rfl
  · exact Or.inl rfl
  · refine Or.inr (((mayStart_optionalSign rfl).bind fun _ =>
      (starts_sign rfl).bind) _ _ _ hfaces ?_)
    simp only [List.cons_append, List.nil_append, barred_cons, barred_nil, and_true]
    exact ⟨rfl, rfl⟩
  · refine Or.inr (((mayStart_optionalSign rfl).bind fun _ =>
      (mayStart_ifPresent starts_typeArguments).bind fun _ =>
        starts_arguments.bind) _ _ _ hfaces ?_)
    simp only [List.cons_append, List.nil_append, barred_cons, barred_nil, and_true]
    exact ⟨rfl, rfl, rfl⟩
  · exact Or.inr ((starts_lexeme Lexeme.opens_template.solid).bind _ _ _ hfaces
      (barred_singleton.mpr rfl))
  · exact Or.inr ((starts_sign rfl).bind _ _ _ hfaces (barred_singleton.mpr rfl))

/-- Arguments can be items of a list in parentheses. -/
theorem listed_argument {text : List Char} (h : IsArgument free text) :
    Listed free ")" element (fun form _ => Tidy form) id text := by
  obtain ⟨blank, inner, rfl, hblank, holds⟩ := h
  have hfaces (rest : List Char) :
      (of (blank ++ inner ++ rest)).Faces blank.length (inner ++ rest) := by
    rw [List.append_assoc]
    exact .of_spaces hblank (holds.opening.firm rest)
  refine ⟨?_, fun rest => ?_, fun rest closed hne => ?_⟩
  · simp [holds.opening.ne_nil]
  · exact starts_sign rfl _ _ _ (hfaces rest) ((holds.opening.barred rest).mono (by simp))
  · refine (holds.offers blank rest hblank closed hne).oneOf (List.mem_cons_self ..) ?_
    intro other hother
    simp only [List.mem_cons, List.not_mem_nil, or_false] at hother
    rcases hother with rfl | rfl
    · exact Or.inl rfl
    · exact Or.inr fun reading hreading => absurd hreading ((starts_sign rfl).bind _ _ _
        (hfaces rest) ((holds.opening.barred rest).mono (by simp)) reading)

/-- Arguments in parentheses are read as such. -/
theorem settles_arguments {texts : List (List Char)} (htexts : ∀ text ∈ texts, IsArgument free text)
    (tail : List Char) :
    Settles free Rule.arguments (of ((Link.arguments texts).chars ++ tail))
      (Link.arguments texts).chars.length (fun inside => ∀ form ∈ inside, Tidy form) := by
  have hitems : ∀ text ∈ texts, Listed free ")" element (fun form _ => Tidy form) id text :=
    fun text htext => listed_argument (htexts text htext)
  have hmissing : Fails (commaList element) (of (')' :: tail)) := by
    refine fails_commaList (fails_oneOf fun reader hreader => ?_)
    simp only [List.mem_cons, List.not_mem_nil, or_false] at hreader
    rcases hreader with rfl | rfl
    · exact fails_assignment (List.cons_ne_nil _ _) (bracket_paren.faces tail)
        (expression_closing tail)
    · exact (starts_sign rfl).bind _ _ _ (bracket_paren.faces tail) (barred_singleton.mpr rfl)
  have hchoice : Offers free (oneOf [commaList element, nothing []])
      (of (charsOf id texts ++ ')' :: tail)) (charsOf id texts).length
      (fun inside => ∀ form ∈ inside, Tidy form) (Fails (Reader.sign ")")) := by
    refine Offers.orNothing bracket_paren (fun text htext => (hitems text htext).opens)
      (fun hne => (offers_commaList bracket_paren hitems hne tail).imp fun inside hinside => ?_)
      hmissing fun _ _ hform => absurd hform List.not_mem_nil
    have hboth : List.Forall₂ (fun form _ => Tidy form ∧ True) inside texts :=
      hinside.imp fun _ _ htidy => ⟨htidy, trivial⟩
    exact ((List.forall₂_and_left _ _).mp hboth).1
  have hlength : (Link.arguments texts).chars.length = 0 + 1 + ((charsOf id texts).length + 1) := by
    simp only [Link.chars, List.length_cons, List.length_append, List.length_nil]
    omega
  have hfaces : (of ((Link.arguments texts).chars ++ tail)).Faces 0
      ('(' :: (charsOf id texts ++ ')' :: tail)) := by
    have hsplit : (Link.arguments texts).chars ++ tail =
        '(' :: (charsOf id texts ++ ')' :: tail) := by
      simp [Link.chars]
    rw [hsplit]
    exact .of_firm rfl
  rw [hlength]
  exact Offers.enclosed bracket_paren rfl rfl hfaces hchoice fun _ => id

/-- In front of an opening parenthesis, a call goes on with its arguments. -/
theorem settles_callTail_arguments {texts : List (List Char)}
    (htexts : ∀ text ∈ texts, IsArgument free text) (tail : List Char) :
    Settles free callTail (of ((Link.arguments texts).chars ++ tail))
      (Link.arguments texts).chars.length
      (fun inside => ∀ form ∈ inside, Tidy form) := by
  obtain ⟨more, hmore⟩ : ∃ more, (Link.arguments texts).chars ++ tail = '(' :: more := ⟨_, rfl⟩
  have hfaces : (of ((Link.arguments texts).chars ++ tail)).Faces 0 ('(' :: more) := by
    rw [hmore]
    exact .of_firm rfl
  have hsign : Fails (Reader.sign "?.") (of ((Link.arguments texts).chars ++ tail)) :=
    starts_sign rfl _ _ _ hfaces (barred_singleton.mpr rfl)
  have htypes : Fails typeArguments (of ((Link.arguments texts).chars ++ tail)) :=
    starts_typeArguments _ _ _ hfaces (barred_singleton.mpr rfl)
  have hcalled : Settles free
      (do
        optionalSign "?."
        let types ← ifPresent typeArguments
        return types ++ (← Rule.arguments))
      (of ((Link.arguments texts).chars ++ tail)) (0 + (0 + (Link.arguments texts).chars.length))
      (fun inside => ∀ form ∈ inside, Tidy form) := by
    refine (Offers.missing hsign).andThen fun _ _ => ?_
    refine (Offers.missing htypes).andThen fun types hnone => ?_
    refine (settles_arguments htexts tail).returning fun inside hinside => ?_
    rw [hnone]
    exact hinside
  rw [Nat.zero_add, Nat.zero_add] at hcalled
  refine hcalled.choose (List.mem_cons_of_mem _ (List.mem_cons_of_mem _ (List.mem_cons_self ..))) ?_
  intro other hother
  simp only [List.mem_cons, List.not_mem_nil, or_false] at hother
  rcases hother with rfl | rfl | rfl | rfl | rfl
  · refine Or.inr (fails_bind (fails_oneOf fun reader hreader => ?_))
    simp only [List.mem_cons, List.not_mem_nil, or_false] at hreader
    rcases hreader with rfl | rfl
    · exact starts_sign rfl _ _ _ hfaces (barred_singleton.mpr rfl)
    · exact hsign
  · refine Or.inr (((mayStart_optionalSign rfl).bind fun _ =>
      (starts_sign rfl).bind) _ _ _ hfaces ?_)
    simp only [List.cons_append, List.nil_append, barred_cons, barred_nil, and_true]
    exact ⟨rfl, rfl⟩
  · exact Or.inl rfl
  · exact Or.inr ((starts_lexeme Lexeme.opens_template.solid).bind _ _ _ hfaces
      (barred_singleton.mpr rfl))
  · exact Or.inr ((starts_sign rfl).bind _ _ _ hfaces (barred_singleton.mpr rfl))

/-- What stands behind a link, or behind the name of a call. -/
theorem wordEnds_links {rest : List Char} (closed : Closed rest) (links : List Link) :
    WordEnds (links.flatMap Link.chars ++ rest) := by
  cases links with
  | nil => exact Or.inl closed
  | cons link links =>
      obtain ⟨c, more, hc, hchars⟩ := link.chars_eq
      exact Or.inr ⟨c, more ++ (links.flatMap Link.chars ++ rest), hc, by simp [hchars]⟩

/-- A call goes on with a link. -/
theorem settles_callTail {link : Link} (hlink : link.IsProper free) {tail : List Char}
    (ends : WordEnds tail) :
    Settles free callTail (of (link.chars ++ tail)) link.chars.length
      (fun inside => ∀ form ∈ inside, Tidy form) := by
  cases link with
  | member word => exact settles_callTail_member hlink ends
  | arguments texts => exact settles_callTail_arguments hlink tail

section Call

variable {blank rest : List Char}

/-- From link to link a call is read. -/
theorem chain_links (closed : Closed rest) {links : List Link}
    (hlinks : ∀ link ∈ links, link.IsProper free) {place : Place} (source front : List Char)
    (hfront : front ≠ []) (hshows : place.Shows (blank ++ callChars front links ++ rest)) :
    Chain free (fun form => extending form callTail) place (fun _ => False) Linked
      (blank ++ callChars front links).length (IsPlain source (callChars front links).length)
      (blank ++ front).length (IsPlain source front.length) := by
  induction links generalizing front with
  | nil =>
      have hself : callChars front [] = front := by simp [callChars]
      rw [hself] at hshows ⊢
      refine .stop fun form _ => ?_
      rw [hshows.advance_append (by simp [hfront])]
      exact closed.stopped.fails_of_starts starts_callTail.extending (List.subset_append_left _ _)
  | cons link links ih =>
      have hlink := hlinks link (List.mem_cons_self ..)
      have hends := wordEnds_links closed links
      obtain ⟨c, more, hc, hchars⟩ := link.chars_eq
      have hcall : callChars front (link :: links) = callChars (front ++ link.chars) links := by
        simp [callChars]
      have hplace : place.advance (blank ++ front).length =
          of (link.chars ++ (links.flatMap Link.chars ++ rest)) := by
        have hsplit : blank ++ callChars front (link :: links) ++ rest =
            (blank ++ front) ++ (link.chars ++ (links.flatMap Link.chars ++ rest)) := by
          simp [callChars]
        rw [hsplit] at hshows
        exact hshows.advance_append (by simp [hfront])
      have hcount : (front ++ link.chars).length = front.length + link.chars.length :=
        List.length_append
      have hlength : (blank ++ (front ++ link.chars)).length =
          (blank ++ front).length + link.chars.length := by
        rw [List.length_append, hcount, List.length_append, Nat.add_assoc]
      rw [hcall] at hshows ⊢
      have hchain := ih (fun other hother => hlinks other (List.mem_cons_of_mem _ hother))
        (front ++ link.chars) (by simp [hfront]) hshows
      rw [hlength, hcount] at hchain
      refine .next ?_ id (by simp [hchars]) (fun form hform => ?_) hchain
      · rw [hplace, hchars]
        exact ⟨c, _, hc, shows_of _⟩
      · rw [hplace]
        exact (settles_callTail hlink hends).extending fun inside hinside => hform.extend hinside _

/-- A name is a primary expression, if it opens no function. -/
theorem settles_primary_name {front tail : List Char}
    (hname : Lexeme.name front = some front.length) (stops : Stops Lexeme.continuesName tail)
    (faces : (of (blank ++ front ++ tail)).Faces blank.length (front ++ tail))
    (hfunction : Fails functionExpression (opened (blank ++ front ++ tail))) :
    Settles free Rule.primary (opened (blank ++ front ++ tail)) (blank ++ front).length
      (IsPlain (front ++ tail) front.length) := by
  have htaken := Lexeme.takesWhole_name _ tail hname stops
  have hbarred := barred_of_name htaken
  have hopened := faces.transfer (shows_opened _)
  have hne : blank ++ front ++ tail ≠ [] := by
    intro hnil
    rw [List.append_assoc, List.append_eq_nil_iff] at hnil
    rw [hnil.2] at htaken
    cases htaken
  have hform : Settles free (plainLexeme Lexeme.name) (opened (blank ++ front ++ tail))
      (blank ++ front).length (IsPlain (front ++ tail) front.length) := by
    rw [List.length_append]
    refine (settles_lexeme hopened Lexeme.opens_name.solid htaken).map ?_
    rintro slice rfl
    exact ⟨tidy_singleton rfl fun _ => rfl, [], rfl⟩
  have hentry : (plainLexeme Lexeme.name, [Lexeme.name]) ∈ primaryTable := List.mem_cons_self ..
  refine offers_primary_of_fails hentry hform fun other hother => ?_
  rcases primaryTable_nameless other hother with heq | hother | hsubset
  · exact Or.inl heq
  · rw [hother]
    exact Or.inr hfunction
  · exact Or.inr (fails_primaryTable hne faces other hother (hbarred.mono hsubset))

variable {front : List Char} {links : List Link}

theorem ne_nil_of_name (hname : Lexeme.name front = some front.length) : front ≠ [] := by
  rintro rfl
  cases hname

/-- The name of a call, in front of which some spaces stand. -/
theorem faces_callName (hblank : ∀ c ∈ blank, Lexeme.isSpace c = true) (closed : Closed rest)
    (hname : Lexeme.name front = some front.length) (links : List Link) :
    (of (blank ++ callChars front links ++ rest)).Faces blank.length
      (front ++ (links.flatMap Link.chars ++ rest)) := by
  have hword : AllName front := allName_of_anyName (Lexeme.name_eq_some_iff.mp hname).2
  rw [callChars, List.append_assoc, List.append_assoc]
  exact .of_spaces hblank (hword.skipped_eq_none (wordEnds_links closed links).skipped_eq_none)

theorem barred_callName (closed : Closed rest) (hname : Lexeme.name front = some front.length)
    (links : List Link) : Barred namelessFirst (front ++ (links.flatMap Link.chars ++ rest)) :=
  barred_of_name (Lexeme.takesWhole_name _ _ hname (wordEnds_links closed links).stops)

/-- A name with links behind it and a closed end is one call. -/
theorem offers_call_links (hblank : ∀ c ∈ blank, Lexeme.isSpace c = true) (closed : Closed rest)
    (hname : Lexeme.name front = some front.length) (hlinks : ∀ link ∈ links, link.IsProper free) :
    Offers free Rule.call (opened (blank ++ callChars front links ++ rest))
      (blank ++ callChars front links).length
      (IsPlain (callChars front links ++ rest) (callChars front links).length) Linked := by
  have hne := ne_nil_of_name hname
  have hword : AllName front := allName_of_anyName (Lexeme.name_eq_some_iff.mp hname).2
  have hshows := shows_opened (blank ++ callChars front links ++ rest)
  have hfaces := (faces_callName hblank closed hname links).transfer hshows
  have hfirst : Settles free (oneOf [Rule.primary, newInstance])
      (opened (blank ++ callChars front links ++ rest)) (blank ++ front).length
      (IsPlain (callChars front links ++ rest) front.length) := by
    have hends := wordEnds_links closed links
    have hbarred := barred_callName closed hname links
    have hfunction :=
      fails_functionExpression_word hword hends (hbarred _ (by simp [namelessFirst])) hfaces
    have hsplit : blank ++ callChars front links ++ rest =
        blank ++ front ++ (links.flatMap Link.chars ++ rest) := by
      simp [callChars]
    have hcall : callChars front links ++ rest = front ++ (links.flatMap Link.chars ++ rest) := by
      simp [callChars]
    have hnameFaces := faces_callName hblank closed hname links
    rw [hsplit] at hnameFaces hfunction ⊢
    rw [hcall]
    refine (settles_primary_name hname hends.stops hnameFaces hfunction).choose
      (List.mem_cons_self ..) ?_
    intro other hother
    simp only [List.mem_cons, List.not_mem_nil, or_false] at hother
    rcases hother with rfl | rfl
    · exact Or.inl rfl
    · have hnew := hbarred (Lexeme.keyword "new") (by simp [namelessFirst])
      rw [hsplit] at hfaces
      exact Or.inr (starts_newInstance _ _ _ hfaces (barred_singleton.mpr hnew))
  have hchain := chain_links closed hlinks (callChars front links ++ rest) front hne hshows
  refine hfirst.chain hchain ascendsAt_oneOf (fun _ _ hfalse => hfalse.elim) ?_ ?_
    fun _ hfalse => hfalse.elim
  · rw [hshows.length_eq]
    simp
  · rw [hshows.advance_append (by simp [callChars, hne])]
    exact closed.stopped.not_linked

theorem opening_of_startsName {c : Char} (hc : Lexeme.startsName c = true) (front : List Char) :
    Opening (c :: front) :=
  opening_of_head (@Lexeme.forall_startsName
    (fun d => Lexeme.isSpace d = false ∧ d ≠ '/' ∧ d ≠ '\x7d' ∧ d ≠ ')' ∧ d ≠ '.')
    (by decide) c hc)

/-- A call stands alone. -/
theorem standsAlone_of_isCall {source : String} (hcall : IsCall free source) :
    StandsAlone free source := by
  obtain ⟨front, links, hsource, hname, hlinks, hasync⟩ := hcall
  have hword : AllName front := allName_of_anyName (Lexeme.name_eq_some_iff.mp hname).2
  have hfront := ne_nil_of_name hname
  refine ⟨?_, fun blank rest hblank closed hrest => ?_⟩
  · obtain ⟨c, more, rfl, hc⟩ := Lexeme.exists_startsName (Lexeme.name_eq_some_iff.mp hname).2
    rw [hsource]
    exact opening_of_startsName hc _
  · rw [hsource]
    have hne : blank ++ callChars front links ≠ [] := by simp [callChars, hfront]
    have hfaces := faces_callName hblank closed hname links
    have hbarred := barred_callName closed hname links
    have hopen : front ≠ "async".toList ∨
        Lexeme.sign "(" (links.flatMap Link.chars ++ rest) = none := by
      refine hasync.imp_right fun hhead => ?_
      match links, hhead with
      | [], _ =>
          rcases closed.cases with rfl | ⟨behind, rfl | rfl | rfl | rfl⟩ <;> rfl
      | .member word :: links, _ => rfl
      | .arguments texts :: links, hhead => exact absurd rfl (hhead texts)
    have hread := offers_call_links hblank closed hname hlinks
    have hunary := offers_unary hne closed.stopped hfaces (hbarred.mono (by simp [namelessFirst]))
      (hbarred.mono (by simp [namelessFirst])) hread
    have hassignment := offers_assignment hne closed.stopped hfaces
      (hbarred.mono (by simp [namelessFirst]))
      (fails_arrowFunction_word hword hfront (wordEnds_links closed links) hopen
        (hfaces.transfer (shows_atAssignment _)))
      (fails_assigned hne closed.stopped hread) (offers_operand hne closed.stopped hunary)
    exact Offers.unclosed (hassignment.imp fun form hform => hform.means hsource) closed hrest

end Call

/-- A path stands alone. -/
theorem standsAlone_of_isPath {source : String} (hpath : IsPath source) :
    StandsAlone free source := by
  obtain ⟨front, words, hsource, hname, hwords⟩ := hpath
  refine standsAlone_of_isCall ⟨front, words.map Link.member, ?_, hname, ?_, Or.inr fun texts => ?_⟩
  · rw [hsource, pathChars, callChars, List.flatMap_map]
    rfl
  · exact List.forall_mem_map.mpr hwords
  · cases words with
    | nil => simp
    | cons word words => simp

end EditableMarkup.Source

namespace EditableMarkup

open Source

theorem Node.Printable.legible {free : Prop} {node : Node} (h : node.Printable) :
    node.Legible free :=
  h.mono fun _ => standsAlone_of_isPath

end EditableMarkup
