import EditableMarkup.Proofs.Reading.Components
import EditableMarkup.Proofs.Reading.Members
import EditableMarkup.Proofs.Reading.Words

/-!
# Classes with one method

A class whose only member is a method that returns an expression secures it.
As an expression the class could do without its name, which may then begin with
the word `implements`; but what stands behind this word in a name is one type
at most, and no brace that opens the class is a type.
-/

namespace EditableMarkup.Grammar.Reader

open Place Rule

section Class

variable {name value rest : List Char} {kind : Form → Prop} {part : Nat → Prop}

/-! ## Members -/

/-- A method without parameters that returns a value. -/
def methodText (value rest : List Char) : List Char :=
  ['r', 'e', 'n', 'd', 'e', 'r'] ++ '(' :: ')' :: body value rest

theorem starts_classMember :
    Starts classMember
      (([Lexeme.modifier, Lexeme.keyword "async", Lexeme.accessor, Lexeme.sign "*"] ++ keyFirst) ++
        (([Lexeme.modifier] ++ keyFirst) ++ [Lexeme.sign ";"])) :=
  (starts_methodModifier.many.bind fun _ => starts_propertyKey.bind).sliced.bind.cons <|
  ((starts_lexeme Lexeme.solid_modifier).many.bind fun _ => starts_propertyKey.bind).cons
  (starts_sign rfl).bind.single

/-- A list of constructs is empty where none can be read. -/
theorem settles_many {α : Type} {reader : Reader α} {place : Place} (h : Fails reader place) :
    Settles True (Reader.many reader) place 0 (· = []) :=
  Offers.iterate (.pure rfl) (fun _ _ => fails_bind h) fun _ _ => False.elim

theorem faces_method (value rest : List Char) :
    (of (' ' :: methodText value rest)).Faces 1 (methodText value rest) := .of_space rfl

theorem settles_methodKey (value rest : List Char) :
    Settles True propertyKey (of (' ' :: methodText value rest)) (1 + 6)
      (fun key => key.inside = ([] : List Form)) := by
  have hword : Lexeme.anyName ['r', 'e', 'n', 'd', 'e', 'r'] = some 6 := rfl
  refine (settles_propertyKey_word hword rfl (faces_method value rest)).imp ?_
  rintro _ rfl
  rfl

theorem advance_method (value rest : List Char) :
    (of (' ' :: methodText value rest)).advance (1 + 6) = of ('(' :: ')' :: body value rest) := by
  rw [(faces_method value rest).advance (by omega)]
  rfl

/-- A method secures what it returns. -/
theorem Enclosed.method (closing : Closing part)
    (enclosed : Enclosed value (';' :: ' ' :: '\x7d' :: rest) kind part) :
    Secures Rule.method (of (' ' :: methodText value rest))
      (0 + (1 + 6 + (0 + 2 + bodyLength value.length))) (IsFunction (Returns kind)) part := by
  have hmodifier : Fails methodModifier (of (' ' :: methodText value rest)) := by
    refine starts_methodModifier _ _ _ (faces_method value rest) ?_
    simp only [barred_cons, barred_nil, and_true]
    and_intros <;> rfl
  refine Secures.sliced ((settles_many hmodifier).bindSecures fun _ _ => ?_)
  refine (settles_methodKey value rest).bindSecures fun key hkey => ?_
  rw [advance_method, hkey]
  exact enclosed.signed closing fun form hform slice => ⟨slice, form, rfl, hform⟩

/-- In front of parentheses a key is a field, too. -/
theorem settles_classField (value rest : List Char) :
    Settles True classField (of (' ' :: methodText value rest)) (1 + 6) fun _ => True := by
  have hmodifier : Fails (lexeme Lexeme.modifier) (of (' ' :: methodText value rest)) :=
    starts_lexeme Lexeme.solid_modifier _ _ _ (faces_method value rest) (barred_singleton.mpr rfl)
  have hfaces : (of ('(' :: ')' :: body value rest)).Faces 0 ('(' :: ')' :: body value rest) :=
    .of_firm rfl
  have hmark : Fails (oneOf [Reader.sign "?", Reader.sign "!"]) (of ('(' :: ')' :: body value rest)) := by
    refine (starts_sign rfl).cons (starts_sign rfl).single _ _ _ hfaces ?_
    simp only [List.cons_append, List.nil_append, barred_cons, barred_nil, and_true]
    exact ⟨rfl, rfl⟩
  have hannotation : Fails typeAnnotation (of ('(' :: ')' :: body value rest)) :=
    starts_typeAnnotation _ _ _ hfaces (barred_singleton.mpr rfl)
  have hvalue : Fails (do
      Reader.sign "="
      return [← Reader.assignment]) (of ('(' :: ')' :: body value rest)) :=
    (starts_sign rfl).bind _ _ _ hfaces (barred_singleton.mpr rfl)
  have hend : Fails (Reader.sign ";") (of ('(' :: ')' :: body value rest)) :=
    starts_sign rfl _ _ _ hfaces (barred_singleton.mpr rfl)
  have hchain : Settles True classField (of (' ' :: methodText value rest))
      (0 + (1 + 6 + (0 + (0 + (0 + 0))))) fun _ => True := by
    refine (settles_many hmodifier).andThen fun _ _ => ?_
    refine (settles_methodKey value rest).andThen fun key _ => ?_
    rw [advance_method]
    refine (Offers.missing (fails_map hmark)).andThen fun _ _ => ?_
    refine (Offers.missing hannotation).andThen fun _ _ => ?_
    refine (Offers.missing hvalue).andThen fun _ _ => ?_
    exact (Offers.missing hend).returning fun _ _ => trivial
  exact hchain

/-- The member of a class secures what it returns, but it may also end in front of its
parentheses. -/
theorem Enclosed.classMember (closing : Closing part)
    (enclosed : Enclosed value (';' :: ' ' :: '\x7d' :: rest) kind part) :
    Keeps Rule.classMember (of (' ' :: methodText value rest))
        (0 + (1 + 6 + (0 + 2 + bodyLength value.length))) 0
        (fun forms => ∃ form, forms = [form] ∧ IsFunction (Returns kind) form) ∧
      Passes Rule.classMember (of (' ' :: methodText value rest))
        (Halts (of (' ' :: methodText value rest)).length [1 + 6] part) := by
  have hmethod : Secures (do return [← Rule.method]) (of (' ' :: methodText value rest))
      (0 + (1 + 6 + (0 + 2 + bodyLength value.length)))
      (fun forms => ∃ form, forms = [form] ∧ IsFunction (Returns kind) form) part :=
    (enclosed.method closing).returning closing fun form hform => ⟨form, rfl, hform⟩
  refine ⟨hmethod.keeps.first, passes_oneOf fun reader hreader => ?_⟩
  simp only [List.mem_cons, List.not_mem_nil, or_false] at hreader
  rcases hreader with rfl | rfl | rfl
  · exact hmethod.passes.halts _
  · exact (settles_classField value rest).passes (Or.inl ⟨1 + 6, List.mem_cons_self .., rfl⟩)
  · exact ((starts_sign rfl).bind _ _ _ (faces_method value rest)
      (barred_singleton.mpr rfl)).passes

/-! ## Classes -/

/-- The braces of a class with one method. -/
def classBody (value rest : List Char) : List Char :=
  ' ' :: '\x7b' :: ' ' :: methodText value (' ' :: '\x7d' :: rest)

/-- The length of the braces around a value of some length. -/
def classBodyLength (length : Nat) : Nat :=
  1 + 1 + (0 + (1 + 6 + (0 + 2 + bodyLength length)) + (1 + 1))

theorem faces_classBody (value rest : List Char) :
    (of (classBody value rest)).Faces 1
      ('\x7b' :: ' ' :: methodText value (' ' :: '\x7d' :: rest)) := .of_space rfl

section Body

variable (closing : Closing part)
  (enclosed : Enclosed value (';' :: ' ' :: '\x7d' :: ' ' :: '\x7d' :: rest) kind part)

include closing enclosed

/-- The braces of a class secure what its method returns. -/
theorem Enclosed.classMembers {f : List (List Form) → List Form} :
    Secures (Reader.sign "\x7b" >>= fun _ => Reader.many Rule.classMember >>= fun members =>
        Reader.sign "\x7d" >>= fun _ => Pure.pure (f members))
      (of (classBody value rest)) (classBodyLength value.length)
      (fun forms => ∃ form, forms = f [[form]] ∧ IsFunction (Returns kind) form) part := by
  have hfaces := faces_classBody value rest
  have hopening : Settles True (Reader.sign "\x7b") (of (classBody value rest)) (1 + 1)
      fun _ => True :=
    settles_sign hfaces rfl rfl
  obtain ⟨hkeeps, hpasses⟩ := enclosed.classMember closing
  refine hopening.bindSecures fun _ _ => ?_
  rw [hfaces.advance (by omega), List.drop_succ_cons, List.drop_zero]
  refine ⟨?_, ?_⟩
  · have marks : Marks (' ' :: ['r', 'e', 'n', 'd', 'e', 'r'] ++
        ['(', ')', ' ', '\x7b', ' ', 'r', 'e', 't', 'u', 'r', 'n', ' '] ++ value ++ [';', ' '])
        '\x7d' [' '] '\x7d' := ⟨⟨rfl, by decide⟩, by simp, rfl, by decide⟩
    have hshows : (of (' ' :: methodText value (' ' :: '\x7d' :: rest))).Shows
        (' ' :: ['r', 'e', 'n', 'd', 'e', 'r'] ++
          ['(', ')', ' ', '\x7b', ' ', 'r', 'e', 't', 'u', 'r', 'n', ' '] ++ value ++ [';', ' '] ++
          ('\x7d' :: ([' '] ++ ['\x7d']) ++ rest)) := by
      have hsplit : ' ' :: methodText value (' ' :: '\x7d' :: rest) =
          ' ' :: ['r', 'e', 'n', 'd', 'e', 'r'] ++
            ['(', ')', ' ', '\x7b', ' ', 'r', 'e', 't', 'u', 'r', 'n', ' '] ++ value ++ [';', ' '] ++
            ('\x7d' :: ([' '] ++ ['\x7d']) ++ rest) := by
        simp [methodText, body, returning]
      rw [← hsplit]
      exact shows_of _
    refine (hkeeps.many (by omega)).closedBy marks hshows rfl ?_ ?_
    · simp only [bodyLength, List.length_append, List.length_cons, List.length_nil]
      omega
    · rintro _ ⟨_, rfl, form, rfl, hform⟩
      exact ⟨form, rfl, hform⟩
  · have hkey : (of ('(' :: ')' :: body value (' ' :: '\x7d' :: rest))).Faces 0
        ('(' :: ')' :: body value (' ' :: '\x7d' :: rest)) := .of_firm rfl
    have hnext : Fails Rule.classMember
        ((of (' ' :: methodText value (' ' :: '\x7d' :: rest))).advance (1 + 6)) := by
      rw [advance_method]
      refine starts_classMember _ _ _ hkey ?_
      simp only [keyFirst, List.cons_append, List.nil_append, barred_cons, barred_nil, and_true]
      and_intros <;> rfl
    refine (hpasses.many closing fun stop hstop => ?_).bind_of_halts closing ?_
    · rw [List.mem_singleton.mp hstop]
      exact hnext.passes
    · intro stop hstop members
      apply fails_bind
      simp only [List.mem_cons, List.not_mem_nil, or_false] at hstop
      rcases hstop with rfl | rfl
      · exact starts_sign rfl _ _ _ (faces_method _ _) (barred_singleton.mpr rfl)
      · rw [advance_method]
        exact starts_sign rfl _ _ _ hkey (barred_singleton.mpr rfl)

/-- Behind the name of a class stand its braces. -/
theorem Enclosed.classTail :
    Secures Rule.classTail (of (classBody value rest)) (0 + (0 + (0 + classBodyLength value.length)))
      (fun forms => ∃ form, forms = [form] ∧ IsFunction (Returns kind) form) part := by
  have hfaces := faces_classBody value rest
  have htypes : Fails typeParameters (of (classBody value rest)) :=
    starts_typeParameters _ _ _ hfaces (barred_singleton.mpr rfl)
  refine (Offers.missing htypes).bindSecures fun types htypes => ?_
  refine (Offers.missing ((starts_keyword rfl).bind _ _ _ hfaces (barred_singleton.mpr rfl)))
    |>.bindSecures fun parent hparent => ?_
  refine (Offers.missing ((starts_keyword rfl).bind _ _ _ hfaces (barred_singleton.mpr rfl)))
    |>.bindSecures fun interfaces hinterfaces => ?_
  refine (enclosed.classMembers closing).imp ?_
  rintro _ ⟨form, rfl, hform⟩
  rw [htypes, hparent, hinterfaces]
  exact ⟨form, rfl, hform⟩

end Body

/-! ## Declared classes -/

/-- A class with one method that returns a value. -/
def classText (name value rest : List Char) : List Char :=
  ['c', 'l', 'a', 's', 's'] ++ ' ' :: (name ++ classBody value rest)

theorem settles_classWord {place : Place} (shows_ : place.Shows (classText name value rest)) :
    Settles True (Reader.keyword "class") place (0 + 5) (fun _ => True) ∧
      place.advance (0 + 5) = of (' ' :: (name ++ classBody value rest)) := by
  have hfaces : place.Faces 0 (classText name value rest) := .of_shows shows_ rfl
  refine ⟨settles_keyword hfaces rfl rfl, ?_⟩
  rw [hfaces.advance (by omega)]
  rfl

section Declared

variable (closing : Closing part)
  (enclosed : Enclosed value (';' :: ' ' :: '\x7d' :: ' ' :: '\x7d' :: rest) kind part)
  (hname : Lexeme.name name = some name.length)

include closing enclosed hname

/-- A declared class secures what its method returns. -/
theorem Enclosed.classDeclaration {place : Place}
    (shows_ : place.Shows (classText name value rest)) :
    Secures Rule.classDeclaration place
      (0 + 5 + (1 + name.length + (0 + (0 + (0 + classBodyLength value.length)))))
      (fun form => ∃ slice inner, form = .plain slice [inner] ∧ IsFunction (Returns kind) inner)
      part := by
  obtain ⟨hword, hadvance⟩ := settles_classWord shows_
  have hfaces := faces_name hname (classBody value rest)
  refine Secures.sliced (hword.bindSecures fun _ _ => ?_)
  rw [hadvance]
  refine (settles_name hname rfl hfaces).bindSecures fun _ _ => ?_
  rw [hfaces.advance (by omega), List.drop_left]
  refine (enclosed.classTail closing).returning closing ?_
  rintro _ ⟨form, rfl, hform⟩ slice
  exact ⟨slice, form, rfl, hform⟩

end Declared

/-! ## Classes without a name -/

/-- What is left of a name behind a word: nothing, or a name that starts with a dollar sign. -/
def Leftover (left : List Char) : Prop :=
  left = [] ∨ ∃ more, left = '$' :: more ∧ AllName more

section Nameless

variable {left : List Char}

theorem leftover_of_allName {tail : List Char} (hleft : AllName left)
    (h : Text.startsWithWord (left ++ tail) = false) : Leftover left := by
  cases left with
  | nil => exact Or.inl rfl
  | cons c more =>
      have hcontinues := hleft c (List.mem_cons_self ..)
      have hword : Text.isWord c = false := h
      rw [Lexeme.continuesName, hword, Bool.false_or, beq_iff_eq] at hcontinues
      exact Or.inr ⟨more, by rw [hcontinues], fun d hd => hleft d (List.mem_cons_of_mem _ hd)⟩

/-- The types that could stand behind the word `implements` start like this. -/
theorem Leftover.faces (leftover : Leftover left) (value rest : List Char) :
    ∃ lead c more, (of (left ++ classBody value rest)).Faces lead (c :: more) ∧
      (c = '$' ∨ c = '\x7b') := by
  rcases leftover with rfl | ⟨more, rfl, _⟩
  · exact ⟨1, _, _, faces_classBody value rest, Or.inr rfl⟩
  · exact ⟨0, _, _, .of_firm rfl, Or.inl rfl⟩

theorem mayStart_memberSeparator : MayStart memberSeparator [Lexeme.sign ",", Lexeme.sign ";"] := by
  intro place lead text faces barred reading hreading
  obtain ⟨reader, hreader, hreads⟩ := exists_of_reads_oneOf hreading
  simp only [List.mem_cons, List.not_mem_nil, or_false] at hreader
  rcases hreader with rfl | rfl | rfl
  · exact absurd hreads (starts_sign rfl _ _ _ faces (barred.mono (by simp)) reading)
  · exact absurd hreads (starts_sign rfl _ _ _ faces (barred.mono (by simp)) reading)
  · rw [reads_nothing.mp hreads]

theorem starts_typeMember :
    Starts typeMember ((([Lexeme.modifier] ++ keyFirst)) ++ (keyFirst ++ [Lexeme.sign "["])) :=
  ((starts_lexeme Lexeme.solid_modifier).optional.bind fun _ => starts_propertyKey.bind).cons <|
  starts_propertyKey.bind.cons (starts_sign rfl).bind.single

/-- A method would be read as a member of a type up to its braces. -/
theorem passes_typeMember (value rest : List Char) :
    Passes typeMember (of (' ' :: methodText value rest))
      (Halts (of (' ' :: methodText value rest)).length [1 + 6 + (0 + (0 + 2))] fun _ => False) := by
  have hmethod := faces_method value rest
  have hkey := settles_methodKey value rest
  have hbehind : (of ('(' :: ')' :: body value rest)).Faces 0 ('(' :: ')' :: body value rest) :=
    .of_firm rfl
  have hmark : Fails (Reader.sign "?") (of ('(' :: ')' :: body value rest)) :=
    starts_sign rfl _ _ _ hbehind (barred_singleton.mpr rfl)
  refine passes_oneOf fun reader hreader => ?_
  simp only [List.mem_cons, List.not_mem_nil, or_false] at hreader
  rcases hreader with rfl | rfl | rfl
  · have hmodifier : Fails (lexeme Lexeme.modifier) (of (' ' :: methodText value rest)) :=
      starts_lexeme Lexeme.solid_modifier _ _ _ hmethod (barred_singleton.mpr rfl)
    refine (Offers.missing (fails_map hmodifier)).bindPasses fun _ _ => ?_
    refine hkey.bindPasses fun _ _ => ?_
    rw [advance_method]
    refine (Offers.missing hmark).bindPasses fun _ _ => ?_
    exact ((starts_sign rfl).bind _ _ _ hbehind (barred_singleton.mpr rfl)).passes
  · have hmember : Settles True (do
        let key ← propertyKey
        optionalSign "?"
        return key.inside ++ (← signature))
        (of (' ' :: methodText value rest)) (1 + 6 + (0 + (0 + 2))) fun _ => True := by
      refine hkey.andThen fun _ _ => ?_
      rw [advance_method]
      refine (Offers.missing hmark).andThen fun _ _ => ?_
      exact (settles_signature hbehind).returning fun _ _ => trivial
    exact hmember.passes (Or.inl ⟨_, List.mem_cons_self .., rfl⟩)
  · exact ((starts_sign rfl).bind _ _ _ hmethod (barred_singleton.mpr rfl)).passes

/-- The braces of a class are no type. -/
theorem fails_objectType {place : Place} (shows_ : place.Shows (classBody value rest)) :
    Fails objectType place := by
  have hnowhere : Closing fun _ => False := fun _ _ _ => id
  have hfaces := (faces_classBody value rest).transfer shows_
  have hopening : Settles True (Reader.sign "\x7b") place (1 + 1) fun _ => True :=
    settles_sign hfaces rfl rfl
  have hmember := passes_typeMember value (' ' :: '\x7d' :: rest)
  have hend : (of (' ' :: methodText value (' ' :: '\x7d' :: rest))).advance (1 + 6 + (0 + (0 + 2))) =
      of (body value (' ' :: '\x7d' :: rest)) := by
    rw [advance_add, advance_method, advance_of]
    rfl
  have hbody : (of (body value (' ' :: '\x7d' :: rest))).Faces 1
      ('\x7b' :: ' ' :: returning value (' ' :: '\x7d' :: ' ' :: '\x7d' :: rest)) := .of_space rfl
  have hseparator : ∀ reading,
      Reads memberSeparator (of (body value (' ' :: '\x7d' :: rest))) reading → reading.used = 0 := by
    refine mayStart_memberSeparator _ _ _ hbody ?_
    simp only [barred_cons, barred_nil, and_true]
    exact ⟨rfl, rfl⟩
  have hnext : Fails typeMember (of (body value (' ' :: '\x7d' :: rest))) := by
    refine starts_typeMember _ _ _ hbody ?_
    simp only [keyFirst, List.cons_append, List.nil_append, barred_cons, barred_nil, and_true]
    and_intros <;> rfl
  have hone : Passes (do return [← typeMember]) (of (' ' :: methodText value (' ' :: '\x7d' :: rest)))
      (Halts (of (' ' :: methodText value (' ' :: '\x7d' :: rest))).length [1 + 6 + (0 + (0 + 2))]
        fun _ => False) := hmember.returning
  have hmembers : Passes (separatedBy memberSeparator typeMember)
      (of (' ' :: methodText value (' ' :: '\x7d' :: rest)))
      (Halts (of (' ' :: methodText value (' ' :: '\x7d' :: rest))).length [1 + 6 + (0 + (0 + 2))]
        fun _ => False) := by
    refine hone.iterate_of_halts hnowhere fun stop hstop members => fails_bind_of_fails ?_
    intro separator hreading
    rw [List.mem_singleton.mp hstop, hend] at hreading ⊢
    rw [hseparator separator hreading, advance_zero]
    exact fails_bind hnext
  have hinside : Passes (do
      let members ← separatedBy memberSeparator typeMember
      memberSeparator
      return members.flatten) (of (' ' :: methodText value (' ' :: '\x7d' :: rest)))
      (Halts (of (' ' :: methodText value (' ' :: '\x7d' :: rest))).length
        [1 + 6 + (0 + (0 + 2))] fun _ => False) := by
    refine hmembers.bind_missing hnowhere fun stop hstop members reading hreading => ?_
    obtain ⟨separator, hseparates, hused, _⟩ := exists_of_reads_returning hreading
    rw [List.mem_singleton.mp hstop, hend] at hseparates
    rw [hused, hseparator separator hseparates]
  have hpresent : Passes (ifPresent do
      let members ← separatedBy memberSeparator typeMember
      memberSeparator
      return members.flatten) (of (' ' :: methodText value (' ' :: '\x7d' :: rest)))
      (Halts (of (' ' :: methodText value (' ' :: '\x7d' :: rest))).length
        [0, 1 + 6 + (0 + (0 + 2))] fun _ => False) := by
    refine passes_oneOf fun reader hreader => ?_
    simp only [List.mem_cons, List.not_mem_nil, or_false] at hreader
    rcases hreader with rfl | rfl
    · exact hinside.halts_mono (by simp)
    · intro reading hreading
      rw [reads_nothing.mp hreading]
      exact Or.inl ⟨0, List.mem_cons_self .., rfl⟩
  have hclosed : Passes objectType place fun _ => False := by
    refine hopening.bindPasses fun _ _ => ?_
    rw [hfaces.advance (by omega), List.drop_succ_cons, List.drop_zero]
    refine hpresent.bind_of_halts hnowhere fun stop hstop members => fails_bind ?_
    simp only [List.mem_cons, List.not_mem_nil, or_false] at hstop
    rcases hstop with rfl | rfl
    · exact starts_sign rfl _ _ _ (faces_method _ _) (barred_singleton.mpr rfl)
    · rw [hend]
      exact starts_sign rfl _ _ _ hbody (barred_singleton.mpr rfl)
  exact fun reading hreading => hclosed reading hreading

/-- A list of constructs ends as its first one does, where no separator follows. -/
theorem Passes.separatedBy {α β : Type} {reader : Reader α} {separator : Reader β} {place : Place}
    {stops : List Nat} (passes : Passes reader place (Halts place.length stops fun _ => False))
    (h : ∀ stop ∈ stops, Fails separator (place.advance stop)) :
    Passes (Reader.separatedBy separator reader) place (Halts place.length stops fun _ => False) :=
  passes.returning.iterate_of_halts (fun _ _ _ => id) fun stop hstop _ => fails_bind (h stop hstop)

/-- What a type without names and braces starts with. -/
def typeFirst : List Lexeme :=
  [Lexeme.sign "|", Lexeme.keyword "keyof", Lexeme.string, Lexeme.number, Lexeme.template,
    Lexeme.sign "[", Lexeme.sign "(", Lexeme.sign "<", Lexeme.keyword "typeof"]

section Types

variable {place : Place} (leftover : Leftover left)
  (shows_ : place.Shows (left ++ classBody value rest))

include leftover shows_

theorem Leftover.faces_place :
    ∃ lead c more, place.Faces lead (c :: more) ∧ (c = '$' ∨ c = '\x7b') := by
  obtain ⟨lead, c, more, hfaces, hc⟩ := leftover.faces value rest
  exact ⟨lead, c, more, hfaces.transfer shows_, hc⟩

omit leftover in
theorem faces_behind :
    (place.advance left.length).Faces 1
      ('\x7b' :: ' ' :: methodText value (' ' :: '\x7d' :: rest)) := by
  have hshows := shows_.advance_shows left.length
  rw [List.drop_left] at hshows
  exact (faces_classBody value rest).transfer hshows

/-- A name that starts with a dollar sign is a type by itself. -/
theorem settles_typeName (hne : left ≠ []) :
    Settles True (do
      let _ ← separatedBy (Reader.sign ".") anyName
      ifPresent typeArguments) place left.length fun _ => True := by
  obtain ⟨more, rfl, hmore⟩ := leftover.resolve_left hne
  have hfaces : place.Faces 0 ('$' :: more ++ classBody value rest) := .of_shows shows_ rfl
  have hbehind := faces_behind shows_
  have hword : Lexeme.anyName ('$' :: more) = some ('$' :: more).length := by
    have hrun := @Lexeme.run_append_of_stops _ more [] hmore rfl
    rw [List.append_nil] at hrun
    rw [Lexeme.anyName, if_pos (by rfl), hrun]
    rfl
  have htaken := Lexeme.takesWhole_anyName ('$' :: more) (classBody value rest) hword rfl
  have hname : Settles True anyName place (0 + ('$' :: more).length) fun _ => True :=
    (settles_lexeme hfaces Lexeme.opens_anyName.solid htaken).imp fun _ _ => trivial
  have hnames : Settles True (separatedBy (Reader.sign ".") anyName) place
      (0 + ('$' :: more).length)
      fun _ => True := by
    refine Offers.iterate (hname.returning fun _ _ => trivial) (fun _ _ => ?_)
      fun _ _ => False.elim
    rw [Nat.zero_add]
    exact fails_bind (starts_sign rfl _ _ _ hbehind (barred_singleton.mpr rfl))
  have hchain : Settles True (do
      let _ ← separatedBy (Reader.sign ".") anyName
      ifPresent typeArguments) place (0 + ('$' :: more).length + 0) (· = ([] : List Form)) := by
    refine hnames.andThen fun _ _ => ?_
    rw [Nat.zero_add]
    exact Offers.missing (starts_typeArguments _ _ _ hbehind (barred_singleton.mpr rfl))
  rw [Nat.zero_add, Nat.add_zero] at hchain
  exact hchain.imp fun _ _ => trivial

/-- What is left of the name is a type by itself, and no type can be read without it. -/
theorem passes_primaryType :
    Passes primaryType place (Halts place.length [left.length] fun _ => False) := by
  obtain ⟨lead, c, more, hfaces, hc⟩ := leftover.faces_place shows_
  have hbarred : Barred typeFirst (c :: more) := by
    rcases hc with rfl | rfl
    all_goals
      simp only [typeFirst, barred_cons, barred_nil, and_true]
      and_intros <;> rfl
  refine passes_oneOf fun reader hreader => ?_
  simp only [List.mem_cons, List.not_mem_nil, or_false] at hreader
  rcases hreader with rfl | rfl | rfl | rfl | rfl | rfl | rfl | rfl | rfl
  case inl =>
    by_cases hleft : left = []
    · subst hleft
      have hbehind := faces_behind shows_
      rw [List.length_nil, advance_zero] at hbehind
      exact (fails_bind (starts_anyName.separatedBy _ _ _ hbehind (barred_singleton.mpr rfl))).passes
    · exact (settles_typeName leftover shows_ hleft).passes (Or.inl ⟨_, List.mem_singleton_self _, rfl⟩)
  case inr.inr.inr.inr.inl =>
    rcases leftover with rfl | ⟨behind, rfl, _⟩
    · exact (fails_objectType shows_).passes
    · have hdollar : place.Faces 0 ('$' :: behind ++ classBody value rest) := .of_shows shows_ rfl
      exact ((starts_sign rfl).bind _ _ _ hdollar (barred_singleton.mpr rfl)).passes
  · exact ((starts_lexeme Lexeme.opens_string.solid).map _ _ _ hfaces (hbarred.mono (by simp [typeFirst]))).passes
  · exact ((starts_lexeme Lexeme.opens_number.solid).map _ _ _ hfaces (hbarred.mono (by simp [typeFirst]))).passes
  · exact ((starts_lexeme Lexeme.opens_template.solid).map _ _ _ hfaces (hbarred.mono (by simp [typeFirst]))).passes
  · exact ((starts_sign rfl).bind _ _ _ hfaces (hbarred.mono (by simp [typeFirst]))).passes
  · exact ((starts_sign rfl).bind _ _ _ hfaces (hbarred.mono (by simp [typeFirst]))).passes
  · exact (((mayStart_ifPresent starts_typeParameters).bind fun _ => starts_parameterList.bind)
      _ _ _ hfaces (hbarred.mono (by simp [typeFirst]))).passes
  · exact ((starts_keyword rfl).bind _ _ _ hfaces (hbarred.mono (by simp [typeFirst]))).passes

theorem passes_typeTerm :
    Passes typeTerm place (Halts place.length [left.length] fun _ => False) := by
  have hnowhere : Closing fun _ => False := fun _ _ _ => id
  obtain ⟨lead, c, more, hfaces, hc⟩ := leftover.faces_place shows_
  have hbehind := faces_behind shows_
  have hkeyof : Fails (Reader.keyword "keyof") place := by
    refine starts_keyword rfl _ _ _ hfaces (barred_singleton.mpr ?_)
    rcases hc with rfl | rfl
    · rfl
    · rfl
  refine (Offers.missing hkeyof).bindPasses fun _ _ => ?_
  rw [advance_zero]
  refine (passes_primaryType leftover shows_).bind_missing hnowhere fun stop hstop first reading hreading => ?_
  rw [List.mem_singleton.mp hstop] at hreading
  obtain ⟨indices, hindices, hused, _⟩ := exists_of_reads_returning hreading
  rw [hused]
  exact (starts_sign rfl).bind.many _ _ _ hbehind (barred_singleton.mpr rfl) indices hindices

theorem passes_type : Passes Rule.type place (Halts place.length [left.length] fun _ => False) := by
  obtain ⟨lead, c, more, hfaces, hc⟩ := leftover.faces_place shows_
  have hbehind := faces_behind shows_
  have hbar : Fails (Reader.sign "|") place := by
    refine starts_sign rfl _ _ _ hfaces (barred_singleton.mpr ?_)
    rcases hc with rfl | rfl
    · rfl
    · rfl
  refine (Offers.missing hbar).bindPasses fun _ _ => ?_
  rw [advance_zero]
  refine Passes.returning ((passes_typeTerm leftover shows_).separatedBy fun stop hstop => ?_)
  rw [List.mem_singleton.mp hstop]
  exact (starts_sign rfl).cons (starts_sign rfl).single _ _ _ hbehind
    (by simp only [List.cons_append, List.nil_append, barred_cons, barred_nil, and_true]; exact ⟨rfl, rfl⟩)

end Types

/-- Where the name of a class begins with the word `implements`, what is left of it is a type. -/
theorem passes_interfaces (hname : Lexeme.name name = some name.length) :
    Passes
      (ifPresent do
        Reader.keyword "implements"
        List.flatten <$> separatedBy (Reader.sign ",") Reader.type)
      (of (' ' :: (name ++ classBody value rest)))
      (Halts (of (' ' :: (name ++ classBody value rest))).length [0, 1 + name.length]
        fun _ => False) := by
  have hfaces := faces_name hname (classBody value rest)
  refine passes_oneOf fun reader hreader => ?_
  simp only [List.mem_cons, List.not_mem_nil, or_false] at hreader
  rcases hreader with rfl | rfl
  · refine passes_bind fun word hword => ?_
    obtain ⟨length, hkeyword, hused⟩ := exists_of_reads_keyword hfaces rfl hword
    have hall : AllName name := allName_of_anyName (Lexeme.name_eq_some_iff.mp hname).2
    have himplements : AllName "implements".toList :=
      List.all_eq_true.mp (show "implements".toList.all Lexeme.continuesName = true by decide)
    obtain ⟨more, hmore, hdrop, hstarts, _⟩ := hall.drop_keyword rfl himplements hkeyword
    have hadvance : (of (' ' :: (name ++ classBody value rest))).advance word.used =
        of (more ++ classBody value rest) := by
      rw [hused, hfaces.advance (by omega), hdrop]
    have hne : more ++ classBody value rest ≠ [] := by simp [classBody]
    have hshown := shows_bare (more ++ classBody value rest)
    have hleftover := leftover_of_allName hmore hstarts
    have hlength : (bare (more ++ classBody value rest)).length =
        (of (more ++ classBody value rest)).length := by
      rw [length_of]
      exact length_under _ _
    have hbare := passes_type hleftover hshown
    rw [hlength] at hbare
    have htype : Passes Reader.type (of (more ++ classBody value rest))
        (Halts (of (more ++ classBody value rest)).length [more.length] fun _ => False) :=
      hbare.transfer (type_of hne) hlength.symm
    rw [hadvance, map_eq_bind]
    refine Passes.returning ((htype.separatedBy fun stop hstop => ?_).imp fun left hleft => ?_)
    · rw [List.mem_singleton.mp hstop, advance_of, List.drop_left]
      exact starts_sign rfl _ _ _ (faces_classBody value rest) (barred_singleton.mpr rfl)
    · obtain ⟨stop, hstop, rfl⟩ := hleft.resolve_right id
      refine Or.inl ⟨1 + name.length, by simp, ?_⟩
      rw [List.mem_singleton.mp hstop, length_of, length_of]
      simp only [List.length_cons, List.length_append]
      omega
  · intro reading hreading
    rw [reads_nothing.mp hreading]
    exact Or.inl ⟨0, List.mem_cons_self .., rfl⟩

end Nameless

/-! ## Classes as statements -/

theorem statement_class (name value rest : List Char) : ∀ other ∈ statementTable,
    other = (classDeclaration, [Lexeme.keyword "class"]) ∨
      Barred other.2 (classText name value rest) := by
  intro other hother
  simp only [statementTable, List.mem_cons, List.not_mem_nil, or_false] at hother
  rcases hother with rfl | rfl | rfl | rfl | rfl | rfl | rfl | rfl | rfl | rfl | rfl | rfl | rfl |
    rfl | rfl | rfl
  case inr.inr.inr.inr.inl => exact Or.inl rfl
  all_goals
    refine Or.inr ?_
    simp only [barred_cons, barred_nil, and_true]
    and_intros <;> rfl

theorem primary_class (name value rest : List Char) : ∀ other ∈ primaryTable,
    other = (classExpression, [Lexeme.keyword "class"]) ∨
      Barred other.2 (classText name value rest) := by
  intro other hother
  simp only [primaryTable, List.mem_cons, List.not_mem_nil, or_false] at hother
  rcases hother with rfl | rfl | rfl | rfl | rfl | rfl | rfl | rfl | rfl | rfl | rfl | rfl | rfl | rfl
  case inr.inr.inr.inr.inr.inr.inr.inr.inr.inr.inr.inr.inl => exact Or.inl rfl
  all_goals
    refine Or.inr ?_
    simp only [barred_cons, barred_nil, and_true]
    and_intros <;> rfl

theorem free_class (name value rest : List Char) :
    Barred (operatorFirst ++ arrowFirst) (classText name value rest) := by
  simp only [operatorFirst, arrowFirst, List.cons_append, List.nil_append, barred_cons, barred_nil,
    and_true]
  and_intros <;> rfl

theorem length_classBody (value rest : List Char) :
    (classBody value rest).length = classBodyLength value.length + rest.length := by
  simp only [classBody, methodText, classBodyLength, List.length_cons, List.length_append,
    List.length_nil, length_body]
  omega

section Statement

variable (closing : Closing part)
  (enclosed : Enclosed value (';' :: ' ' :: '\x7d' :: ' ' :: '\x7d' :: rest) kind part)
  (hname : Lexeme.name name = some name.length)

include closing enclosed hname

/-- As an expression, the class leads into the part, too, with its name or without it. -/
theorem Enclosed.passes_classExpression {place : Place}
    (shows_ : place.Shows (classText name value rest)) : Passes classExpression place part := by
  obtain ⟨hword, hadvance⟩ := settles_classWord shows_
  have hfaces := faces_name hname (classBody value rest)
  refine Passes.sliced (hword.bindPasses fun _ _ => ?_)
  rw [hadvance]
  refine passes_bind fun found hfound => ?_
  obtain ⟨reader, hreader, hreads⟩ := exists_of_reads_oneOf hfound
  simp only [List.mem_cons, List.not_mem_nil, or_false] at hreader
  rcases hreader with rfl | rfl
  · obtain ⟨word, hreadsName, hused, _⟩ := exists_of_reads_map hreads
    rw [hused, (settles_name hname rfl hfaces).used_eq hreadsName, hfaces.advance (by omega),
      List.drop_left]
    exact (enclosed.classTail closing).passes.returning
  · -- without the name, what is left of it behind `implements` could be a type
    have hnowhere : Closing fun _ => False := fun _ _ _ => id
    have hextends : Lexeme.keyword "extends" (name ++ classBody value rest) = none :=
      Lexeme.keyword_eq_none_of_keywordOf
        (Lexeme.name_eq_some_iff.mp (Lexeme.takesWhole_name name _ hname rfl)).1
        (by simp [Lexeme.reservedWords])
    have htypes : Fails typeParameters (of (' ' :: (name ++ classBody value rest))) :=
      starts_typeParameters _ _ _ hfaces (barred_singleton.mpr (sign_name hname rfl _))
    rw [reads_nothing.mp hreads, advance_zero]
    refine Passes.returning ((Offers.missing htypes).bindPasses fun _ _ => ?_)
    refine (Offers.missing ((starts_keyword rfl).bind _ _ _ hfaces (barred_singleton.mpr hextends)))
      |>.bindPasses fun _ _ => ?_
    refine (passes_interfaces hname).bind_halts hnowhere (fun _ => False.elim) fun stop hstop _ => ?_
    simp only [List.mem_cons, List.not_mem_nil, or_false] at hstop
    rcases hstop with rfl | rfl
    · exact (fails_bind (starts_sign rfl _ _ _ hfaces
        (barred_singleton.mpr (sign_name hname rfl _)))).passes
    · rw [hfaces.advance (by omega), List.drop_left]
      exact (enclosed.classMembers closing).passes

/-- The declaration of a class is secured as a statement. -/
theorem Enclosed.classStatement :
    Secures Reader.statement (of (classText name value rest))
      ((classText name value rest).length - rest.length)
      (fun form => ∃ slice inner, form = .plain slice [inner] ∧ IsFunction (Returns kind) inner)
      part := by
  have hne : classText name value rest ≠ [] := List.cons_ne_nil _ _
  have hfaces : (of (classText name value rest)).Faces 0 (classText name value rest) :=
    .of_firm rfl
  have hlength : (classText name value rest).length - rest.length =
      0 + 5 + (1 + name.length + (0 + (0 + (0 + classBodyLength value.length)))) := by
    simp only [classText, List.length_append, List.length_cons, List.length_nil, length_classBody]
    omega
  have hdeclaration := enclosed.classDeclaration closing hname
    (shows_atStatement (classText name value rest))
  rw [hlength]
  refine ⟨?_, ?_⟩
  · exact Reader.keeps_statement hne hfaces
      (List.mem_of_getElem? (show statementTable[4]? = some _ from rfl))
      (statement_class name value rest) hdeclaration.keeps
  · have hexpression := passes_expression_of_primary closing hne hfaces
      (free_class name value rest) fun entry hentry => by
        rcases primary_class name value rest entry hentry with rfl | hbarred
        · exact Or.inr (enclosed.passes_classExpression closing hname (shows_opened _))
        · exact Or.inl hbarred
    refine Reader.passes_statement hne hfaces (fun entry hentry => ?_)
      (passes_expressionStatement hne closing hexpression) rfl
    rcases statement_class name value rest entry hentry with rfl | hbarred
    · exact Or.inr hdeclaration.passes
    · exact Or.inl hbarred

end Statement

end Class

end EditableMarkup.Grammar.Reader
