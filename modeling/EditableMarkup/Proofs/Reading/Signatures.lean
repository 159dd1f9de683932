import EditableMarkup.Proofs.Reading.Primary
import EditableMarkup.Proofs.Reading.Tags

/-!
# Names and signatures

Where a name is declared it is read as a whole, and a signature without
parameters leaves no choice.
-/

namespace EditableMarkup.Grammar.Reader

open Place Rule

variable {free : Prop}

/-! ## Names -/

section Name

variable {word rest shown : List Char} {place : Place} {lead : Nat}

theorem startsName_of_name (hname : Lexeme.name word = some word.length) :
    ∃ c more, word = c :: more ∧ Lexeme.startsName c = true :=
  Lexeme.exists_startsName (Lexeme.name_eq_some_iff.mp hname).2

theorem faces_name (hname : Lexeme.name word = some word.length) (rest : List Char) :
    (of (' ' :: (word ++ rest))).Faces 1 (word ++ rest) := by
  obtain ⟨c, more, rfl, hc⟩ := startsName_of_name hname
  exact .of_space (skipped_of_startsName hc _)

/-- A sign that no name starts with is not found in front of a name. -/
theorem sign_name (hname : Lexeme.name word = some word.length) {spelling : String}
    (h : spelling.toList.head?.any (fun c => !Lexeme.startsName c) = true) (rest : List Char) :
    Lexeme.sign spelling (word ++ rest) = none := by
  obtain ⟨c, more, rfl, hc⟩ := startsName_of_name hname
  exact Lexeme.sign_eq_none_of_head h (by rw [hc, Bool.not_true])

theorem settles_name (hname : Lexeme.name word = some word.length)
    (stops : Stops Lexeme.continuesName rest) (faces : place.Faces lead (word ++ rest)) :
    Settles free Rule.name place (lead + word.length) fun _ => True :=
  (settles_lexeme faces Lexeme.opens_name.solid (Lexeme.takesWhole_name word rest hname stops)).imp
    fun _ _ => trivial

/-- A name is a pattern that holds no forms. -/
theorem settles_pattern_name (hname : Lexeme.name word = some word.length)
    (stops : Stops Lexeme.continuesName rest) (faces : (of shown).Faces lead (word ++ rest)) :
    Settles free Reader.pattern (of shown) (lead + word.length) (· = []) := by
  have hne : shown ≠ [] := by
    rintro rfl
    obtain ⟨c, more, rfl, _⟩ := startsName_of_name hname
    have hlength := faces.length_eq
    rw [length_of] at hlength
    simp at hlength
  have hfaces := faces.transfer (shows_bare shown)
  have hword : Settles free ((fun _ => []) <$> Rule.name) (bare shown) (lead + word.length)
      (· = ([] : List Form)) := (settles_name hname stops hfaces).map fun _ _ => rfl
  have hrule : Settles free Rule.pattern (bare shown) (lead + word.length) (· = []) := by
    refine hword.choose (List.mem_cons_self ..) fun other hother => ?_
    simp only [List.mem_cons, List.not_mem_nil, or_false] at hother
    rcases hother with rfl | rfl | rfl
    · exact Or.inl rfl
    · exact Or.inr ((starts_sign rfl).bind _ _ _ hfaces
        (barred_singleton.mpr (sign_name hname rfl rest)))
    · exact Or.inr ((starts_sign rfl).bind _ _ _ hfaces
        (barred_singleton.mpr (sign_name hname rfl rest)))
  exact hrule.transfer (pattern_of hne) fun _ => Iff.rfl

end Name

/-! ## Signatures -/

section Signature

variable {shown text rest : List Char} {place : Place} {lead : Nat}

/-- What parameters start with. -/
def parameterFirst : List Lexeme :=
  [Lexeme.name, Lexeme.sign "\x7b", Lexeme.sign "[", Lexeme.sign "..."]

theorem fails_parameters (hne : shown ≠ []) (faces : (of shown).Faces lead text)
    (h : Barred parameterFirst text) : Fails (List.flatten <$> commaList parameter) (of shown) := by
  have hbare := faces.transfer (shows_bare shown)
  have hpattern : Fails Reader.pattern (of shown) := by
    intro reading hreading
    rw [Reads, pattern_of hne] at hreading
    revert reading
    refine fails_oneOf fun reader hreader => ?_
    simp only [List.mem_cons, List.not_mem_nil, or_false] at hreader
    rcases hreader with rfl | rfl | rfl
    · exact starts_name.map _ _ _ hbare (h.mono (by simp [parameterFirst]))
    · exact (starts_sign rfl).bind _ _ _ hbare (h.mono (by simp [parameterFirst]))
    · exact (starts_sign rfl).bind _ _ _ hbare (h.mono (by simp [parameterFirst]))
  have hparameter : Fails parameter (of shown) := by
    refine fails_oneOf fun reader hreader => ?_
    simp only [List.mem_cons, List.not_mem_nil, or_false] at hreader
    rcases hreader with rfl | rfl
    · exact fails_bind hpattern
    · exact (starts_sign rfl).bind _ _ _ faces (h.mono (by simp [parameterFirst]))
  exact fails_map (fails_bind (fails_iterate (fails_bind hparameter)))

theorem settles_parameterList (faces : place.Faces lead ('(' :: ')' :: rest)) :
    Settles free parameterList place (lead + 2) (· = []) := by
  have hopening : Settles free (Reader.sign "(") place (lead + 1) fun _ => True :=
    settles_sign faces rfl rfl
  have hinside : (of (')' :: rest)).Faces 0 (')' :: rest) := .of_firm rfl
  have hclosing : Settles free (Reader.sign ")") (of (')' :: rest)) (0 + 1) fun _ => True :=
    settles_sign hinside rfl rfl
  have hbarred : Barred parameterFirst (')' :: rest) := by
    simp only [parameterFirst, barred_cons, barred_nil, and_true]
    and_intros <;> rfl
  have hchain : Settles free parameterList place (lead + 1 + (0 + (0 + 1))) (· = []) := by
    refine hopening.andThen fun _ _ => ?_
    rw [faces.advance (by omega)]
    refine (Offers.missing (fails_parameters (List.cons_ne_nil _ _) hinside hbarred)).andThen ?_
    exact fun value hvalue => hclosing.returning fun _ _ => hvalue
  exact hchain

/-- A parenthesis in front of another bracket opens no parameters. -/
theorem fails_parameterList_bracket {c : Char} (hc : c = '<' ∨ c = '(') {more : List Char}
    (faces : place.Faces lead ('(' :: c :: more)) : Fails parameterList place := by
  have hopening : Settles True (Reader.sign "(") place (lead + 1) fun _ => True :=
    settles_sign faces rfl rfl
  have hfirm : Lexeme.skipped (c :: more) = none := by
    rcases hc with rfl | rfl <;> rfl
  have hbarred : Barred (Lexeme.sign ")" :: parameterFirst) (c :: more) := by
    simp only [parameterFirst, barred_cons, barred_nil, and_true]
    rcases hc with rfl | rfl
    · and_intros <;> rfl
    · and_intros <;> rfl
  have hparameters : Fails (List.flatten <$> commaList parameter) (of (c :: more)) :=
    fails_parameters (List.cons_ne_nil _ _) (.of_firm hfirm) (hbarred.mono (List.subset_cons_self ..))
  refine fails_bind_of_fails fun opening hreading => ?_
  rw [hopening.used_eq hreading, faces.advance (by omega)]
  refine fails_bind_of_fails fun inside hreading => ?_
  rw [(Offers.missing hparameters).used_eq hreading, advance_zero]
  exact (starts_sign rfl).bind _ _ _ (.of_firm hfirm) (hbarred.mono (by simp))

/-- A signature without parameters and types, in front of a block. -/
theorem settles_signature (faces : place.Faces lead ('(' :: ')' :: ' ' :: '\x7b' :: rest)) :
    Settles free signature place (lead + 2) (· = []) := by
  have htypes : Fails typeParameters place :=
    starts_typeParameters _ _ _ faces (barred_singleton.mpr rfl)
  have hresult : Fails typeAnnotation (of (' ' :: '\x7b' :: rest)) :=
    starts_typeAnnotation _ _ _ (.of_space rfl) (barred_singleton.mpr rfl)
  have hchain : Settles free signature place (0 + (lead + 2 + 0)) (· = []) := by
    refine (Offers.missing htypes).andThen fun types htypes => ?_
    refine (settles_parameterList faces).andThen fun parameters hparameters => ?_
    rw [faces.advance (by omega)]
    refine (Offers.missing hresult).returning fun result hresult => ?_
    rw [htypes, hparameters, hresult]
    rfl
  rwa [Nat.zero_add] at hchain

end Signature

end EditableMarkup.Grammar.Reader
