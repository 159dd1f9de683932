import Mathlib.Data.List.Forall2
import EditableMarkup.Proofs.Reading.Chain
import EditableMarkup.Proofs.Reading.Primary

/-!
# Lists in brackets

Items with commas between them are read one by one up to the bracket that closes
the list.  An item may be left early only at a place where no sign closes it, so
nothing goes on from there, neither with another comma nor with the bracket.
-/

namespace EditableMarkup.Grammar.Reader

open Place Rule

variable {free : Prop}

/-- A sign of one character that closes a list. -/
structure Bracket (spelling : String) (c : Char) : Prop where
  mem : spelling ∈ [",", "\x7d", ")", ";"]
  visible : Lexeme.Visible spelling
  closes : Grammar.closes c = true
  sign_eq : ∀ rest, Lexeme.sign spelling (c :: rest) = some 1
  barred_comma : ∀ rest, Lexeme.sign spelling (',' :: rest) = none

theorem bracket_brace : Bracket "\x7d" '}' :=
  ⟨by simp, rfl, rfl, fun _ => rfl, fun _ => rfl⟩

theorem bracket_paren : Bracket ")" ')' :=
  ⟨by simp, rfl, rfl, fun _ => rfl, fun _ => rfl⟩

section Bracket

variable {spelling : String} {c : Char} (bracket : Bracket spelling c)

include bracket

theorem Bracket.finished (rest : List Char) : Finished (c :: rest) :=
  bracket.closes

theorem Bracket.faces (rest : List Char) : (of (c :: rest)).Faces 0 (c :: rest) :=
  .of_firm (bracket.finished rest).closed.skipped_eq_none

theorem Bracket.settles (rest : List Char) :
    Settles free (Reader.sign spelling) (of (c :: rest)) 1 fun _ => True := by
  rw [← Nat.zero_add 1]
  exact settles_sign (bracket.faces rest) bracket.visible (bracket.sign_eq rest)

theorem Bracket.not_fails (rest : List Char) : ¬ Fails (Reader.sign spelling) (of (c :: rest)) := by
  intro h
  have hsettles : Settles True (Reader.sign spelling) (of (c :: rest)) 1 fun _ => True :=
    bracket.settles rest
  obtain ⟨reading, hreading, _⟩ := hsettles.reads
  exact h reading hreading

/-- A construct between brackets, which is read up to the closing one or to places where it does not
stand. -/
theorem Offers.enclosed {α β : Type} {inner : Reader α} {place : Place} {lead : Nat}
    {opening : String} {o : Char} {front rest : List Char} {kind : α → Prop} {kind' : β → Prop}
    {f : α → β} (visible : Lexeme.Visible opening)
    (hopening : Lexeme.sign opening (o :: (front ++ c :: rest)) = some 1)
    (faces : place.Faces lead (o :: (front ++ c :: rest)))
    (offers : Offers free inner (of (front ++ c :: rest)) front.length kind
      (Fails (Reader.sign spelling)))
    (h : ∀ value, kind value → kind' (f value)) :
    Settles free
      (do
        Reader.sign opening
        let value ← inner
        Reader.sign spelling
        return f value)
      place (lead + 1 + (front.length + 1)) kind' := by
  refine (settles_sign faces visible hopening).andThen fun _ _ => ?_
  rw [faces.advance (by omega), List.drop_succ_cons, List.drop_zero]
  refine offers.bind (fun _ _ hfails => fails_bind hfails) fun value hvalue => ?_
  rw [advance_of, List.drop_left]
  exact (bracket.settles rest).returning fun _ _ => h value hvalue

end Bracket

/-! ## Items behind commas -/

/-- A place behind which the bracket stands neither at once nor behind a comma. -/
def Ongoing (spelling : String) (place : Place) : Prop :=
  Fails (Reader.sign spelling) place ∧ ∀ reading, Reads (Reader.sign ",") place reading →
    Fails (Reader.sign spelling) (place.advance reading.used)

/-- An optional comma at such a place does not lead to the bracket. -/
theorem Ongoing.fails_behind {spelling : String} {place : Place} (ongoing : Ongoing spelling place)
    {reading : Reading (Option Unit)} (h : Reads (optional (Reader.sign ",")) place reading) :
    Fails (Reader.sign spelling) (place.advance reading.used) := by
  obtain ⟨reader, hreader, hreads⟩ := exists_of_reads_oneOf h
  simp only [List.mem_cons, List.not_mem_nil, or_false] at hreader
  rcases hreader with rfl | rfl
  · obtain ⟨before, hbefore, hused, _⟩ := exists_of_reads_map hreads
    rw [hused]
    exact ongoing.2 before hbefore
  · rw [reads_nothing.mp hreads, advance_zero]
    exact ongoing.1

/-- Items behind others, a comma in front of each. -/
def charsBehind {ι : Type} (chars : ι → List Char) (items : List ι) : List Char :=
  items.flatMap fun item => ',' :: chars item

/-- Items with commas between them. -/
def charsOf {ι : Type} (chars : ι → List Char) : List ι → List Char
  | [] => []
  | item :: items => chars item ++ charsBehind chars items

section List

variable {α ι : Type} {chars : ι → List Char} {items : List ι} {spelling : String} {c : Char}

/-- Behind an item there is a comma or the closing bracket. -/
theorem Bracket.behind (bracket : Bracket spelling c) (chars : ι → List Char) (items : List ι)
    (rest : List Char) :
    Closed (charsBehind chars items ++ c :: rest) ∧ charsBehind chars items ++ c :: rest ≠ [] := by
  cases items with
  | nil => exact ⟨(bracket.finished rest).closed, List.cons_ne_nil _ _⟩
  | cons item items => exact ⟨rfl, List.cons_ne_nil _ _⟩

/-- In front of the comma behind an item the list is not complete. -/
theorem Bracket.ongoing (bracket : Bracket spelling c) {text : List Char}
    (h : Fails (Reader.sign spelling) (of text)) : Ongoing spelling (of (',' :: text)) := by
  have hfaces : (of (',' :: text)).Faces 0 (',' :: text) := .of_firm rfl
  refine ⟨starts_sign bracket.visible _ _ _ hfaces
    (barred_singleton.mpr (bracket.barred_comma text)), fun reading hreading => ?_⟩
  have hcomma : Settles True (Reader.sign ",") (of (',' :: text)) (0 + 1) fun _ => True :=
    settles_sign hfaces rfl rfl
  obtain ⟨hused, _⟩ := (hcomma.only reading hreading).resolve_right id
  rw [hused, hfaces.advance (by decide)]
  exact h

variable {step : α → Reader α} {kind : List ι → α → Prop}

/-- From item to item a list is read, if each step reads a comma and one more item. -/
theorem chain_list (bracket : Bracket spelling c)
    (hcomma : ∀ value place, Fails (Reader.sign ",") place → Fails (step value) place)
    (hopens : ∀ item ∈ items, ∀ rest, Fails (Reader.sign spelling) (of (chars item ++ rest)))
    (hstep : ∀ item ∈ items, ∀ done value rest, kind done value → Closed rest → rest ≠ [] →
      Offers free (step value) (of (',' :: (chars item ++ rest))) (1 + (chars item).length)
        (kind (done ++ [item])) Unclosed)
    {place : Place} (done : List ι) {front rest : List Char} (hfront : front ≠ [])
    (hshows : place.Shows (front ++ charsBehind chars items ++ c :: rest)) :
    Chain free step place Unclosed (Ongoing spelling) (front ++ charsBehind chars items).length
      (kind (done ++ items)) front.length (kind done) := by
  induction items generalizing done front with
  | nil =>
      have hself : front ++ charsBehind chars [] = front := List.append_nil front
      rw [hself] at hshows ⊢
      rw [List.append_nil]
      refine .stop fun value _ => hcomma value _ ?_
      rw [hshows.advance_append hfront]
      exact starts_sign rfl _ _ _ (bracket.faces rest) (bracket.finished rest).barred_comma
  | cons item items ih =>
      obtain ⟨closed, hne⟩ := bracket.behind chars items rest
      have hsplit : front ++ charsBehind chars (item :: items) =
          (front ++ ',' :: chars item) ++ charsBehind chars items := by
        simp [charsBehind]
      have hplace : place.advance front.length =
          of (',' :: (chars item ++ (charsBehind chars items ++ c :: rest))) := by
        have hbehind : front ++ charsBehind chars (item :: items) ++ c :: rest =
            front ++ ',' :: (chars item ++ (charsBehind chars items ++ c :: rest)) := by
          simp [charsBehind]
        rw [hbehind] at hshows
        exact hshows.advance_append hfront
      have hchain := @ih (fun other hother => hopens other (List.mem_cons_of_mem _ hother))
        (fun other hother => hstep other (List.mem_cons_of_mem _ hother)) (done ++ [item])
        (front ++ ',' :: chars item) (by simp) (by rwa [← hsplit])
      have hlength : (front ++ ',' :: chars item).length =
          front.length + (1 + (chars item).length) := by
        simp only [List.length_append, List.length_cons]
        omega
      have hdone : done ++ item :: items = done ++ [item] ++ items := by simp
      rw [hlength] at hchain
      rw [hsplit, hdone]
      refine .next ?_ ?_ (by omega) (fun value hvalue => ?_) hchain
      · rw [hplace]
        exact bracket.ongoing (hopens item (List.mem_cons_self ..) _)
      · rw [hplace]
        exact Closed.not_unclosed rfl (List.cons_ne_nil _ _)
      · rw [hplace]
        exact hstep item (List.mem_cons_self ..) done value _ hvalue closed hne

/-- The items of a list are read up to the closing bracket. -/
theorem Offers.list {first : Reader α} {place : Place} {item : ι} {rest : List Char}
    (bracket : Bracket spelling c)
    (hcomma : ∀ value place, Fails (Reader.sign ",") place → Fails (step value) place)
    (hopens : ∀ other ∈ items, ∀ rest, Fails (Reader.sign spelling) (of (chars other ++ rest)))
    (hstep : ∀ other ∈ items, ∀ done value rest, kind done value → Closed rest → rest ≠ [] →
      Offers free (step value) (of (',' :: (chars other ++ rest))) (1 + (chars other).length)
        (kind (done ++ [other])) Unclosed)
    (offers : Offers free first place (chars item).length (kind [item]) Unclosed)
    (ascends : AscendsAt first place) (hne : chars item ≠ [])
    (hshows : place.Shows (charsOf chars (item :: items) ++ c :: rest)) :
    Offers free (Reader.iterate first step) place (charsOf chars (item :: items)).length
      (kind (item :: items)) (Ongoing spelling) := by
  refine offers.chain (chain_list bracket hcomma hopens hstep [item] hne hshows) ascends
    (fun value place unclosed => hcomma value place (unclosed "," (by simp))) ?_ ?_ ?_
  · rw [hshows.length_eq, charsOf]
    simp
  · rw [charsOf] at hshows ⊢
    rw [hshows.advance_append (by simp [hne])]
    exact fun ongoing => bracket.not_fails rest ongoing.1
  · exact fun place unclosed => ⟨unclosed spelling bracket.mem, fun reading hreading =>
      absurd hreading (unclosed "," (by simp) reading)⟩

end List

section CommaList

variable {α ι : Type} {chars : ι → List Char} {items : List ι} {spelling : String} {c : Char}
  {reader : Reader α} {means : α → ι → Prop}

/-- An item of a list can be read behind a comma and behind the opening bracket: in front of a comma
or a closing sign, and the closing bracket does not open it. -/
structure Listed (free : Prop) (spelling : String) (reader : Reader α) (means : α → ι → Prop)
    (chars : ι → List Char) (item : ι) : Prop where
  ne_nil : chars item ≠ []
  opens : ∀ rest, Fails (Reader.sign spelling) (of (chars item ++ rest))
  offers : ∀ rest, Closed rest → rest ≠ [] →
    Offers free reader (of (chars item ++ rest)) (chars item).length (means · item) Unclosed

/-- Items with commas between them are a list, whether a comma might still follow or not. -/
theorem offers_commaList (bracket : Bracket spelling c)
    (hitems : ∀ item ∈ items, Listed free spelling reader means chars item) (hne : items ≠ [])
    (rest : List Char) :
    Offers free (commaList reader) (of (charsOf chars items ++ c :: rest))
      (charsOf chars items).length
      (List.Forall₂ means · items) (Fails (Reader.sign spelling)) := by
  obtain ⟨item, items, rfl⟩ := List.exists_cons_of_ne_nil hne
  have hitem := hitems item (List.mem_cons_self ..)
  obtain ⟨closed, hbehind⟩ := bracket.behind chars items rest
  have hend : (of (charsOf chars (item :: items) ++ c :: rest)).advance
      (charsOf chars (item :: items)).length = of (c :: rest) := by
    rw [advance_of, List.drop_left]
  have hfirst : Offers free (do return [← reader])
      (of (charsOf chars (item :: items) ++ c :: rest)) (chars item).length
      (List.Forall₂ means · [item]) Unclosed := by
    rw [charsOf, List.append_assoc]
    exact (hitem.offers _ closed hbehind).returning fun value hvalue => .cons hvalue .nil
  have hlist : Offers free (separatedBy (Reader.sign ",") reader)
      (of (charsOf chars (item :: items) ++ c :: rest)) (charsOf chars (item :: items)).length
      (List.Forall₂ means · (item :: items)) (Ongoing spelling) := by
    refine @Offers.list free _ _ chars items spelling c _
      (fun items values => List.Forall₂ means values items) _ _ item rest bracket
      (fun _ _ => fails_bind)
      (fun other hother => (hitems other (.tail _ hother)).opens) ?_ hfirst ascendsAt_bind
      hitem.ne_nil (shows_of _)
    intro other hother done values behind hvalues closed hne
    have hfaces : (of (',' :: (chars other ++ behind))).Faces 0 (',' :: (chars other ++ behind)) :=
      .of_firm rfl
    have hcomma : Settles free (Reader.sign ",") (of (',' :: (chars other ++ behind))) (0 + 1)
        fun _ => True := settles_sign hfaces rfl rfl
    rw [← Nat.zero_add 1]
    refine hcomma.andThen fun _ _ => ?_
    rw [hfaces.advance (by decide)]
    exact ((hitems other (.tail _ hother)).offers behind closed hne).returning fun value hvalue =>
      List.rel_append hvalues (.cons hvalue .nil)
  change Offers free _ _ ((charsOf chars (item :: items)).length + 0) _ _
  refine hlist.bindInto ?_ fun values hvalues => ?_
  · -- behind a dead end there may be a comma, and still no bracket
    intro values place ongoing reading hreading
    obtain ⟨before, hbefore, hused, _⟩ := exists_of_reads_map hreading
    rw [hused]
    exact ongoing.fails_behind hbefore
  · rw [hend]
    have hcomma : Settles free (optional (Reader.sign ",")) (of (c :: rest)) 0 fun _ => True :=
      (Offers.missing ((starts_sign rfl).map _ _ _ (bracket.faces rest)
        (bracket.finished rest).barred_comma)).imp fun _ _ => trivial
    have hlast : Settles free
        (do
          let _ ← optional (Reader.sign ",")
          return values)
        (of (c :: rest)) 0 (List.Forall₂ means · (item :: items)) :=
      hcomma.returning fun _ _ => hvalues
    exact hlast.weaken (bracket.not_fails rest)

theorem fails_commaList {place : Place} (h : Fails reader place) :
    Fails (commaList reader) place :=
  fails_bind (fails_iterate (fails_bind h))

/-- A list that may be missing is read if there are items. -/
theorem Offers.orNothing {β : Type} {list : Reader β} {kind : β → Prop} {none : β}
    {rest : List Char} (bracket : Bracket spelling c)
    (hopens : ∀ item ∈ items, ∀ rest, Fails (Reader.sign spelling) (of (chars item ++ rest)))
    (hsome : items ≠ [] → Offers free list (of (charsOf chars items ++ c :: rest))
      (charsOf chars items).length kind (Fails (Reader.sign spelling)))
    (hmissing : Fails list (of (c :: rest))) (hnone : items = [] → kind none) :
    Offers free (Reader.oneOf [list, nothing none]) (of (charsOf chars items ++ c :: rest))
      (charsOf chars items).length kind (Fails (Reader.sign spelling)) := by
  cases items with
  | nil =>
      refine ((Offers.missing hmissing).imp ?_).weaken (bracket.not_fails rest)
      rintro value rfl
      exact hnone rfl
  | cons item items =>
      refine (hsome (List.cons_ne_nil _ _)).oneOf (List.mem_cons_self ..) ?_
      intro other hother
      simp only [List.mem_cons, List.not_mem_nil, or_false] at hother
      rcases hother with rfl | rfl
      · exact Or.inl rfl
      · refine Or.inr fun reading hreading => ?_
        rw [reads_nothing.mp hreading, advance_zero, charsOf, List.append_assoc]
        exact hopens item (List.mem_cons_self ..) _

end CommaList

end EditableMarkup.Grammar.Reader
