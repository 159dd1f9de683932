import EditableMarkup.Proofs.Number.Exact
import EditableMarkup.Proofs.Tree.Alike
import EditableMarkup.Proofs.Tree.Navigate
import Mathlib.Data.List.Forall2

/-!
# Sameness of trees

Sameness of structure is an equivalence of trees in which no key stands twice
and no number is undefined.  Entries are compared by their keys: what one side
says of a key, the other side says too, and as both have as many keys, this can
be read from either side.
-/

namespace EditableMarkup

/-! ## Induction on the values in a mapping -/

/-- What holds of a mapping as soon as it holds of the values in it, and of all other values, holds
of every value. -/
@[elab_as_elim]
theorem Value.induction {motive : Value → Prop} (string : ∀ text, motive (.string text))
    (number : ∀ value, motive (.number value)) (boolean : ∀ value, motive (.boolean value))
    (mapping : ∀ entries : List (String × Value), (∀ entry ∈ entries, motive entry.2) →
      motive (.mapping entries))
    (expression : ∀ source, motive (.expression source)) : (value : Value) → motive value
  | .string text => string text
  | .number value => number value
  | .boolean value => boolean value
  | .expression source => expression source
  | .mapping entries =>
    mapping entries fun entry _ =>
      Value.induction string number boolean mapping expression entry.2
termination_by value => sizeOf value
decreasing_by
  rename_i hentry
  have hsize := List.sizeOf_lt_of_mem hentry
  obtain ⟨key, value⟩ := entry
  simp only [Prod.mk.sizeOf_spec, Value.mapping.sizeOf_spec] at hsize ⊢
  omega

/-! ## Entries by their keys -/

namespace Entries

variable {α β γ : Type} {R : α → β → Prop} {S : β → γ → Prop}

theorem mem_of_find? {key : String} {entries : Entries α} {value : α}
    (h : entries.find? key = some value) : (key, value) ∈ entries := by
  induction entries with
  | nil => cases h
  | cons entry entries ih =>
      rw [find?] at h
      split at h
      · next hkey =>
          cases h
          rw [← hkey]
          exact List.mem_cons_self ..
      · exact List.mem_cons_of_mem _ (ih h)

theorem Distinct.value_eq {entries : Entries α} (h : entries.Distinct) {key : String} {a b : α}
    (ha : (key, a) ∈ entries) (hb : (key, b) ∈ entries) : a = b :=
  Option.some.inj ((find?_eq_some h ha).symm.trans (find?_eq_some h hb))

/-- There are as many entries on both sides, and each entry of the first side has a related one under
its key on the second side. -/
def Match (R : α → β → Prop) (a : Entries α) (b : Entries β) : Prop :=
  a.length = b.length ∧ ∀ entry ∈ a, ∃ other, (entry.1, other) ∈ b ∧ R entry.2 other

theorem Match.trans {T : α → γ → Prop} {a : Entries α} {b : Entries β} {c : Entries γ}
    (h : Match R a b) (h' : Match S b c)
    (htrans : ∀ x ∈ a, ∀ y ∈ b, ∀ z ∈ c, R x.2 y.2 → S y.2 z.2 → T x.2 z.2) : Match T a c := by
  refine ⟨h.1.trans h'.1, fun entry hentry => ?_⟩
  obtain ⟨middle, hmiddle, hfirst⟩ := h.2 entry hentry
  obtain ⟨other, hother, hsecond⟩ := h'.2 _ hmiddle
  exact ⟨other, hother, htrans entry hentry _ hmiddle _ hother hfirst hsecond⟩

/-- What is computed of related entries under the same keys is the same up to its order. -/
theorem Match.map_perm {δ : Type} {a : Entries α} {b : Entries β} (h : Match R a b)
    (hdistinct : a.Distinct) {F : String × α → δ} {G : String × β → δ}
    (hsame : ∀ x ∈ a, ∀ y ∈ b, x.1 = y.1 → R x.2 y.2 → F x = G y) :
    (a.map F).Perm (b.map G) := by
  induction a generalizing b with
  | nil =>
      obtain rfl : b = [] := List.length_eq_zero_iff.mp h.1.symm
      exact .nil
  | cons entry rest ih =>
      obtain ⟨hnew, hrest⟩ := List.nodup_cons.mp hdistinct
      obtain ⟨other, hother, hrelated⟩ := h.2 entry (List.mem_cons_self ..)
      obtain ⟨front, back, rfl⟩ := List.append_of_mem hother
      -- the other entries have other keys, and so match without this one
      have hmatch : Match R rest (front ++ back) := by
        have hlength := h.1
        simp only [List.length_append, List.length_cons] at hlength
        refine ⟨by rw [List.length_append]; omega, fun entry' hentry' => ?_⟩
        obtain ⟨other', hother', hrelated'⟩ := h.2 entry' (List.mem_cons_of_mem _ hentry')
        refine ⟨other', ?_, hrelated'⟩
        rcases List.mem_append.mp hother' with hfront | hback
        · exact List.mem_append_left _ hfront
        · rcases List.mem_cons.mp hback with heq | hback
          · exact absurd (congrArg Prod.fst heq ▸ List.mem_map_of_mem hentry') hnew
          · exact List.mem_append_right _ hback
      have hfirst : F entry = G (entry.1, other) :=
        hsame entry (List.mem_cons_self ..) _ hother rfl hrelated
      have hbehind := ih hmatch hrest fun x hx y hy =>
        hsame x (List.mem_cons_of_mem _ hx) y
          ((List.mem_append.mp hy).elim (List.mem_append_left _)
            fun hback => List.mem_append_right _ (List.mem_cons_of_mem _ hback))
      rw [List.map_cons, hfirst]
      refine (hbehind.cons _).trans ?_
      rw [List.map_append, List.map_append, List.map_cons]
      exact List.perm_middle.symm

/-- Matching entries have the same keys, since there are as many of them. -/
theorem Match.keys_perm {a : Entries α} {b : Entries β} (h : Match R a b) (hdistinct : a.Distinct) :
    (a.map Prod.fst).Perm (b.map Prod.fst) :=
  h.map_perm hdistinct fun _ _ _ _ hkey _ => hkey

theorem Match.symm {T : β → α → Prop} {a : Entries α} {b : Entries β} (h : Match R a b)
    (ha : a.Distinct) (hb : b.Distinct) (hsymm : ∀ x ∈ a, ∀ y ∈ b, R x.2 y.2 → T y.2 x.2) :
    Match T b a := by
  refine ⟨h.1.symm, fun entry hentry => ?_⟩
  have hkey : entry.1 ∈ a.map Prod.fst :=
    (h.keys_perm ha).mem_iff.mpr (List.mem_map_of_mem hentry)
  obtain ⟨found, hfound, heq⟩ := List.mem_map.mp hkey
  obtain ⟨other, hother, hrelated⟩ := h.2 found hfound
  have hsame : other = entry.2 := hb.value_eq hother (heq ▸ hentry)
  refine ⟨found.2, heq ▸ hfound, hsymm found hfound entry hentry ?_⟩
  rwa [hsame] at hrelated

end Entries

/-! ## Sameness of values -/

theorem Value.sameEntries_iff {a b : Entries Value} :
    Value.sameEntries a b = true ↔
      ∀ entry ∈ a, ∃ other, b.find? entry.1 = some other ∧ entry.2.same other = true := by
  induction a with
  | nil => exact iff_of_true rfl nofun
  | cons entry rest ih =>
      rw [Value.sameEntries, Bool.and_eq_true, ih, List.forall_mem_cons]
      refine and_congr_left fun _ => ?_
      cases b.find? entry.1 <;> simp

/-- Attributes are the same if they match in their keys. -/
theorem sameAttributes_iff {a b : Entries Value} (h : b.Distinct) :
    sameAttributes a b = true ↔ Entries.Match (fun v w => v.same w = true) a b := by
  rw [sameAttributes, Bool.and_eq_true, beq_iff_eq, Value.sameEntries_iff]
  refine and_congr_right fun _ => forall₂_congr fun entry _ => exists_congr fun other => ?_
  exact and_congr_left fun _ => ⟨Entries.mem_of_find?, Entries.find?_eq_some h⟩

/-- Two values of one kind that agree, mappings in all their keys. -/
inductive Value.Agrees : Value → Value → Prop
  | string (text : String) : Agrees (.string text) (.string text)
  | number {a b : Number} (h : a.sameValue b = true) : Agrees (.number a) (.number b)
  | boolean (value : Bool) : Agrees (.boolean value) (.boolean value)
  | mapping {a b : Entries Value} (h : sameAttributes a b = true) : Agrees (.mapping a) (.mapping b)
  | expression (source : String) : Agrees (.expression source) (.expression source)

theorem Value.same_iff {a b : Value} : a.same b = true ↔ a.Agrees b := by
  constructor
  · intro h
    cases a <;> cases b <;> first | cases h | skip
    · exact eq_of_beq h ▸ .string _
    · exact .number h
    · exact eq_of_beq h ▸ .boolean _
    · rw [Value.same] at h
      exact .mapping h
    · exact eq_of_beq h ▸ .expression _
  · rintro (_ | h | _ | h | _)
    · exact beq_self_eq_true _
    · exact h
    · exact beq_self_eq_true _
    · rw [Value.same]
      exact h
    · exact beq_self_eq_true _

theorem Value.allProper_iff {entries : Entries Value} :
    Value.AllProper entries ↔ ∀ entry ∈ entries, entry.2.Proper := by
  induction entries with
  | nil => exact iff_of_true trivial nofun
  | cons entry rest ih => rw [Value.AllProper, ih, List.forall_mem_cons]

mutual

/-- No number in a value is undefined. -/
def Value.Definite : Value → Prop
  | .number value => value ≠ .real .notANumber
  | .mapping entries => Value.AllDefinite entries
  | .string _ => True
  | .boolean _ => True
  | .expression _ => True

/-- No number in the values of entries is undefined. -/
def Value.AllDefinite : List (String × Value) → Prop
  | [] => True
  | (_, value) :: rest => value.Definite ∧ Value.AllDefinite rest

end

theorem Value.allDefinite_iff {entries : Entries Value} :
    Value.AllDefinite entries ↔ ∀ entry ∈ entries, entry.2.Definite := by
  induction entries with
  | nil => exact iff_of_true trivial nofun
  | cons entry rest ih => rw [Value.AllDefinite, ih, List.forall_mem_cons]

theorem Value.Proper.entry {entries : Entries Value} (h : (Value.mapping entries).Proper)
    {entry : String × Value} (hentry : entry ∈ entries) : entry.2.Proper :=
  Value.allProper_iff.mp h.2 entry hentry

namespace Value

theorem same_refl {value : Value} (hproper : value.Proper) (hdefinite : value.Definite) :
    value.same value = true := by
  rw [same_iff]
  induction value using Value.induction with
  | string text => exact .string text
  | number value => exact .number (Number.sameValue_self hdefinite)
  | boolean value => exact .boolean value
  | expression source => exact .expression source
  | mapping entries ih =>
      refine .mapping ((sameAttributes_iff hproper.1).mpr ⟨rfl, fun entry hentry => ?_⟩)
      have hsame := ih entry hentry (hproper.entry hentry) (allDefinite_iff.mp hdefinite entry hentry)
      exact ⟨entry.2, hentry, same_iff.mpr hsame⟩

theorem same_symm {a b : Value} (ha : a.Proper) (hb : b.Proper) (h : a.same b = true) :
    b.same a = true := by
  rw [same_iff] at h ⊢
  induction a using Value.induction generalizing b with
  | string text => cases h with | string => exact .string text
  | number value => cases h with | number h => exact .number (Number.sameValue_symm h)
  | boolean value => cases h with | boolean => exact .boolean value
  | expression source => cases h with | expression => exact .expression source
  | mapping entries ih =>
      cases h with
      | mapping h =>
          have hmatch := (sameAttributes_iff hb.1).mp h
          refine .mapping ((sameAttributes_iff ha.1).mpr (hmatch.symm ha.1 hb.1 ?_))
          intro x hx y hy hsame
          exact same_iff.mpr (ih x hx (ha.entry hx) (hb.entry hy) (same_iff.mp hsame))

theorem same_trans {a b c : Value} (hb : b.Proper) (hc : c.Proper) (h : a.same b = true)
    (h' : b.same c = true) : a.same c = true := by
  rw [same_iff] at h h' ⊢
  induction a using Value.induction generalizing b c with
  | string text => cases h with | string => exact h'
  | number value =>
      cases h with
      | number h => cases h' with | number h' => exact .number (Number.sameValue_trans h h')
  | boolean value => cases h with | boolean => exact h'
  | expression source => cases h with | expression => exact h'
  | mapping entries ih =>
      cases h with
      | mapping h =>
          cases h' with
          | mapping h' =>
              have hmatch := (sameAttributes_iff hb.1).mp h
              have hmatch' := (sameAttributes_iff hc.1).mp h'
              refine .mapping ((sameAttributes_iff hc.1).mpr (hmatch.trans hmatch' ?_))
              intro x hx y hy z hz hxy hyz
              exact same_iff.mpr
                (ih x hx (hb.entry hy) (hc.entry hz) (same_iff.mp hxy) (same_iff.mp hyz))

end Value

/-! ## Sameness of trees -/

/-- Two children of one kind that agree. -/
inductive Content.Agrees : Content Node → Content Node → Prop
  | text (text : String) : Agrees (.text text) (.text text)
  | expression (source : String) : Agrees (.expression source) (.expression source)
  | node {a b : Node} (h : a.same b = true) : Agrees (.node a) (.node b)

theorem sameAttributes_eq (a b : Entries Value) :
    sameAttributes a b = Value.same (.mapping a) (.mapping b) := by
  rw [Value.same, sameAttributes]

/-! Lists that are related one by one, where the relations of their members are turned round or
chained. -/

section OneByOne

variable {α β γ : Type} {R : α → β → Prop} {S : β → γ → Prop}

theorem forall₂_swap {T : β → α → Prop} {a : List α} {b : List β} (h : List.Forall₂ R a b)
    (hswap : ∀ x ∈ a, ∀ y ∈ b, R x y → T y x) : List.Forall₂ T b a := by
  induction h with
  | nil => exact .nil
  | cons hfirst _ ih =>
      exact .cons (hswap _ (List.mem_cons_self ..) _ (List.mem_cons_self ..) hfirst)
        (ih fun x hx y hy => hswap x (List.mem_cons_of_mem _ hx) y (List.mem_cons_of_mem _ hy))

theorem forall₂_chain {T : α → γ → Prop} {a : List α} {b : List β} {c : List γ}
    (h : List.Forall₂ R a b) (h' : List.Forall₂ S b c)
    (hchain : ∀ x ∈ a, ∀ y ∈ b, ∀ z ∈ c, R x y → S y z → T x z) : List.Forall₂ T a c := by
  induction h generalizing c with
  | nil => cases h' with | nil => exact .nil
  | cons hfirst _ ih =>
      cases h' with
      | cons hfirst' hrest' =>
          refine .cons (hchain _ (List.mem_cons_self ..) _ (List.mem_cons_self ..) _
            (List.mem_cons_self ..) hfirst hfirst') (ih hrest' fun x hx y hy z hz => ?_)
          exact hchain x (List.mem_cons_of_mem _ hx) y (List.mem_cons_of_mem _ hy) z
            (List.mem_cons_of_mem _ hz)

end OneByOne

namespace Node

theorem sameChildren_iff {a b : List (Content Node)} :
    sameChildren a b = true ↔ List.Forall₂ Content.Agrees a b := by
  constructor
  · intro h
    induction a generalizing b with
    | nil => cases b with | nil => exact .nil | cons _ _ => cases h
    | cons content rest ih =>
        cases b with
        | nil => cases content <;> cases h
        | cons other others =>
            cases content <;> cases other <;> first | cases h | skip
            all_goals
              rw [sameChildren, Bool.and_eq_true] at h
              refine .cons ?_ (ih h.2)
            · exact eq_of_beq h.1 ▸ .text _
            · exact eq_of_beq h.1 ▸ .expression _
            · exact .node h.1
  · intro h
    induction h with
    | nil => rfl
    | cons hfirst _ ih =>
        cases hfirst with
        | text text => rw [sameChildren, ih, beq_self_eq_true, Bool.and_self]
        | expression source => rw [sameChildren, ih, beq_self_eq_true, Bool.and_self]
        | node hsame => rw [sameChildren, ih, hsame, Bool.and_self]

/-- Trees are the same if they agree in their tags, in all keys of their attributes, and child by
child. -/
theorem same_iff {a b : Node} :
    a.same b = true ↔ a.tag = b.tag ∧ sameAttributes a.attributes b.attributes = true ∧
      List.Forall₂ Content.Agrees a.children b.children := by
  obtain ⟨tag, attributes, children, id⟩ := a
  rw [same, Bool.and_eq_true, Bool.and_eq_true, beq_iff_eq, sameChildren_iff, and_assoc]

theorem childrenProper_iff {children : List (Content Node)} :
    ChildrenProper children ↔ ∀ child, .node child ∈ children → child.Proper := by
  induction children with
  | nil => exact iff_of_true trivial nofun
  | cons content rest ih => cases content <;> simp [ChildrenProper, ih]

theorem proper_iff {tree : Node} :
    tree.Proper ↔ (Value.mapping tree.attributes).Proper ∧
      ∀ child, .node child ∈ tree.children → child.Proper := by
  obtain ⟨tag, attributes, children, id⟩ := tree
  rw [Proper, Value.Proper, childrenProper_iff, and_assoc]

theorem Proper.at? {tree node : Node} (h : tree.Proper) {path : List Nat}
    (hnode : tree.at? path = some node) : node.Proper := by
  induction path generalizing tree with
  | nil =>
      cases hnode
      exact h
  | cons position path ih =>
      obtain ⟨child, hchild, hnode⟩ := at?_cons_eq_some_iff.mp hnode
      exact ih ((proper_iff.mp h).2 child (List.mem_of_getElem? hchild)) hnode

mutual

/-- No number in a tree is undefined. -/
def Definite : Node → Prop
  | ⟨_, attributes, children, _⟩ => Value.AllDefinite attributes ∧ ChildrenDefinite children

/-- No number in children is undefined. -/
def ChildrenDefinite : List (Content Node) → Prop
  | [] => True
  | .node node :: rest => node.Definite ∧ ChildrenDefinite rest
  | .text _ :: rest => ChildrenDefinite rest
  | .expression _ :: rest => ChildrenDefinite rest

end

theorem childrenDefinite_iff {children : List (Content Node)} :
    ChildrenDefinite children ↔ ∀ child, .node child ∈ children → child.Definite := by
  induction children with
  | nil => exact iff_of_true trivial nofun
  | cons content rest ih => cases content <;> simp [ChildrenDefinite, ih]

theorem definite_iff {tree : Node} :
    tree.Definite ↔ (Value.mapping tree.attributes).Definite ∧
      ∀ child, .node child ∈ tree.children → child.Definite := by
  obtain ⟨tag, attributes, children, id⟩ := tree
  rw [Definite, Value.Definite, childrenDefinite_iff]

theorem same_refl {tree : Node} (hproper : tree.Proper) (hdefinite : tree.Definite) :
    tree.same tree = true := by
  induction tree using Node.induction with
  | step tree ih =>
      obtain ⟨hvalues, hbelow⟩ := proper_iff.mp hproper
      obtain ⟨hnumbers, hnumbersBelow⟩ := definite_iff.mp hdefinite
      refine same_iff.mpr ⟨rfl, ?_, List.forall₂_same.mpr fun content hcontent => ?_⟩
      · rw [sameAttributes_eq]
        exact Value.same_refl hvalues hnumbers
      · cases content with
        | text text => exact .text text
        | expression source => exact .expression source
        | node child =>
            exact .node (ih child hcontent (hbelow child hcontent) (hnumbersBelow child hcontent))

theorem same_symm {a b : Node} (ha : a.Proper) (hb : b.Proper) (h : a.same b = true) :
    b.same a = true := by
  induction a using Node.induction generalizing b with
  | step a ih =>
      obtain ⟨hvalues, hbelow⟩ := proper_iff.mp ha
      obtain ⟨hvalues', hbelow'⟩ := proper_iff.mp hb
      obtain ⟨htag, hattributes, hchildren⟩ := same_iff.mp h
      rw [sameAttributes_eq] at hattributes
      refine same_iff.mpr ⟨htag.symm, ?_, forall₂_swap hchildren ?_⟩
      · rw [sameAttributes_eq]
        exact Value.same_symm hvalues hvalues' hattributes
      · intro content hcontent other hother hsame
        cases hsame with
        | text text => exact .text text
        | expression source => exact .expression source
        | node hsame =>
            exact .node (ih _ hcontent (hbelow _ hcontent) (hbelow' _ hother) hsame)

theorem same_trans {a b c : Node} (hb : b.Proper) (hc : c.Proper) (h : a.same b = true)
    (h' : b.same c = true) : a.same c = true := by
  induction a using Node.induction generalizing b c with
  | step a ih =>
      obtain ⟨hvalues, hbelow⟩ := proper_iff.mp hb
      obtain ⟨hvalues', hbelow'⟩ := proper_iff.mp hc
      obtain ⟨htag, hattributes, hchildren⟩ := same_iff.mp h
      obtain ⟨htag', hattributes', hchildren'⟩ := same_iff.mp h'
      rw [sameAttributes_eq] at hattributes hattributes'
      refine same_iff.mpr ⟨htag.trans htag', ?_, forall₂_chain hchildren hchildren' ?_⟩
      · rw [sameAttributes_eq]
        exact Value.same_trans hvalues hvalues' hattributes hattributes'
      · intro first hfirst second hsecond third hthird hsame hsame'
        cases hsame with
        | text text => exact hsame'
        | expression source => exact hsame'
        | node hsame =>
            cases hsame' with
            | node hsame' =>
                exact .node (ih _ hfirst (hbelow _ hsecond) (hbelow' _ hthird) hsame hsame')

/-- Trees that are alike to the same proper tree have the same structure. -/
theorem Alike.same_of_alike {a b c : Node} (hb : b.Proper) (h : a.Alike b) (h' : c.Alike b) :
    a.same c = true :=
  same_trans hb (h'.proper hb) (h.same hb)
    (same_symm (h'.proper hb) hb (h'.same hb))

end Node

end EditableMarkup
