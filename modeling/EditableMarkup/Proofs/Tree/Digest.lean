import EditableMarkup.Proofs.Tree.Same
import EditableMarkup.Tree.Digest
import Mathlib.Data.List.Induction

/-!
# Sets of trees

Trees that differ in identifiers and in the order of entries only are the same,
at any depth.  Trees that are the same have one digest, whatever the digests of
texts, tuples and collections are, and so a set keeps exactly one of them.
-/

namespace EditableMarkup

/-! ## Rearranged trees -/

mutual

/-- Two values that differ in the order of the entries of mappings only. -/
inductive Value.Rearranged : Value → Value → Prop
  | string (text : String) : Rearranged (.string text) (.string text)
  | number (value : Number) : Rearranged (.number value) (.number value)
  | boolean (value : Bool) : Rearranged (.boolean value) (.boolean value)
  | expression (source : String) : Rearranged (.expression source) (.expression source)
  | mapping {entries middle others : List (String × Value)}
      (inside : Value.AllRearranged entries middle) (perm : middle.Perm others) :
      Rearranged (.mapping entries) (.mapping others)

/-- The values under the same keys are rearranged. -/
inductive Value.AllRearranged : List (String × Value) → List (String × Value) → Prop
  | nil : AllRearranged [] []
  | cons (key : String) {value other : Value} {rest others : List (String × Value)}
      (first : Value.Rearranged value other) (behind : AllRearranged rest others) :
      AllRearranged ((key, value) :: rest) ((key, other) :: others)

end

mutual

/-- Two trees that differ in their identifiers and in the order of attributes and entries only. -/
inductive Node.Rearranged : Node → Node → Prop
  | node (tag : Tag) {attributes middle others : List (String × Value)}
      {children below : List (Content Node)} (id id' : String)
      (values : Value.AllRearranged attributes middle) (perm : middle.Perm others)
      (inside : Node.AllRearranged children below) :
      Rearranged ⟨tag, attributes, children, id⟩ ⟨tag, others, below, id'⟩

/-- The nodes among children are rearranged. -/
inductive Node.AllRearranged : List (Content Node) → List (Content Node) → Prop
  | nil : AllRearranged [] []
  | text (text : String) {rest others : List (Content Node)} (behind : AllRearranged rest others) :
      AllRearranged (.text text :: rest) (.text text :: others)
  | expression (source : String) {rest others : List (Content Node)}
      (behind : AllRearranged rest others) :
      AllRearranged (.expression source :: rest) (.expression source :: others)
  | node {child other : Node} {rest others : List (Content Node)}
      (first : Node.Rearranged child other) (behind : AllRearranged rest others) :
      AllRearranged (.node child :: rest) (.node other :: others)

end

theorem Entries.Match.perm_right {α β : Type} {R : α → β → Prop} {a : Entries α}
    {b c : Entries β} (h : Match R a b) (hperm : b.Perm c) : Match R a c := by
  refine ⟨h.1.trans hperm.length_eq, fun entry hentry => ?_⟩
  obtain ⟨other, hother, hrelated⟩ := h.2 entry hentry
  exact ⟨other, hperm.mem_iff.mp hother, hrelated⟩

mutual

theorem Value.Rearranged.same : {a b : Value} → a.Rearranged b → a.Definite → b.Proper →
    a.same b = true
  | _, _, .string text, _, _ => Value.same_iff.mpr (.string text)
  | _, _, .number value, hdefinite, _ =>
    Value.same_iff.mpr (.number (Number.sameValue_self hdefinite))
  | _, _, .boolean value, _, _ => Value.same_iff.mpr (.boolean value)
  | _, _, .expression source, _, _ => Value.same_iff.mpr (.expression source)
  | _, _, .mapping inside perm, hdefinite, hproper => by
    have hmatch := inside.match (Value.allDefinite_iff.mp hdefinite) fun entry hentry =>
      hproper.entry (perm.mem_iff.mp hentry)
    have hsame := (sameAttributes_iff hproper.1).mpr (hmatch.perm_right perm)
    exact Value.same_iff.mpr (.mapping hsame)

/-- Rearranged values match key by key. -/
theorem Value.AllRearranged.match : {a b : List (String × Value)} → Value.AllRearranged a b →
    (∀ entry ∈ a, entry.2.Definite) → (∀ entry ∈ b, entry.2.Proper) →
    Entries.Match (fun v w => v.same w = true) a b
  | _, _, .nil, _, _ => ⟨rfl, nofun⟩
  | _, _, .cons key first behind, hdefinite, hproper => by
    have hfirst := first.same (hdefinite _ (List.mem_cons_self ..)) (hproper _ (List.mem_cons_self ..))
    have hbehind := behind.match (fun entry hentry => hdefinite entry (List.mem_cons_of_mem _ hentry))
      fun entry hentry => hproper entry (List.mem_cons_of_mem _ hentry)
    refine ⟨congrArg (· + 1) hbehind.1, List.forall_mem_cons.mpr ⟨?_, fun entry hentry => ?_⟩⟩
    · exact ⟨_, List.mem_cons_self .., hfirst⟩
    · obtain ⟨other, hother, hsame⟩ := hbehind.2 entry hentry
      exact ⟨other, List.mem_cons_of_mem _ hother, hsame⟩

end

mutual

/-- Rearranged trees are the same. -/
theorem Node.Rearranged.same : {a b : Node} → a.Rearranged b → a.Definite → b.Proper →
    a.same b = true
  | _, _, .node tag id id' values perm inside, hdefinite, hproper => by
    obtain ⟨hvalues, hbelow⟩ := Node.proper_iff.mp hproper
    obtain ⟨hnumbers, hnumbersBelow⟩ := Node.definite_iff.mp hdefinite
    have hmatch := values.match (Value.allDefinite_iff.mp hnumbers) fun entry hentry =>
      hvalues.entry (perm.mem_iff.mp hentry)
    exact Node.same_iff.mpr ⟨rfl, (sameAttributes_iff hvalues.1).mpr (hmatch.perm_right perm),
      inside.agree hnumbersBelow hbelow⟩

theorem Node.AllRearranged.agree : {a b : List (Content Node)} → Node.AllRearranged a b →
    (∀ child, .node child ∈ a → child.Definite) → (∀ child, .node child ∈ b → child.Proper) →
    List.Forall₂ Content.Agrees a b
  | _, _, .nil, _, _ => .nil
  | _, _, .text text behind, hdefinite, hproper =>
    .cons (.text text) (behind.agree (fun child hchild => hdefinite child (List.mem_cons_of_mem _ hchild))
      fun child hchild => hproper child (List.mem_cons_of_mem _ hchild))
  | _, _, .expression source behind, hdefinite, hproper =>
    .cons (.expression source)
      (behind.agree (fun child hchild => hdefinite child (List.mem_cons_of_mem _ hchild))
        fun child hchild => hproper child (List.mem_cons_of_mem _ hchild))
  | _, _, .node first behind, hdefinite, hproper =>
    .cons (.node (first.same (hdefinite _ (List.mem_cons_self ..)) (hproper _ (List.mem_cons_self ..))))
      (behind.agree (fun child hchild => hdefinite child (List.mem_cons_of_mem _ hchild))
        fun child hchild => hproper child (List.mem_cons_of_mem _ hchild))

end

/-! ## Digests -/

section Digests

variable (hashing : Hashing)

/-- The digest of a number depends on its value only. -/
theorem Number.digest_eq {a b : Number} (h : a.sameValue b = true) :
    a.digest hashing = b.digest hashing := by
  cases ha : a.units? with
  | some x =>
      cases hb : b.units? with
      | some y =>
          have hunits : x = y := eq_of_beq ((sameValue_of_units? ha hb).symm.trans h)
          simp only [digest, ha, hb, hunits]
      | none =>
          rw [sameValue_of_units?_eq_none (by simp [ha, hb])] at h
          cases h
  | none =>
      rcases sameValue_iff.mp h with ⟨value, hvalue, _⟩ | ⟨negative, rfl, rfl⟩
      · rw [value?_eq, ha] at hvalue
        cases hvalue
      · rfl

theorem Value.entryDigests_eq_map (entries : Entries Value) :
    Value.entryDigests hashing entries = entries.map fun entry =>
      hashing.tuple [hashing.text entry.1, entry.2.digest hashing] := by
  induction entries with
  | nil => rfl
  | cons entry rest ih => rw [Value.entryDigests, ih, List.map_cons]

/-- Matching entries have the same digests, in some order. -/
theorem Entries.Match.digest_eq {a b : Entries Value}
    (h : Match (fun v w => v.same w = true) a b) (hdistinct : a.Distinct)
    (hsame : ∀ x ∈ a, ∀ y ∈ b, x.2.same y.2 = true → x.2.digest hashing = y.2.digest hashing) :
    hashing.collection (Value.entryDigests hashing a) =
      hashing.collection (Value.entryDigests hashing b) := by
  rw [Value.entryDigests_eq_map, Value.entryDigests_eq_map]
  refine hashing.collection_perm (h.map_perm hdistinct fun x hx y hy hkey hvalue => ?_)
  rw [hkey, hsame x hx y hy hvalue]

/-- Values that are the same have one digest. -/
theorem Value.digest_eq {a b : Value} (ha : a.Proper) (hb : b.Proper) (h : a.same b = true) :
    a.digest hashing = b.digest hashing := by
  induction a using Value.induction generalizing b with
  | string text => cases Value.same_iff.mp h with | string => rfl
  | number value =>
      cases Value.same_iff.mp h with
      | number h => rw [Value.digest, Value.digest, Number.digest_eq hashing h]
  | boolean value => cases Value.same_iff.mp h with | boolean => rfl
  | expression source => cases Value.same_iff.mp h with | expression => rfl
  | mapping entries ih =>
      cases Value.same_iff.mp h with
      | mapping h =>
          have hmatch := (sameAttributes_iff hb.1).mp h
          rw [Value.digest, Value.digest]
          exact hmatch.digest_eq hashing ha.1 fun x hx y hy hsame =>
            ih x hx (ha.entry hx) (hb.entry hy) hsame

namespace Node

theorem childDigests_eq {a b : List (Content Node)} (h : List.Forall₂ Content.Agrees a b)
    (hsame : ∀ child other, .node child ∈ a → .node other ∈ b → child.same other = true →
      child.digest hashing = other.digest hashing) :
    childDigests hashing a = childDigests hashing b := by
  induction h with
  | nil => rfl
  | cons hfirst _ ih =>
      have hbehind := ih fun child other hchild hother =>
        hsame child other (List.mem_cons_of_mem _ hchild) (List.mem_cons_of_mem _ hother)
      cases hfirst with
      | text text => rw [childDigests, childDigests, hbehind]
      | expression source => rw [childDigests, childDigests, hbehind]
      | node h =>
          rw [childDigests, childDigests, hbehind,
            hsame _ _ (List.mem_cons_self ..) (List.mem_cons_self ..) h]

/-- Trees that are the same have one digest. -/
theorem digest_eq {a b : Node} (ha : a.Proper) (hb : b.Proper) (h : a.same b = true) :
    a.digest hashing = b.digest hashing := by
  induction a using Node.induction generalizing b with
  | step a ih =>
      obtain ⟨hvalues, hbelow⟩ := proper_iff.mp ha
      obtain ⟨hvalues', hbelow'⟩ := proper_iff.mp hb
      obtain ⟨htag, hattributes, hchildren⟩ := same_iff.mp h
      have hmatch := (sameAttributes_iff hvalues'.1).mp hattributes
      have hcollection := hmatch.digest_eq hashing hvalues.1 fun x hx y hy hsame =>
        Value.digest_eq hashing (hvalues.entry hx) (hvalues'.entry hy) hsame
      have hinside := childDigests_eq hashing hchildren fun child other hchild hother hsame =>
        ih child hchild (hbelow child hchild) (hbelow' other hother) hsame
      obtain ⟨tag, attributes, children, id⟩ := a
      obtain ⟨tag', attributes', children', id'⟩ := b
      dsimp only at htag hcollection hinside
      rw [digest, digest, htag, hcollection, hinside]

/-! ## Sets -/

/-- A tree in which no key stands twice and no number is undefined. -/
abbrev Comparable := { tree : Node // tree.Proper ∧ tree.Definite }

/-- Sameness of comparable trees. -/
def Comparable.Same (a b : Comparable) : Prop :=
  a.1.same b.1 = true

theorem Comparable.same_equivalence : Equivalence Comparable.Same where
  refl a := same_refl a.2.1 a.2.2
  symm {a b} h := same_symm a.2.1 b.2.1 h
  trans {_ b c} h h' := same_trans b.2.1 c.2.1 h h'

/-- A set holds a tree exactly if one of its members is the same. -/
theorem Comparable.isIn_iff {set : List Comparable} {tree : Comparable} :
    tree.1.isIn hashing (set.map Subtype.val) = true ↔ ∃ member ∈ set, member.Same tree := by
  rw [isIn, List.any_map, List.any_eq_true]
  refine exists_congr fun member => and_congr_right fun _ => ?_
  rw [Function.comp_apply, Bool.and_eq_true, beq_iff_eq]
  exact ⟨And.right, fun h => ⟨digest_eq hashing member.2.1 tree.2.1 h, h⟩⟩

/-- A set of trees: of those that are the same it holds exactly one. -/
structure Comparable.Represents (set trees : List Comparable) : Prop where
  distinct : set.Pairwise fun a b => ¬a.Same b
  subset : set ⊆ trees
  covers : ∀ tree ∈ trees, ∃ member ∈ set, member.Same tree

theorem Comparable.Represents.add {set trees : List Comparable} (h : Represents set trees)
    (tree : Comparable) :
    ∃ more : List Comparable, addTo hashing (set.map Subtype.val) tree.1 = more.map Subtype.val ∧
      Represents more (trees ++ [tree]) := by
  rw [addTo]
  split
  · next hin =>
      refine ⟨set, rfl, h.distinct, fun member hmember => List.mem_append_left _ (h.subset hmember),
        fun other hother => ?_⟩
      rcases List.mem_append.mp hother with hother | hother
      · exact h.covers other hother
      · rw [List.mem_singleton.mp hother]
        exact (isIn_iff hashing).mp hin
  · next hnew =>
      refine ⟨set ++ [tree], by rw [List.map_append]; rfl, ?_, ?_, fun other hother => ?_⟩
      · refine List.pairwise_append.mpr ⟨h.distinct, List.pairwise_singleton .., fun a ha b hb => ?_⟩
        rw [List.mem_singleton.mp hb]
        exact fun hsame => hnew ((isIn_iff hashing).mpr ⟨a, ha, hsame⟩)
      · exact List.append_subset.mpr ⟨fun member hmember => List.mem_append_left _ (h.subset hmember),
          List.subset_append_right ..⟩
      · rcases List.mem_append.mp hother with hother | hother
        · obtain ⟨member, hmember, hsame⟩ := h.covers other hother
          exact ⟨member, List.mem_append_left _ hmember, hsame⟩
        · rw [List.mem_singleton.mp hother]
          exact ⟨tree, List.mem_append_right _ (List.mem_singleton_self _),
            Comparable.same_equivalence.refl tree⟩

theorem Comparable.exists_setOf (trees : List Comparable) :
    ∃ set : List Comparable, setOf hashing (trees.map Subtype.val) = set.map Subtype.val ∧
      Represents set trees := by
  induction trees using List.reverseRecOn with
  | nil => exact ⟨[], rfl, .nil, List.Subset.refl [], nofun⟩
  | append_singleton trees tree ih =>
      obtain ⟨set, hset, hrepresents⟩ := ih
      obtain ⟨more, hmore, hrepresents⟩ := hrepresents.add hashing tree
      refine ⟨more, ?_, hrepresents⟩
      rw [List.map_append, setOf, List.foldl_append, ← setOf, hset]
      exact hmore

theorem Comparable.length_setOf_pair (a b : Comparable) :
    (setOf hashing [a.1, b.1]).length = if a.1.same b.1 then 1 else 2 := by
  have hin : b.1.isIn hashing [a.1] = true ↔ a.1.same b.1 = true := by
    have hmember : b.1.isIn hashing ([a].map Subtype.val) = true ↔ ∃ member ∈ [a], member.Same b :=
      isIn_iff hashing
    simpa [Comparable.Same] using hmember
  have hfirst : addTo hashing [] a.1 = [a.1] := rfl
  rw [setOf, List.foldl_cons, List.foldl_cons, List.foldl_nil, hfirst, addTo]
  by_cases hsame : a.1.same b.1 = true
  · rw [if_pos (hin.mpr hsame), if_pos hsame]
    rfl
  · rw [if_neg (mt hin.mp hsame), if_neg hsame]
    rfl

/-- Sameness is an equivalence of comparable trees that no rearranging changes. It holds exactly
between nodes with the same tag, children that agree one by one and attributes that match in their
keys, where only values of one kind agree, mappings again in their keys and numbers in their exact
values. A set of trees holds exactly one of those that are the same. -/
theorem Comparable.same_structural :
    Equivalence Comparable.Same ∧
      (∀ a a' b b' : Comparable, a.1.Rearranged a'.1 → b.1.Rearranged b'.1 →
        (a.Same b ↔ a'.Same b')) ∧
      (∀ a b : Node, a.same b = true ↔ a.tag = b.tag ∧
        sameAttributes a.attributes b.attributes = true ∧
        List.Forall₂ Content.Agrees a.children b.children) ∧
      (∀ v w : Value, v.same w = true ↔ v.Agrees w) ∧
      (∀ a b : Entries Value, b.Distinct →
        (sameAttributes a b = true ↔ Entries.Match (fun v w => v.same w = true) a b)) ∧
      (∀ m n : Number, m.sameValue n = true ↔
        (∃ value, m.value? = some value ∧ n.value? = some value) ∨
          ∃ negative, m = .real (.infinite negative) ∧ n = .real (.infinite negative)) ∧
      (∀ trees : List Comparable, ∃ set : List Comparable,
        setOf hashing (trees.map Subtype.val) = set.map Subtype.val ∧ Represents set trees) ∧
      ∀ a b : Comparable, (setOf hashing [a.1, b.1]).length = if a.1.same b.1 then 1 else 2 := by
  refine ⟨same_equivalence, fun a a' b b' ha hb => ?_, fun _ _ => same_iff,
    fun _ _ => Value.same_iff, fun _ _ => sameAttributes_iff, fun _ _ => Number.sameValue_iff,
    exists_setOf hashing, length_setOf_pair hashing⟩
  have hsame : a.Same a' := ha.same a.2.2 a'.2.1
  have hsame' : b.Same b' := hb.same b.2.2 b'.2.1
  exact ⟨fun h => same_equivalence.trans (same_equivalence.symm hsame) (same_equivalence.trans h hsame'),
    fun h => same_equivalence.trans hsame
      (same_equivalence.trans h (same_equivalence.symm hsame'))⟩

end Node

end Digests

/-! ## Samples -/

namespace Node.Comparable

/-- Digests by sums. -/
def sums : Hashing where
  text text := text.length
  tuple parts := parts.foldl (fun digest part => 31 * digest + part) 7
  collection := List.sum
  notANumber := 0
  collection_perm := List.Perm.sum_eq

/-- The double `2 ^ shift`. -/
def powerOfTwo (shift : Fin 64) : Binary64 :=
  .finite false
    { mantissa := 2 ^ 52, exponent := 1022 + shift, mantissa_lt := by decide,
      exponent_le := by omega, normal := .inr (Nat.le_refl _) }

/-- An element with a number, a mapping, a text and a node below. -/
def sample (number : Number) (reverse : Bool) (below : Tag) (id : String) : Node :=
  let entries : Entries Value := [("gap", .number (.integer 1)), ("color", .string "red")]
  let entries := if reverse then entries.reverse else entries
  let attributes : Entries Value := [("size", .number number), ("style", .mapping entries)]
  let attributes := if reverse then attributes.reverse else attributes
  ⟨.named "p", attributes, [.text "A", .node ⟨below, [], [], id⟩], id⟩

theorem comparable_sample {number : Number} (h : number ≠ .real .notANumber) (reverse : Bool)
    (below : Tag) (id : String) :
    (sample number reverse below id).Proper ∧ (sample number reverse below id).Definite := by
  cases reverse <;>
    simp [sample, Node.Proper, Node.ChildrenProper, Value.AllProper, Value.Proper, Entries.Distinct,
      Node.Definite, Node.ChildrenDefinite, Value.AllDefinite, Value.Definite, h]

/-- Another order, other identifiers and `2.0` for `2` make no second element of a set; a fragment
in place of an element `Fragment` does, and so does a double that is one less than an integer. -/
theorem same_structural_samples :
    (setOf sums [sample (.integer 2) false .fragment "a",
        sample (.real (powerOfTwo 1)) true .fragment "b"]).length = 1 ∧
      (setOf sums [sample (.integer 2) false .fragment "a",
        sample (.integer 2) false (.named "Fragment") "a"]).length = 2 ∧
      (setOf sums [sample (.integer (2 ^ 53 + 1)) false .fragment "a",
        sample (.real (powerOfTwo 53)) false .fragment "a"]).length = 2 := by
  obtain ⟨_, _, _, _, _, _, _, hpair⟩ := same_structural sums
  have hinteger (value : Int) (below : Tag) :=
    comparable_sample (show Number.integer value ≠ .real .notANumber from nofun) false below "a"
  have hdouble (shift : Fin 64) (reverse : Bool) (id : String) :=
    comparable_sample (show Number.real (powerOfTwo shift) ≠ .real .notANumber from nofun) reverse
      .fragment id
  have hsame : (sample (.integer 2) false .fragment "a").same
      (sample (.real (powerOfTwo 1)) true .fragment "b") = true := by decide +kernel
  have htag : ¬(sample (.integer 2) false .fragment "a").same
      (sample (.integer 2) false (.named "Fragment") "a") = true := by decide +kernel
  have hvalue : ¬(sample (.integer (2 ^ 53 + 1)) false .fragment "a").same
      (sample (.real (powerOfTwo 53)) false .fragment "a") = true := by decide +kernel
  exact ⟨(hpair ⟨_, hinteger 2 .fragment⟩ ⟨_, hdouble 1 true "b"⟩).trans (if_pos hsame),
    (hpair ⟨_, hinteger 2 .fragment⟩ ⟨_, hinteger 2 (.named "Fragment")⟩).trans (if_neg htag),
    (hpair ⟨_, hinteger (2 ^ 53 + 1) .fragment⟩ ⟨_, hdouble 53 false "a"⟩).trans (if_neg hvalue)⟩

end Node.Comparable

end EditableMarkup
