import EditableMarkup.Proofs.Source.Calls
import EditableMarkup.Proofs.Source.Whole

/-!
# Several roots

The texts of several trees, one below the other, are no single piece of markup.
They are read inside a fragment, unless a word in them hints at a component:
then they are read as a module, of which the first markup is kept.
-/

namespace EditableMarkup.Source

open EditableMarkup.Grammar

variable {free : Prop}

theorem forall₂_marked {nodes : List Node} (hlegible : ∀ node ∈ nodes, node.Legible free)
    (indent : Int) :
    List.Forall₂ (Marked free) (nodes.map fun node => (node.print indent).toList) nodes := by
  induction nodes with
  | nil => exact .nil
  | cons node nodes ih =>
      exact .cons (marked_print (hlegible node (List.mem_cons_self ..)) indent)
        (ih fun other hother => hlegible other (List.mem_cons_of_mem _ hother))

theorem mapM_serialize {nodes : List Node} (hlegible : ∀ node ∈ nodes, node.Legible free)
    (indent : Int) : nodes.mapM (fun node => node.serialize indent) =
      .ok (nodes.map fun node => node.print indent) := by
  induction nodes with
  | nil => rfl
  | cons node nodes ih =>
      have hnode := (hlegible node (List.mem_cons_self ..)).serialize_eq indent
      rw [List.mapM_cons, hnode, ih fun other hother => hlegible other (List.mem_cons_of_mem _ hother)]
      rfl

theorem heightAll_le {nodes : List Node} {levels : Nat} (h : ∀ node ∈ nodes, node.height ≤ levels) :
    Node.heightAll (nodes.map Content.node) ≤ levels := by
  induction nodes with
  | nil => exact Nat.zero_le _
  | cons node nodes ih =>
      have hnode := h node (List.mem_cons_self ..)
      have hrest := ih fun other hother => h other (List.mem_cons_of_mem _ hother)
      rw [List.map_cons, Node.heightAll]
      exact Nat.max_le.mpr ⟨hnode, hrest⟩

/-- Lines of which the first one stands without a line end. -/
theorem toList_intercalate_cons (first : String) (rest : List String) :
    ("\n".intercalate (first :: rest)).toList =
      first.toList ++ (rest.map String.toList).flatMap fun line => '\n' :: line := by
  have hlines := toList_intercalate_lines first rest
  rw [lineChars, List.flatMap_cons, List.cons_append] at hlines
  rw [(List.cons.inj hlines).2, List.flatMap_map]

/-- The last one of several marked texts closes a tag. -/
theorem exists_closes {first : List Char} {node : Node} (marked : Marked free first node)
    {fronts : List (List Char)} {nodes : List Node} (h : List.Forall₂ (Marked free) fronts nodes) :
    ∃ before, first ++ fronts.flatMap (fun front => '\n' :: front) = before ++ ['>'] := by
  induction h generalizing first node with
  | nil =>
      obtain ⟨before, hcloses⟩ := marked.closes
      exact ⟨before, by rw [List.flatMap_nil, List.append_nil, hcloses]⟩
  | @cons second other fronts nodes hsecond hrest ih =>
      obtain ⟨before, hcloses⟩ := ih hsecond
      refine ⟨first ++ '\n' :: before, ?_⟩
      rw [List.flatMap_cons, List.cons_append, hcloses, List.append_assoc, List.cons_append]

/-- Whether a source is parsed as a tree that passes a test. -/
def isParsed (text : String) (test : Node → Bool) : Bool :=
  match parse text ⟨0⟩ with
  | .ok (found, _) => test found
  | .error _ => false

theorem exists_of_isParsed {text : String} {test : Node → Bool} {result : Bool}
    (h : isParsed text (fun found => test found == result) = true) :
    ∃ found after, parse text ⟨0⟩ = .ok (found, after) ∧ test found = result := by
  unfold isParsed at h
  split at h
  · next found after hparse => exact ⟨found, after, hparse, beq_iff_eq.mp h⟩
  · cases h

/-- Trees whose texts hold no hint are parsed as the children of one fragment. -/
theorem parseWithin_roots {nodes : List Node} (hseveral : 2 ≤ nodes.length)
    (hprintable : ∀ node ∈ nodes, node.Printable) (indent : Int) {levels : Nat}
    (hheight : ∀ node ∈ nodes, node.height < levels) (id : String) (supply : Supply) :
    ∃ texts, nodes.mapM (fun node => node.serialize indent) = .ok texts ∧
      (hasHint false ("\n".intercalate texts).toList = false →
        ∃ found after, parseWithin levels ("\n".intercalate texts) supply = .ok (found, after) ∧
          found.same (Node.withoutOff ⟨.fragment, [], nodes.map .node, id⟩) = true) := by
  have hlegible : ∀ node ∈ nodes, node.Legible True := fun node hnode =>
    (hprintable node hnode).legible
  refine ⟨_, mapM_serialize hlegible indent, fun hhint => ?_⟩
  have hmarked := forall₂_marked hlegible indent
  have hfragment : Node.Legible True ⟨.fragment, [], nodes.map .node, id⟩ :=
    ⟨trivial, ⟨List.nodup_nil, by simp, trivial, fun _ => rfl⟩,
      Node.childrenPrintable_of_nodes hlegible⟩
  have hlevels : Node.height ⟨.fragment, [], nodes.map .node, id⟩ ≤ levels := by
    have hall := heightAll_le fun node hnode => Nat.le_sub_one_of_lt (hheight node hnode)
    obtain ⟨node, hnode⟩ := List.exists_mem_of_length_pos (by omega : 0 < nodes.length)
    have hpos := hheight node hnode
    rw [Node.height]
    omega
  obtain _ | ⟨first, _ | ⟨second, others⟩⟩ := nodes
  · simp at hseveral
  · simp at hseveral
  · obtain ⟨hfirst, hsecond, hrest⟩ : _ ∧ _ ∧ _ := by
      simpa only [List.map_cons, List.forall₂_cons] using hmarked
    have hsource : ("\n".intercalate ((first :: second :: others).map fun node =>
        node.print indent)).toList = (first.print indent).toList ++
          ((second :: others).map fun node => (node.print indent).toList).flatMap
            fun front => '\n' :: front := by
      rw [List.map_cons, toList_intercalate_cons, List.map_map]
      rfl
    obtain ⟨c, more, hopens, _⟩ := hfirst.opens
    obtain ⟨before, hcloses⟩ := exists_closes hfirst (.cons hsecond hrest)
    have hhead : (first.print indent).toList = '<' :: c :: more := hopens
    have htrim : Text.trim ("\n".intercalate ((first :: second :: others).map fun node =>
        node.print indent)).toList = ("\n".intercalate ((first :: second :: others).map fun node =>
        node.print indent)).toList := by
      rw [hsource]
      exact trim_eq_of_brackets (by rw [hhead]; rfl) hcloses
    obtain ⟨found, after, hparse, halike⟩ :=
      parseMarkup_of_several hfirst hsecond hrest hfragment hlevels none supply
    refine ⟨found, after, ?_, halike.same hfragment.proper_withoutOff⟩
    rw [parseWithin, htrim, parseTrimmed, hhint, if_neg Bool.false_ne_true, hsource]
    exact hparse

/-- Two elements with a text each. -/
def twoRoots (first second : String) : List Node :=
  [⟨.named "a", [], [.text first], ""⟩, ⟨.named "b", [], [.text second], ""⟩]

theorem printable_twoRoots {first second : String} (hfirst : Text.isBlankText first = false)
    (hsecond : Text.isBlankText second = false) :
    ∀ node ∈ twoRoots first second, node.Printable := by
  intro node hnode
  simp only [twoRoots, List.mem_cons, List.not_mem_nil, or_false] at hnode
  rcases hnode with rfl | rfl
  · exact Node.printable_element (by decide) ⟨hfirst, trivial⟩
  · exact Node.printable_element (by decide) ⟨hsecond, trivial⟩

theorem parse_twoRoots :
    ∃ texts, (twoRoots "one" "two").mapM (fun node => node.serialize 2) = .ok texts ∧
      hasHint false ("\n".intercalate texts).toList = false ∧
      ∃ found after, parse ("\n".intercalate texts) ⟨0⟩ = .ok (found, after) ∧
        found.same (Node.withoutOff ⟨.fragment, [], (twoRoots "one" "two").map .node, ""⟩) =
          true := by
  obtain ⟨texts, htexts, hparse⟩ := @parseWithin_roots (twoRoots "one" "two") (by decide)
    (printable_twoRoots (by decide) (by decide)) 2 depthLimit (by decide) "" ⟨0⟩
  have hprinted : (twoRoots "one" "two").mapM (fun node => node.serialize 2) =
      .ok ["<a>one</a>", "<b>two</b>"] := by decide
  have hsame : texts = ["<a>one</a>", "<b>two</b>"] := by
    rw [hprinted] at htexts
    exact (Except.ok.inj htexts).symm
  subst hsame
  have hhint : hasHint false ("\n".intercalate ["<a>one</a>", "<b>two</b>"]).toList = false := by
    decide
  exact ⟨_, htexts, hhint, hparse hhint⟩

/-- A word in the text of a root that hints at a component makes the next root disappear. -/
theorem parse_hinted_roots :
    (∀ node ∈ twoRoots "class" "two", node.Printable) ∧
      (twoRoots "class" "two").mapM (fun node => node.serialize 2) =
        .ok ["<a>class</a>", "<b>two</b>"] ∧
      ∃ found after,
        parse ("\n".intercalate ["<a>class</a>", "<b>two</b>"]) ⟨0⟩ = .ok (found, after) ∧
        found.same ⟨.fragment, [], (twoRoots "class" "two").map .node, ""⟩ = false := by
  refine ⟨printable_twoRoots (by decide) (by decide), by decide, ?_⟩
  exact exists_of_isParsed (by decide +kernel)

end EditableMarkup.Source
