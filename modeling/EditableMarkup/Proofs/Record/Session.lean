import EditableMarkup.Proofs.Source.Minting
import EditableMarkup.Proofs.Tree.Labels
import EditableMarkup.Record.Session
import Mathlib.Data.List.Induction

/-!
# Identifiers over a session

Reconciling mixes the identifiers of any two trees, so that no tree by itself
shows why it repeats none.  The invariant speaks of all the trees that were ever
held together: an identifier is at one and the same path in all of them, and
was minted from the supply.  A command adds one tree at most, and that tree is
marked at each path as one before it, or with fresh identifiers only.
-/

namespace EditableMarkup

/-! ## Trees that share identifiers -/

/-- Trees whose identifiers were minted from a supply, each for one path in all of the trees. -/
structure Tied (trees : Node → Prop) (supply : Supply) : Prop where
  built : ∀ tree, trees tree → tree.Built
  minted : ∀ tree, trees tree → ∀ id ∈ tree.ids, ∃ n < supply.next, id = Supply.identifier n
  path_eq : ∀ a b, trees a → trees b → ∀ path other id, a.Marks path id → b.Marks other id →
    path = other

namespace Tied

variable {trees : Node → Prop} {supply after : Supply} {new : Node}

/-- No tree repeats an identifier. -/
theorem nodup (h : Tied trees supply) {tree : Node} (htree : trees tree) : tree.ids.Nodup :=
  Node.nodup_ids_iff.mpr fun path other a b ha hb hid =>
    h.path_eq tree tree htree htree path other b.id ⟨a, ha, hid⟩ ⟨b, hb, rfl⟩

theorem of_subset (h : Tied trees supply) {fewer : Node → Prop}
    (hfewer : ∀ tree, fewer tree → trees tree) : Tied fewer supply where
  built tree htree := h.built tree (hfewer tree htree)
  minted tree htree := h.minted tree (hfewer tree htree)
  path_eq a b ha hb := h.path_eq a b (hfewer a ha) (hfewer b hb)

/-- A tree that is marked at each path as one of the trees joins them. -/
theorem join_marked (h : Tied trees supply) (hbuilt : new.Built)
    (hmarks : ∀ path id, new.Marks path id → ∃ old, trees old ∧ old.Marks path id) :
    Tied (fun tree => trees tree ∨ tree = new) supply := by
  have hold {tree : Node} (htree : trees tree ∨ tree = new) {path : List Nat} {id : String}
      (hid : tree.Marks path id) : ∃ old, trees old ∧ old.Marks path id := by
    rcases htree with htree | rfl
    · exact ⟨tree, htree, hid⟩
    · exact hmarks path id hid
  constructor
  · rintro tree (htree | rfl)
    · exact h.built tree htree
    · exact hbuilt
  · intro tree htree id hid
    obtain ⟨path, hid⟩ := Node.mem_ids_iff_exists_marks.mp hid
    obtain ⟨old, hheld, hid⟩ := hold htree hid
    exact h.minted old hheld id (Node.mem_ids_iff_exists_marks.mpr ⟨path, hid⟩)
  · intro a b ha hb path other id hpath hother
    obtain ⟨old, hheld, hpath⟩ := hold ha hpath
    obtain ⟨old', hheld', hother⟩ := hold hb hother
    exact h.path_eq old old' hheld hheld' path other id hpath hother

/-- A tree with fresh identifiers joins the trees. -/
theorem join_minted (h : Tied trees supply) (hbuilt : new.Built)
    (hmints : Supply.Mints supply after new.ids) :
    Tied (fun tree => trees tree ∨ tree = new) after := by
  -- an identifier of an earlier tree has a number below those of the new tree
  have hfresh {old : Node} (hold : trees old) {path other : List Nat} {id : String}
      (hpath : old.Marks path id) (hother : new.Marks other id) : False := by
    obtain ⟨m, hm, rfl⟩ := h.minted old hold id (Node.mem_ids_iff_exists_marks.mpr ⟨path, hpath⟩)
    obtain ⟨n, hn, _, heq⟩ := hmints.minted _ (Node.mem_ids_iff_exists_marks.mpr ⟨other, hother⟩)
    have := Supply.identifier_inj heq
    omega
  constructor
  · rintro tree (htree | rfl)
    · exact h.built tree htree
    · exact hbuilt
  · rintro tree (htree | rfl) id hid
    · obtain ⟨n, hn, heq⟩ := h.minted tree htree id hid
      exact ⟨n, Nat.lt_of_lt_of_le hn hmints.le, heq⟩
    · obtain ⟨n, _, hn, heq⟩ := hmints.minted id hid
      exact ⟨n, hn, heq⟩
  · rintro a b (ha | rfl) (hb | rfl) path other id hpath hother
    · exact h.path_eq a b ha hb path other id hpath hother
    · exact (hfresh ha hpath hother).elim
    · exact (hfresh hb hother hpath).elim
    · obtain ⟨node, hnode, hid⟩ := hpath
      obtain ⟨node', hnode', hid'⟩ := hother
      exact Node.nodup_ids_iff.mp hmints.nodup hnode hnode' (hid.trans hid'.symm)

end Tied

/-! ## Trees that a command gives -/

/-- How a tree arises from trees, while identifiers are minted. -/
inductive Arises (trees : Node → Prop) (before : Supply) : Supply → Node → Prop
  | minted {after : Supply} {new : Node} (built : new.Built)
      (mints : Supply.Mints before after new.ids) : Arises trees before after new
  | inherited {old new : Node} (old_mem : trees old) (inherits : new.Inherits old) :
      Arises trees before before new
  | reconciled {previous current : Node} (previous_mem : trees previous)
      (current_mem : trees current) :
      Arises trees before before (previous.reconcile current)

/-- A tree that arises from some of the tied trees is tied to them. -/
theorem Tied.join {trees held : Node → Prop} {before after : Supply} (h : Tied trees before)
    (hheld : ∀ tree, held tree → trees tree) {new : Node} (harises : Arises held before after new) :
    Tied (fun tree => trees tree ∨ tree = new) after := by
  cases harises with
  | minted hbuilt hmints => exact h.join_minted hbuilt hmints
  | @inherited old _ hold hinherits =>
      exact h.join_marked hinherits.built fun path id hid =>
        ⟨old, hheld old hold, hinherits.marks path id hid⟩
  | @reconciled previous current hprevious hcurrent =>
      have hbuilt := (h.built current (hheld current hcurrent)).reconcile previous
      refine h.join_marked hbuilt fun path id hid => ?_
      rcases hid.of_reconcile with hid | hid
      · exact ⟨previous, hheld previous hprevious, hid⟩
      · exact ⟨current, hheld current hcurrent, hid⟩

namespace Document

theorem parse_of_ofCode {code name : String} {before after : Resources} {document : Document}
    (h : ofCode code name before = .ok (document, after)) :
    Source.parse code before.supply = .ok (document.tree, after.supply) := by
  obtain ⟨⟨tree, supply⟩, hparse, h⟩ := exists_of_bind_eq_ok h
  cases h
  exact hparse

theorem parse_of_recode {document changed : Document} {code : String} {before after : Resources}
    (h : document.recode code before = .ok (changed, after)) :
    Source.parse code before.supply = .ok (changed.tree, after.supply) := by
  obtain ⟨⟨tree, supply⟩, hparse, h⟩ := exists_of_bind_eq_ok h
  cases h
  exact hparse

/-- An edit keeps the tree or updates it. -/
theorem update?_of_edit {document changed : Document} {id : String} {changes : Changes}
    {before after : Clock} (h : document.edit id changes before = .ok (changed, after)) :
    changed.tree = document.tree ∨ document.tree.update? id changes = .ok (some changed.tree) := by
  obtain ⟨found, hfound, h⟩ := exists_of_bind_eq_ok h
  cases found with
  | none =>
      cases h
      exact .inl rfl
  | some tree =>
      obtain ⟨code, _, h⟩ := exists_of_bind_eq_ok h
      cases h
      exact .inr hfound

end Document

namespace Session

/-- A tree is held by a session, by itself or in a document. -/
def Holds (session : Session) (tree : Node) : Prop :=
  (∃ name, session.trees name = some tree) ∨
    ∃ name document, session.documents name = some document ∧ document.tree = tree

theorem holds_keepTree (session : Session) (into : String) (new : Node) {tree : Node}
    (h : (session.keepTree into new).Holds tree) : session.Holds tree ∨ tree = new := by
  rcases h with ⟨name, h⟩ | hdocument
  · rw [keepTree] at h
    dsimp only at h
    split at h
    · cases h
      exact .inr rfl
    · exact .inl (.inl ⟨name, h⟩)
  · exact .inl (.inr hdocument)

theorem holds_keepDocument (session : Session) (into : String) (document : Document)
    {tree : Node} (h : (session.keepDocument into document).Holds tree) :
    session.Holds tree ∨ tree = document.tree := by
  rcases h with htree | ⟨name, other, h, rfl⟩
  · exact .inl (.inl htree)
  · rw [keepDocument] at h
    dsimp only at h
    split at h
    · cases h
      exact .inr rfl
    · exact .inl (.inr ⟨name, other, h, rfl⟩)

theorem eq_ok_of_toOption {ε α : Type} {outcome : Except ε α} {result : α}
    (h : outcome.toOption = some result) : outcome = .ok result := by
  cases outcome with
  | error fault => cases h
  | ok found => rw [Option.some.inj h]

/-- A command that succeeds gives one tree, which arises from those that are held. -/
theorem arises_of_attempt? {session after : Session} (hbuilt : ∀ tree, session.Holds tree → tree.Built)
    {command : Command} (h : session.attempt? command = some after) :
    ∃ new, Arises session.Holds session.resources.supply after.resources.supply new ∧
      ∀ tree, after.Holds tree → session.Holds tree ∨ tree = new := by
  cases command with
  | parse code into =>
      obtain ⟨⟨tree, supply⟩, hparse, h⟩ := Option.bind_eq_some_iff.mp h
      cases h
      obtain ⟨hfresh, hmints⟩ := Source.fresh_parse (eq_ok_of_toOption hparse)
      exact ⟨tree, .minted hfresh hmints, fun _ => holds_keepTree session into tree⟩
  | setProperty name id key value into =>
      obtain ⟨tree, htree, h⟩ := Option.bind_eq_some_iff.mp h
      obtain ⟨changed, hchanged, h⟩ := Option.bind_eq_some_iff.mp h
      cases h
      have hheld : session.Holds tree := .inl ⟨name, htree⟩
      have hinherits := Panel.inherits_of_setProperty (hbuilt tree hheld) (eq_ok_of_toOption hchanged)
      exact ⟨changed, .inherited hheld hinherits, fun _ => holds_keepTree session into changed⟩
  | update name id tag attributes into =>
      obtain ⟨tree, htree, h⟩ := Option.bind_eq_some_iff.mp h
      obtain ⟨changed, hchanged, h⟩ := Option.bind_eq_some_iff.mp h
      cases h
      have hheld : session.Holds tree := .inl ⟨name, htree⟩
      have hinherits := Node.inherits_of_update (hbuilt tree hheld) (Node.addsNoNode_of_fields tag attributes)
        (eq_ok_of_toOption hchanged)
      exact ⟨changed, .inherited hheld hinherits, fun _ => holds_keepTree session into changed⟩
  | reconcile previous current into =>
      obtain ⟨earlier, hearlier, h⟩ := Option.bind_eq_some_iff.mp h
      obtain ⟨tree, htree, h⟩ := Option.bind_eq_some_iff.mp h
      cases h
      exact ⟨_, .reconciled (.inl ⟨previous, hearlier⟩) (.inl ⟨current, htree⟩),
        fun _ => holds_keepTree session into (earlier.reconcile tree)⟩
  | newDocument code title into =>
      obtain ⟨⟨document, resources⟩, hmade, h⟩ := Option.bind_eq_some_iff.mp h
      cases h
      obtain ⟨hfresh, hmints⟩ :=
        Source.fresh_parse (Document.parse_of_ofCode (eq_ok_of_toOption hmade))
      exact ⟨document.tree, .minted hfresh hmints,
        fun _ => holds_keepDocument session into document⟩
  | recode name code =>
      obtain ⟨document, _, h⟩ := Option.bind_eq_some_iff.mp h
      obtain ⟨⟨changed, resources⟩, hmade, h⟩ := Option.bind_eq_some_iff.mp h
      cases h
      obtain ⟨hfresh, hmints⟩ :=
        Source.fresh_parse (Document.parse_of_recode (eq_ok_of_toOption hmade))
      exact ⟨changed.tree, .minted hfresh hmints, fun _ => holds_keepDocument session name changed⟩
  | edit name id tag attributes =>
      obtain ⟨document, hdocument, h⟩ := Option.bind_eq_some_iff.mp h
      obtain ⟨⟨changed, clock⟩, hmade, h⟩ := Option.bind_eq_some_iff.mp h
      cases h
      have hheld : session.Holds document.tree := .inr ⟨name, document, hdocument, rfl⟩
      have hinherits : changed.tree.Inherits document.tree := by
        rcases Document.update?_of_edit (eq_ok_of_toOption hmade) with hkept | hupdate
        · rw [hkept]
          exact .refl (hbuilt _ hheld)
        · exact Node.inherits_of_update? (hbuilt _ hheld)
            (Node.addsNoNode_of_fields tag attributes) hupdate
      exact ⟨changed.tree, .inherited hheld hinherits,
        fun _ => holds_keepDocument session name changed⟩
  | take name into =>
      obtain ⟨document, hdocument, h⟩ := Option.bind_eq_some_iff.mp h
      cases h
      have hheld : session.Holds document.tree := .inr ⟨name, document, hdocument, rfl⟩
      exact ⟨document.tree, .inherited hheld (.refl (hbuilt _ hheld)),
        fun _ => holds_keepTree session into document.tree⟩

/-! ## Whole sessions -/

/-- A tree was held at some moment of the session that runs some commands. -/
def EverHolds (resources : Document.Resources) (commands : List Command) (tree : Node) : Prop :=
  ∃ earlier, earlier <+: commands ∧ ((start resources).run earlier).Holds tree

theorem everHolds_of_trees {resources : Document.Resources} {commands : List Command} {name : String}
    {tree : Node} (h : ((start resources).run commands).trees name = some tree) :
    EverHolds resources commands tree :=
  ⟨commands, List.prefix_rfl, .inl ⟨name, h⟩⟩

theorem run_append_singleton (session : Session) (commands : List Command) (command : Command) :
    session.run (commands ++ [command]) = (session.run commands).step command :=
  List.foldl_concat ..

/-- One more command adds the trees that it leaves in the session. -/
theorem everHolds_append_singleton {resources : Document.Resources} {commands : List Command}
    {command : Command} {tree : Node} (h : EverHolds resources (commands ++ [command]) tree) :
    EverHolds resources commands tree ∨
      (((start resources).run commands).step command).Holds tree := by
  obtain ⟨earlier, hearlier, hheld⟩ := h
  rcases List.prefix_concat_iff.mp hearlier with rfl | hearlier
  · rw [run_append_singleton] at hheld
    exact .inr hheld
  · exact .inl ⟨earlier, hearlier, hheld⟩

/-- A command ties the trees that the session holds behind it to those that were tied before. -/
theorem tied_step {trees : Node → Prop} {session : Session}
    (h : Tied trees session.resources.supply) (hheld : ∀ tree, session.Holds tree → trees tree)
    (command : Command) :
    Tied (fun tree => trees tree ∨ (session.step command).Holds tree)
      (session.step command).resources.supply := by
  rw [step]
  cases hattempt : session.attempt? command with
  | none => exact h.of_subset fun tree htree => htree.elim id (hheld tree)
  | some after =>
      obtain ⟨new, harises, hadded⟩ :=
        arises_of_attempt? (fun tree htree => h.built tree (hheld tree htree)) hattempt
      refine (h.join hheld harises).of_subset fun tree htree => ?_
      rcases htree with htree | htree
      · exact .inl htree
      · exact (hadded tree htree).imp_left (hheld tree)

/-- All trees that are ever held in a session are tied. -/
theorem tied_run (resources : Document.Resources) (commands : List Command) :
    Tied (EverHolds resources commands) ((start resources).run commands).resources.supply := by
  induction commands using List.reverseRecOn with
  | nil =>
      have hempty {tree : Node} (h : EverHolds resources [] tree) : False := by
        obtain ⟨earlier, hearlier, hheld⟩ := h
        rw [List.prefix_nil.mp hearlier] at hheld
        rcases hheld with ⟨_, hheld⟩ | ⟨_, _, hheld, _⟩ <;> cases hheld
      exact ⟨fun _ h => (hempty h).elim, fun _ h => (hempty h).elim, fun _ _ h => (hempty h).elim⟩
  | append_singleton commands command ih =>
      have hheld (tree : Node) (h : ((start resources).run commands).Holds tree) :
          EverHolds resources commands tree :=
        ⟨commands, List.prefix_rfl, h⟩
      rw [run_append_singleton]
      exact (tied_step ih hheld command).of_subset fun _ => everHolds_append_singleton

/-- Over a whole session an identifier is at one and the same path in all trees that carry it, and
no tree carries it twice. -/
theorem path_eq_of_everHolds (resources : Document.Resources) (commands : List Command) {a b : Node}
    (ha : EverHolds resources commands a) (hb : EverHolds resources commands b) :
    (∀ path other id, a.Marks path id → b.Marks other id → path = other) ∧ a.ids.Nodup :=
  ⟨(tied_run resources commands).path_eq a b ha hb, (tied_run resources commands).nodup ha⟩

/-- A tree is reconciled with an earlier one in which a property was set. -/
def relabelling : List Command :=
  [.parse "<a><b /></a>" "old",
    .setProperty "old" (Supply.identifier 1) "key" (.string "value") "changed",
    .parse "<a><b>text</b></a>" "new", .reconcile "changed" "new" "both"]

/-- The first identifiers, and a clock that stands still. -/
def firstResources : Document.Resources :=
  ⟨⟨0⟩, ⟨0, 0⟩⟩

/-- The reconciled tree shares all identifiers with the earlier one, at the same paths. -/
theorem path_eq_of_relabelling :
    ∃ old new, EverHolds firstResources relabelling old ∧
      EverHolds firstResources relabelling new ∧
      old.ids = [Supply.identifier 1, Supply.identifier 0] ∧ new.ids = old.ids ∧
      (∀ path other id, old.Marks path id → new.Marks other id → path = other) ∧ old.ids.Nodup := by
  have hids : (((start firstResources).run relabelling).trees "old").map Node.ids =
        some [Supply.identifier 1, Supply.identifier 0] ∧
      (((start firstResources).run relabelling).trees "both").map Node.ids =
        some [Supply.identifier 1, Supply.identifier 0] := by
    decide +kernel
  obtain ⟨old, hold, holdIds⟩ := Option.map_eq_some_iff.mp hids.1
  obtain ⟨new, hnew, hnewIds⟩ := Option.map_eq_some_iff.mp hids.2
  have hfirst := everHolds_of_trees hold
  have hsecond := everHolds_of_trees hnew
  exact ⟨old, new, hfirst, hsecond, holdIds, hnewIds.trans holdIds.symm,
    path_eq_of_everHolds firstResources relabelling hfirst hsecond⟩

end Session

end EditableMarkup
