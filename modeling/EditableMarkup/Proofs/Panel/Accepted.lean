import EditableMarkup.Proofs.Panel.Written
import EditableMarkup.Proofs.Tree.Numbers

/-!
# What can be set

A value is refused on account of the first thing in it that cannot be an attribute:
nothing, a list, or a number without a literal, from left to right and at any depth
of records.  Only then a fragment refuses it.  A text content is refused nowhere.

So every number that is set is finite, but for those of mappings that are attribute
values already: these are taken as they are.
-/

namespace EditableMarkup

/-! ## Leaves -/

namespace Plain

mutual

/-- What a plain value holds beside records, from left to right and at any depth. -/
def leaves : Plain → List Plain
  | .record fields => leavesIn fields
  | value => [value]

/-- What the values of fields hold beside records. -/
def leavesIn : List (String × Plain) → List Plain
  | [] => []
  | (_, value) :: rest => value.leaves ++ leavesIn rest

end

/-- The number that a leaf is, as a plain value or as an attribute value. -/
def number? : Plain → Option Number
  | .number found | .attribute (.number found) => some found
  | _ => none

/-- A leaf of a kind that is never set. -/
def isUnusable : Plain → Bool
  | .nothing | .list _ => true
  | _ => false

/-- A leaf that cannot be set: on account of its kind, or as a number that is not finite. -/
def isOffending (leaf : Plain) : Bool :=
  leaf.isUnusable || leaf.number?.any fun found => !found.isFinite

/-- What an offending leaf is refused for. -/
def offence (leaf : Plain) : Fault :=
  match leaf.number? with
  | some found => .numberWithoutLiteral found
  | none => .unusableKind leaf.kind

theorem offence_of_isUnusable : {leaf : Plain} → leaf.isUnusable = true →
    leaf.offence = .unusableKind leaf.kind
  | .nothing, _ | .list _, _ => rfl
  | .boolean _, h | .number _, h | .string _, h | .record _, h | .attribute _, h => nomatch h

theorem offence_of_number? {leaf : Plain} {found : Number} (h : leaf.number? = some found) :
    leaf.offence = .numberWithoutLiteral found := by
  rw [offence, h]

end Plain

/-! ## Refusals -/

/-- What a request is refused for, if it is refused. -/
def refusal? {α : Type} : Except Fault α → Option Fault
  | .ok _ => none
  | .error fault => some fault

section Refusals

variable {α β : Type}

theorem refusal?_eq_some_iff {outcome : Except Fault α} {fault : Fault} :
    refusal? outcome = some fault ↔ outcome = .error fault := by
  cases outcome <;> simp [refusal?]

theorem refusal?_eq_none_iff {outcome : Except Fault α} :
    refusal? outcome = none ↔ ∃ value, outcome = .ok value := by
  cases outcome <;> simp [refusal?]

theorem refusal?_map (f : α → β) (outcome : Except Fault α) :
    refusal? (f <$> outcome) = refusal? outcome := by
  cases outcome <;> rfl

/-- Of two steps the first one is refused first, if the second one's refusal does not depend on it. -/
theorem refusal?_bind {first : Except Fault α} {second : α → Except Fault β} {refused : Option Fault}
    (h : ∀ value, refusal? (second value) = refused) :
    refusal? (first >>= second) = (refusal? first).or refused := by
  cases first with
  | error fault => rfl
  | ok value => exact h value

end Refusals

namespace Panel

theorem refusal?_finiteNumber {leaf : Plain} {number : Number} (h : leaf.number? = some number)
    (husable : leaf.isUnusable = false) :
    refusal? (finiteNumber number) = ([leaf].find? Plain.isOffending).map Plain.offence := by
  rw [finiteNumber, List.find?_singleton, Plain.isOffending, husable, h]
  cases hfinite : number.isFinite with
  | false => simp [refusal?, hfinite, Plain.offence_of_number? h]
  | true => simp [refusal?, hfinite]

mutual

/-- A value is refused on account of its first offending leaf. -/
theorem refusal?_valueOf : (plain : Plain) →
    refusal? (valueOf plain) = (plain.leaves.find? Plain.isOffending).map Plain.offence
  | .record fields => by
    have hrest (entries : List (String × Value)) :
        refusal? (.ok (Value.mapping entries) : Except Fault Value) = none := rfl
    rw [Plain.leaves, ← refusal?_entriesOf fields, valueOf]
    exact (refusal?_bind hrest).trans (Option.or_none ..)
  | .attribute value => by
    cases value with
    | number number => exact refusal?_finiteNumber rfl rfl
    | string _ | boolean _ | mapping _ | expression _ => rfl
  | .number number => refusal?_finiteNumber rfl rfl
  | .nothing | .boolean _ | .string _ | .list _ => rfl

theorem refusal?_entriesOf : (fields : List (String × Plain)) →
    refusal? (entriesOf fields) = ((Plain.leavesIn fields).find? Plain.isOffending).map Plain.offence
  | [] => rfl
  | (key, plain) :: rest => by
    rw [Plain.leavesIn, List.find?_append, Option.map_or, ← refusal?_valueOf plain,
      ← refusal?_entriesOf rest, entriesOf]
    exact refusal?_bind fun value => refusal?_map _ _

end

/-- A property other than the text content is refused on account of its value, and only then because
the node is a fragment. -/
theorem refusal?_setProperty {tree node : Node} (hbuilt : tree.Built) {id key : String}
    (hfind : tree.find? id = some node) (htext : key ≠ textKey) (plain : Plain) :
    refusal? (setProperty tree id key plain) =
      ((plain.leaves.find? Plain.isOffending).map Plain.offence).or
        (if node.tag = .fragment then some .fragmentAttributes else none) := by
  rw [Node.find?_eq] at hfind
  obtain ⟨path, hpath, hnode⟩ := Option.bind_eq_some_iff.mp hfind
  rw [setProperty_of_path? hbuilt hpath hnode, refusal?_map,
    write_of_ne (hbuilt.at? hnode).remade htext, ← refusal?_valueOf]
  refine refusal?_bind fun value => ?_
  split <;> rfl

/-- A text content is set in any tree, as long as it can be written. -/
theorem exists_setProperty_textKey {tree : Node} (hbuilt : tree.Built) (id : String) {plain : Plain}
    (hwritable : plain.isWritable = true) : ∃ new, setProperty tree id textKey plain = .ok new := by
  cases hpath : Node.path? id tree with
  | none => exact ⟨tree, setProperty_of_path?_eq_none hpath textKey plain⟩
  | some path =>
      obtain ⟨node, hnode, _⟩ := Node.exists_at?_of_path? hpath
      rw [setProperty_of_path? hbuilt hpath hnode, write_textKey (hbuilt.at? hnode).remade,
        if_pos hwritable]
      exact ⟨_, rfl⟩

/-- Where no node has the identifier, nothing is refused, and no text content is refused as long as it
can be written.  Any other property is refused on account of the first leaf of its value that cannot be
set; where there is none, it is refused exactly by a fragment. -/
theorem setProperty_refused {tree : Node} (hbuilt : tree.Built) (id key : String) (plain : Plain) :
    (tree.find? id = none → setProperty tree id key plain = .ok tree) ∧
      (key = textKey → plain.isWritable = true →
        ∃ new, setProperty tree id key plain = .ok new) ∧
      ∀ node, tree.find? id = some node → key ≠ textKey →
        (∀ leaf, plain.leaves.find? Plain.isOffending = some leaf →
          (leaf.isUnusable = true →
            setProperty tree id key plain = .error (.unusableKind leaf.kind)) ∧
          ∀ number, leaf.number? = some number →
            setProperty tree id key plain = .error (.numberWithoutLiteral number)) ∧
        (plain.leaves.find? Plain.isOffending = none →
          (node.tag = .fragment → setProperty tree id key plain = .error .fragmentAttributes) ∧
          (node.tag ≠ .fragment → ∃ new, setProperty tree id key plain = .ok new)) := by
  refine ⟨fun hnone => setProperty_of_find?_eq_none hnone key plain, fun htext hwritable => ?_,
    fun node hfind htext => ⟨fun leaf hleaf => ?_, fun hnone => ?_⟩⟩
  · rw [htext]
    exact exists_setProperty_textKey hbuilt id hwritable
  · have hrefusal := refusal?_setProperty hbuilt hfind htext plain
    rw [hleaf] at hrefusal
    refine ⟨fun hunusable => ?_, fun number hnumber => ?_⟩
    · rw [← Plain.offence_of_isUnusable hunusable]
      exact refusal?_eq_some_iff.mp hrefusal
    · rw [← Plain.offence_of_number? hnumber]
      exact refusal?_eq_some_iff.mp hrefusal
  · have hrefusal := refusal?_setProperty hbuilt hfind htext plain
    rw [hnone] at hrefusal
    refine ⟨fun hfragment => ?_, fun hfragment => ?_⟩
    · rw [if_pos hfragment] at hrefusal
      exact refusal?_eq_some_iff.mp hrefusal
    · rw [if_neg hfragment] at hrefusal
      exact refusal?_eq_none_iff.mp hrefusal

/-- A fragment with an element in it. -/
def sheet : Node :=
  ⟨.fragment, [], [.node ⟨.named "p", [("size", .number (.integer 2))], [.text "A"], "line"⟩], "sheet"⟩

theorem built_sheet : sheet.Built := by decide

/-- A record whose second leaf is a list, with an infinite number behind it. -/
def mixedRecord : Plain :=
  .record [("a", .string "x"), ("b", .record [("c", .list []), ("d", .number (.real (.infinite true)))])]

/-- The list is noticed before the number, and both before the fragment. -/
theorem setProperty_sheet :
    setProperty sheet "sheet" "data" mixedRecord = .error (.unusableKind "list") ∧
      setProperty sheet "line" "style.b" (.number (.real .notANumber)) =
        .error (.numberWithoutLiteral (.real .notANumber)) ∧
      setProperty sheet "sheet" "style.b" (.record []) = .error .fragmentAttributes ∧
      (∃ new, setProperty sheet "line" "data" (.record []) = .ok new) ∧
      (∃ new, setProperty sheet "sheet" textKey mixedRecord = .ok new) ∧
      setProperty sheet "other" "data" mixedRecord = .ok sheet := by
  have hsheet : sheet.find? "sheet" = some sheet := rfl
  have hline : ∃ node, sheet.find? "line" = some node ∧ node.tag = .named "p" := ⟨_, rfl, rfl⟩
  obtain ⟨line, hline, hp⟩ := hline
  obtain ⟨_, _, hmixed⟩ := setProperty_refused built_sheet "sheet" "data" mixedRecord
  obtain ⟨_, _, hnumber⟩ :=
    setProperty_refused built_sheet "line" "style.b" (.number (.real .notANumber))
  obtain ⟨_, _, hempty⟩ := setProperty_refused built_sheet "sheet" "style.b" (.record [])
  obtain ⟨_, _, helement⟩ := setProperty_refused built_sheet "line" "data" (.record [])
  obtain ⟨_, htext, _⟩ := setProperty_refused built_sheet "sheet" textKey mixedRecord
  obtain ⟨hnone, _⟩ := setProperty_refused built_sheet "other" "data" mixedRecord
  refine ⟨((hmixed sheet hsheet (by decide)).1 (.list []) rfl).1 rfl,
    ((hnumber line hline (by decide)).1 _ rfl).2 _ rfl,
    ((hempty sheet hsheet (by decide)).2 rfl).1 rfl,
    ((helement line hline (by decide)).2 rfl).2 ?_, htext rfl rfl, hnone rfl⟩
  rw [hp]
  exact nofun

/-! ## Numbers -/

end Panel

mutual

/-- The numbers of the mappings in a plain value that are attribute values already. -/
def Plain.mappedNumbers : Plain → List Number
  | .attribute (.mapping entries) => Value.numbersIn entries
  | .record fields => Plain.mappedNumbersIn fields
  | _ => []

/-- The numbers of such mappings in the values of fields. -/
def Plain.mappedNumbersIn : List (String × Plain) → List Number
  | [] => []
  | (_, value) :: rest => value.mappedNumbers ++ Plain.mappedNumbersIn rest

end

namespace Panel

theorem finite_of_finiteNumber {number : Number} {value : Value}
    (h : finiteNumber number = .ok value) : AllFinite value.numbers := by
  obtain ⟨hfinite, rfl⟩ := finiteNumber_eq_ok_iff.mp h
  exact List.forall_mem_singleton.mpr hfinite

mutual

/-- The numbers of a value that is set are finite, as soon as those of its mappings are. -/
theorem allFinite_valueOf_iff : (plain : Plain) → ∀ value, valueOf plain = .ok value →
    (AllFinite value.numbers ↔ AllFinite plain.mappedNumbers)
  | .record fields, value, h => by
      obtain ⟨entries, hentries, h⟩ := exists_of_bind_eq_ok h
      cases h
      exact allFinite_entriesOf_iff fields entries hentries
  | .attribute value, found, h => by
      cases value with
      | number number => exact iff_of_true (finite_of_finiteNumber h) nofun
      | string _ | boolean _ | expression _ =>
          cases h
          exact iff_of_true nofun nofun
      | mapping entries =>
          cases h
          exact Iff.rfl
  | .number number, value, h => iff_of_true (finite_of_finiteNumber h) nofun
  | .boolean _, value, h | .string _, value, h => by
      cases h
      exact iff_of_true nofun nofun
  | .nothing, _, h | .list _, _, h => nomatch h

theorem allFinite_entriesOf_iff : (fields : List (String × Plain)) → ∀ entries,
    entriesOf fields = .ok entries →
    (AllFinite (Value.numbersIn entries) ↔ AllFinite (Plain.mappedNumbersIn fields))
  | [], entries, h => by
      cases h
      exact iff_of_true nofun nofun
  | (_, plain) :: rest, entries, h => by
      obtain ⟨value, hvalue, h⟩ := exists_of_bind_eq_ok h
      obtain ⟨others, hothers, h⟩ := exists_of_bind_eq_ok h
      cases h
      rw [Value.numbersIn, Plain.mappedNumbersIn, allFinite_append, allFinite_append,
        allFinite_valueOf_iff plain value hvalue, allFinite_entriesOf_iff rest others hothers]

end

theorem numbersIn_styleEntries (node : Node) :
    Value.numbersIn (styleEntries node) ⊆ Value.numbersIn node.attributes := by
  rw [styleEntries]
  split
  · next entries hfound =>
      exact fun number hnumber =>
        Value.mem_numbersIn_iff.mpr ⟨_, Entries.mem_of_find? hfound, hnumber⟩
  · exact List.nil_subset _

/-- Where all numbers of a node are finite, its attributes have finite numbers only after a value is
written exactly if the value has. -/
theorem allFinite_written_iff {node : Node} (hfinite : AllFinite (Value.numbersIn node.attributes))
    (key : String) (value : Value) :
    AllFinite (Value.numbersIn (written node key value)) ↔ AllFinite value.numbers := by
  unfold written
  split
  · have hstyle := hfinite.mono (numbersIn_styleEntries node)
    exact (Entries.allFinite_set_iff hfinite styleKey _).trans (Entries.allFinite_set_iff hstyle _ value)
  · exact Entries.allFinite_set_iff hfinite key value

/-- Where all numbers of a node are finite, they are so after a property is set exactly if this was the
text content, or the mappings in the value that are attribute values already have finite numbers only.
-/
theorem allFinite_write_iff {node changed : Node} (hfinite : AllFinite node.numbers) {key : String}
    {plain : Plain} (h : Writes node key plain changed) :
    AllFinite changed.numbers ↔ key = textKey ∨ AllFinite plain.mappedNumbers := by
  rw [Node.allFinite_numbers_iff] at hfinite ⊢
  cases h with
  | children htext _ =>
      refine iff_of_true ⟨hfinite.1, fun child hchild => ?_⟩ (.inl htext)
      exact absurd hchild (node_not_mem_textContent child _)
  | attributes htext _ hvalue =>
      rw [allFinite_written_iff hfinite.1, allFinite_valueOf_iff plain _ hvalue]
      simp only [htext, false_or]
      exact and_iff_left hfinite.2

/-- Where all numbers of a tree are finite, they are so after a property is set exactly if no node has
the identifier, the property is the text content, or the mappings in the value that are attribute values
already have finite numbers only. -/
theorem allFinite_setProperty_iff {tree new : Node} (hbuilt : tree.Built)
    (hfinite : AllFinite tree.numbers) {id key : String} {plain : Plain}
    (h : setProperty tree id key plain = .ok new) :
    AllFinite new.numbers ↔
      tree.find? id = none ∨ key = textKey ∨ AllFinite plain.mappedNumbers := by
  rw [Node.find?_eq]
  rcases cases_of_setProperty hbuilt h with ⟨hnone, rfl⟩ | ⟨path, node, changed, hdone⟩
  · exact iff_of_true hfinite (.inl (by rw [hnone]; rfl))
  · have hnode := hfinite.mono (Node.numbers_subset_of_at? hdone.leads)
    have hwrites := (write_eq_ok_iff (hbuilt.at? hdone.leads).remade).mp hdone.made
    rw [hdone.result, Node.allFinite_replaceAt_iff hfinite hdone.leads,
      allFinite_write_iff hnode hwrites, hdone.found, Option.bind_some, hdone.leads]
    simp

theorem allFinite_sheet : AllFinite sheet.numbers := by decide

/-- A record with a mapping in it that is an attribute value already. -/
def measuredRecord : Plain :=
  .record [("a", .number (.integer 1)), ("b", .attribute (.mapping [("c", .number (.integer 2))])),
    ("d", .attribute (.number (.integer 3)))]

/-- The numbers of such a mapping are new in the tree, and finite. -/
theorem setProperty_measuredRecord :
    ∃ new, setProperty sheet "line" "style.b" measuredRecord = .ok new ∧
      measuredRecord.mappedNumbers = [.integer 2] ∧ AllFinite new.numbers := by
  have hset : ∃ new, setProperty sheet "line" "style.b" measuredRecord = .ok new := ⟨_, rfl⟩
  obtain ⟨new, hset⟩ := hset
  have hmapped : AllFinite measuredRecord.mappedNumbers := by decide
  exact ⟨new, hset, rfl,
    (allFinite_setProperty_iff built_sheet allFinite_sheet hset).mpr (.inr (.inr hmapped))⟩

/-- An infinite number gets in with a mapping that is an attribute value already. -/
theorem setProperty_infiniteMapping :
    AllFinite sheet.numbers ∧
      ∃ new, setProperty sheet "line" "data"
          (.attribute (.mapping [("a", .number (.real (.infinite false)))])) = .ok new ∧
        ¬AllFinite new.numbers :=
  ⟨allFinite_sheet, _, rfl, by decide⟩

end Panel

end EditableMarkup
