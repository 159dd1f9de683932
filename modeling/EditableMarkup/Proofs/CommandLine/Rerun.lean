import EditableMarkup.CommandLine.Run
import EditableMarkup.Proofs.Source.Reprinted

/-!
# Running the command on its own output

The command prints a tree in such a way that, run on what it printed, it prints
the same once more.  The output is a text of its own: it is read from a file, its
last line feed is trimmed, it is parsed and printed.  Numbers may change their kind
on the way, but not the way they are printed.  A carriage return that the output
holds as it stands does not survive, since a file is read with every line end as a
line feed.
-/

namespace EditableMarkup.CommandLine

open EditableMarkup.Source

/-! ## Reading the output from a file -/

theorem unifyLines_eq_self {text : List Char} (h : '\r' ∉ text) : unifyLines text = text := by
  induction text with
  | nil => rfl
  | cons c rest ih =>
      rw [List.mem_cons, not_or] at h
      have hc : c ≠ '\r' := fun heq => h.1 heq.symm
      rw [unifyLines, ih h.2]
      · exact fun _ heq _ => hc heq
      · exact fun heq => hc heq

theorem textOf?_toUTF8 (text : String) :
    textOf? text.toUTF8 = some (String.ofList (unifyLines text.toList)) := by
  have hbytes : String.fromUTF8? text.toUTF8 = some text := by
    simp only [String.fromUTF8?]
    exact dif_pos text.isValidUTF8
  rw [textOf?, hbytes]
  rfl

/-- A text without carriage returns is read from its file as it stands. -/
theorem textOf?_eq_self {text : String} (h : '\r' ∉ text.toList) :
    textOf? text.toUTF8 = some text := by
  rw [textOf?_toUTF8, unifyLines_eq_self h, String.ofList_toList]

/-! ## Printing the tree of a file -/

section Print

variable {options : Options} {text : String} {resources : Document.Resources} {tree : Node}
  {after : Supply}

/-- The answer for a text with a tree is the tree as markup, in a line of its own. -/
theorem answerText_of_parse (hmarkup : options.json = false)
    (hparse : parse text resources.supply = .ok (tree, after)) :
    answerText options text resources =
      if tree.isWritable then .ok ⟨0, line (tree.print options.indent)⟩
      else .error .unwritable := by
  simp only [answerText, Document.ofCode, hparse, bind, Except.bind, pure, Except.pure, render,
    hmarkup, Bool.false_eq_true, if_false, Node.serialize]
  cases tree.isWritable <;> rfl

theorem answer_eq (options : Options) {bytes : ByteArray} (htext : textOf? bytes = some text)
    (resources : Document.Resources) :
    answer options (some bytes) resources = answerText options text resources := by
  simp only [answer, htext]

end Print

/-! ## The second run -/

/-- A line of printed markup is trimmed to the markup. -/
theorem trim_line {free : Prop} {tree : Node} (hlegible : tree.Legible free) (indent : Int) :
    Text.trim (line (tree.print indent)).toList = (tree.print indent).toList := by
  have hbreak : ∀ c ∈ "\n".toList, Text.isBlank c = true := by
    intro c hc
    obtain rfl : c = '\n' := List.mem_singleton.mp hc
    decide
  rw [line, String.toList_append]
  exact (marked_print hlegible indent).trim_append hbreak

/-- Run on what it printed, the command prints the same again, and no text, string or key has changed,
if all numbers are finite, all expressions are paths, and the output holds no carriage return.  One
kind of output is excepted, which need not be read as markup: the first attribute that is printed
opens with the word `extends`, and the output trails off behind an arrow. -/
theorem answer_again {options : Options} {bytes : ByteArray} {text output : String}
    {resources : Document.Resources} {tree : Node} {after : Supply} (hmarkup : options.json = false)
    (htext : textOf? bytes = some text)
    (hparse : parse text resources.supply = .ok (tree, after)) (simple : Simple tree)
    (hanswer : answer options (some bytes) resources = .ok ⟨0, output⟩)
    (hreturns : '\r' ∉ output.toList)
    (htrails : opensWithExtends tree = true → ¬ TrailsOff (tree.print options.indent).toList)
    (input : String) (again : Document.Resources) :
    answer { options with input } (some output.toUTF8) again = .ok ⟨0, output⟩ ∧
      ∃ found later, parse output again.supply = .ok (found, later) ∧
        found.Alike tree.withoutOff := by
  rw [answer_eq options htext, answerText_of_parse hmarkup hparse] at hanswer
  split at hanswer
  · next hwritable =>
      obtain rfl : line (tree.print options.indent) = output := by
        injection hanswer with hanswer
        exact congrArg Answer.output hanswer
      have hlegible : tree.Legible True :=
        Node.Printable.legible (printable_of_parseWithin hparse simple hwritable)
      have unrivalled := (sheltered_print hlegible options.indent htrails).unrivalled trivial
      obtain ⟨found, later, hfound, hreread⟩ := parseWithin_reread hlegible unrivalled
        (trim_line hlegible options.indent) (parsed_of_parseWithin hparse).height_le again.supply
      refine ⟨?_, found, later, hfound, hlegible.alike_of_unlabelled_eq hreread⟩
      rw [answer_eq _ (textOf?_eq_self hreturns),
        @answerText_of_parse { options with input } _ again _ _ hmarkup hfound,
        Node.isWritable_eq_of_unlabelled_eq hreread, if_pos hwritable,
        Node.print_eq_of_unlabelled_eq hreread]
  · cases hanswer

/-- The first identifiers, and a clock that stands still. -/
def firstRun : Document.Resources :=
  ⟨⟨0⟩, ⟨0, 0⟩⟩

/-- Markup that is not laid out as it is printed, in lines that end with a carriage return. -/
def looseFile : String :=
  "<p a = \"class\" b=\x7b1e21\x7d\r\n  c=\x7b\x7b'd e': x.y\x7d\x7d>\r\n  Line\r\n</p>\r\n"

/-- The same markup as it is printed. -/
def tidyMarkup : String :=
  "<p a=\"class\" b=\x7b1e+21\x7d c=\x7b\x7b\"d e\": x.y\x7d\x7d>Line</p>"

theorem answer_looseFile :
    ∃ text tree after, textOf? looseFile.toUTF8 = some text ∧
      parse text firstRun.supply = .ok (tree, after) ∧ Simple tree ∧
      answer ⟨"a.jsx", false, 2⟩ (some looseFile.toUTF8) firstRun = .ok ⟨0, line tidyMarkup⟩ ∧
      '\r' ∉ (line tidyMarkup).toList ∧ opensWithExtends tree = false ∧
      answer ⟨"a.jsx", false, 2⟩ (some (line tidyMarkup).toUTF8) firstRun =
        .ok ⟨0, line tidyMarkup⟩ := by
  have htext := textOf?_toUTF8 looseFile
  obtain ⟨tree, after, hparse, htest⟩ := @exists_of_isParsed
    (String.ofList (unifyLines looseFile.toList)) (fun found =>
      (found.nodes.flatMap numbersOf).all Number.isFinite &&
        found.nodes.flatMap expressionsOf == ["x.y"] && !opensWithExtends found &&
        found.isWritable && found.print 2 == tidyMarkup) true (by decide +kernel)
  simp only [Bool.and_eq_true, Bool.not_eq_true', beq_iff_eq, List.all_eq_true] at htest
  obtain ⟨⟨⟨⟨hfinite, hexpressions⟩, hextends⟩, hwritable⟩, hprint⟩ := htest
  have hpath : IsPath "x.y" := ⟨['x'], [['y']], rfl, by decide, by decide⟩
  have simple : Simple tree := by
    refine ⟨fun node hnode number hnumber => ?_, fun node hnode source hsource => ?_⟩
    · exact hfinite number (List.mem_flatMap.mpr ⟨node, hnode, hnumber⟩)
    · have hmem : source ∈ ["x.y"] := hexpressions ▸ List.mem_flatMap.mpr ⟨node, hnode, hsource⟩
      rw [List.mem_singleton.mp hmem]
      exact hpath
  have hanswer : answer ⟨"a.jsx", false, 2⟩ (some looseFile.toUTF8) firstRun =
      .ok ⟨0, line tidyMarkup⟩ := by
    rw [answer_eq _ htext, @answerText_of_parse ⟨"a.jsx", false, 2⟩ _ firstRun _ _ rfl hparse,
      if_pos hwritable, hprint]
  have hreturns : '\r' ∉ (line tidyMarkup).toList := by decide
  have hagain := @answer_again ⟨"a.jsx", false, 2⟩ _ _ _ firstRun _ _ rfl htext hparse simple hanswer
    hreturns (fun hopens => absurd (hextends.symm.trans hopens) Bool.false_ne_true) "a.jsx" firstRun
  exact ⟨_, tree, after, htext, hparse, simple, hanswer, hreturns, hextends, hagain.1⟩

/-- A string with a carriage return that is spelled as an escape. -/
def returningFile : String := "<p a=\x7b\"\\r\"\x7d />"

/-- Run on what it printed, the command need not print the same: the carriage return is printed as it
stands, and read from the file as a line feed. -/
theorem answer_returningFile :
    ∃ text tree after, textOf? returningFile.toUTF8 = some text ∧
      parse text firstRun.supply = .ok (tree, after) ∧ Simple tree ∧
      answer ⟨"a.jsx", false, 2⟩ (some returningFile.toUTF8) firstRun =
        .ok ⟨0, "<p a=\"\r\" />\n"⟩ ∧
      answer ⟨"a.jsx", false, 2⟩ (some "<p a=\"\r\" />\n".toUTF8) firstRun =
        .ok ⟨0, "<p a=\"\n\" />\n"⟩ := by
  have htext := textOf?_toUTF8 returningFile
  have hprinted := textOf?_toUTF8 "<p a=\"\r\" />\n"
  obtain ⟨tree, after, hparse, htest⟩ := @exists_of_isParsed
    (String.ofList (unifyLines returningFile.toList)) (fun found =>
      (found.nodes.flatMap numbersOf).isEmpty && (found.nodes.flatMap expressionsOf).isEmpty &&
        found.isWritable && found.print 2 == "<p a=\"\r\" />") true (by decide +kernel)
  obtain ⟨found, later, hagain, hfound⟩ := @exists_of_isParsed
    (String.ofList (unifyLines "<p a=\"\r\" />\n".toList)) (fun found =>
      found.isWritable && found.print 2 == "<p a=\"\n\" />") true (by decide +kernel)
  simp only [Bool.and_eq_true, beq_iff_eq, List.isEmpty_iff] at htest hfound
  obtain ⟨⟨⟨hnumbers, hexpressions⟩, hwritable⟩, hprint⟩ := htest
  have simple : Simple tree := by
    refine ⟨fun node hnode number hnumber => ?_, fun node hnode source hsource => ?_⟩
    · cases hnumbers ▸ List.mem_flatMap.mpr ⟨node, hnode, hnumber⟩
    · cases hexpressions ▸ List.mem_flatMap.mpr ⟨node, hnode, hsource⟩
  refine ⟨_, tree, after, htext, hparse, simple, ?_, ?_⟩
  · rw [answer_eq _ htext, @answerText_of_parse ⟨"a.jsx", false, 2⟩ _ firstRun _ _ rfl hparse,
      if_pos hwritable, hprint]
    rfl
  · rw [answer_eq _ hprinted, @answerText_of_parse ⟨"a.jsx", false, 2⟩ _ firstRun _ _ rfl hagain,
      if_pos hfound.1, hfound.2]
    rfl

end EditableMarkup.CommandLine
