import EditableMarkup.Panel
import EditableMarkup.Proofs.Text.Words

/-!
# Replacing classes

A new class takes the place of all classes with its start.  The other classes
stay as they are, in their order, and the new one comes last.  So of two new
classes with the same start the last one is kept, and replacements for two
starts of which neither is the start of the other do not disturb each other.
-/

namespace EditableMarkup.Panel

open EditableMarkup.Text

/-- The classes of a string, from front to back. -/
def classesOf (classes : String) : List String :=
  (words classes.toList).map String.ofList

/-- Whether a name starts in a given way. -/
def startsWith (start name : String) : Bool :=
  start.toList.isPrefixOf name.toList

/-- A name can stand as a class for a start: it is not empty, has no blanks, and starts so. -/
structure IsClassFor (start name : String) : Prop where
  unbroken : Unbroken name.toList
  starts : startsWith start name = true

/-- The classes of a string with other starts. -/
def otherClasses (start : String) (names : List String) : List String :=
  names.filter fun name => !startsWith start name

/-! ## The classes behind a replacement -/

theorem unbroken_of_mem_classesOf {classes name : String} (h : name ∈ classesOf classes) :
    Unbroken name.toList := by
  obtain ⟨word, hword, rfl⟩ := List.mem_map.mp h
  rw [String.toList_ofList]
  exact unbroken_of_mem_words hword

/-- Names that are joined by spaces are the classes of the joined string. -/
theorem classesOf_intercalate {names : List String} (h : ∀ name ∈ names, Unbroken name.toList) :
    classesOf (" ".intercalate names) = names := by
  have hwords : ∀ word ∈ names.map String.toList, Unbroken word := by
    intro word hword
    obtain ⟨name, hname, rfl⟩ := List.mem_map.mp hword
    exact h name hname
  have hspace : " ".toList = [' '] := rfl
  rw [classesOf, String.toList_intercalate, hspace, words_intercalate hwords, List.map_map]
  simp

theorem replaceClass_eq (classes start new : String) :
    replaceClass classes start new =
      " ".intercalate (otherClasses start (classesOf classes) ++ [new]) := by
  have hstart : (fun name => !startsWith start name) ∘ String.ofList =
      fun word => !start.toList.isPrefixOf word := by
    funext word
    simp [startsWith]
  rw [replaceClass, otherClasses, classesOf, List.filter_map, hstart]

theorem classesOf_replaceClass {new : String} (hnew : Unbroken new.toList)
    (classes start : String) :
    classesOf (replaceClass classes start new) =
      otherClasses start (classesOf classes) ++ [new] := by
  rw [replaceClass_eq]
  refine classesOf_intercalate fun name hname => ?_
  rcases List.mem_append.mp hname with hname | hname
  · exact unbroken_of_mem_classesOf (List.mem_filter.mp hname).1
  · rwa [List.mem_singleton.mp hname]

/-! ## Two replacements -/

section Starts

variable {start name : String}

theorem otherClasses_singleton_of_starts (h : startsWith start name = true) :
    otherClasses start [name] = [] := by
  simp [otherClasses, h]

theorem otherClasses_singleton_of_not (h : startsWith start name = false) :
    otherClasses start [name] = [name] := by
  simp [otherClasses, h]

theorem otherClasses_append (front rest : List String) :
    otherClasses start (front ++ rest) = otherClasses start front ++ otherClasses start rest :=
  List.filter_append ..

theorem otherClasses_twice (names : List String) :
    otherClasses start (otherClasses start names) = otherClasses start names := by
  simp [otherClasses, List.filter_filter]

theorem otherClasses_comm (other : String) (names : List String) :
    otherClasses start (otherClasses other names) = otherClasses other (otherClasses start names) := by
  simp only [otherClasses, List.filter_filter, Bool.and_comm]

/-- Of two starts of one name one is the start of the other. -/
theorem startsWith_or_startsWith {other : String} (h : startsWith start name = true)
    (hother : startsWith other name = true) :
    startsWith start other = true ∨ startsWith other start = true := by
  simp only [startsWith, List.isPrefixOf_iff_prefix] at *
  exact List.prefix_or_prefix_of_prefix h hother

/-- Where neither of two starts is the start of the other, no name has both. -/
theorem not_startsWith_of_apart {other : String} (hapart : startsWith start other = false)
    (hapart' : startsWith other start = false) (h : startsWith start name = true) :
    startsWith other name = false := by
  refine Bool.eq_false_iff.mpr fun hother => ?_
  rcases startsWith_or_startsWith h hother with hstart | hstart
  · exact Bool.false_ne_true (hapart ▸ hstart)
  · exact Bool.false_ne_true (hapart' ▸ hstart)

end Starts

/-- Of two replacements for one start only the second one tells. -/
theorem replaceClass_replaceClass {start new : String} (hnew : IsClassFor start new)
    (classes other : String) :
    replaceClass (replaceClass classes start new) start other =
      replaceClass classes start other := by
  rw [replaceClass_eq, classesOf_replaceClass hnew.unbroken, otherClasses_append,
    otherClasses_twice, otherClasses_singleton_of_starts hnew.starts, List.append_nil,
    ← replaceClass_eq]

/-- A class that has another start than the next one is still there behind it. -/
theorem classesOf_replaceClass_replaceClass {start new start' new' : String}
    (hnew : Unbroken new.toList) (hnew' : Unbroken new'.toList)
    (hkept : startsWith start' new = false) (classes : String) :
    classesOf (replaceClass (replaceClass classes start new) start' new') =
      otherClasses start' (otherClasses start (classesOf classes)) ++ [new, new'] := by
  rw [classesOf_replaceClass hnew', classesOf_replaceClass hnew, otherClasses_append,
    otherClasses_singleton_of_not hkept, List.append_assoc, List.singleton_append]

/-- A new class takes the place of all classes with its start: the others stay as they are, in their
order, it comes behind them, and it is the only one with the start.  To put it there again changes
nothing, and to put another one there is as if it had never been.  Where neither of two starts is
the start of the other, replacements for both give the same classes in either order. -/
theorem replaceClass_takesPlace {start new : String} (hnew : IsClassFor start new)
    (classes : String) :
    classesOf (replaceClass classes start new) =
        (classesOf classes).filter (fun name => !startsWith start name) ++ [new] ∧
      (classesOf (replaceClass classes start new)).filter (startsWith start) = [new] ∧
      replaceClass (replaceClass classes start new) start new = replaceClass classes start new ∧
      (∀ other, IsClassFor start other →
        replaceClass (replaceClass classes start new) start other =
          replaceClass classes start other) ∧
      ∀ start' new', IsClassFor start' new' → startsWith start start' = false →
        startsWith start' start = false →
          (classesOf (replaceClass (replaceClass classes start new) start' new')).Perm
            (classesOf (replaceClass (replaceClass classes start' new') start new)) := by
  have hclasses := classesOf_replaceClass hnew.unbroken classes start
  refine ⟨hclasses, ?_, replaceClass_replaceClass hnew classes new,
    fun other _ => replaceClass_replaceClass hnew classes other, ?_⟩
  · rw [hclasses, List.filter_append, otherClasses, List.filter_filter]
    simp [hnew.starts]
  · intro start' new' hnew' hapart hapart'
    have hkept := not_startsWith_of_apart hapart hapart' hnew.starts
    have hkept' := not_startsWith_of_apart hapart' hapart hnew'.starts
    rw [classesOf_replaceClass_replaceClass hnew.unbroken hnew'.unbroken hkept,
      classesOf_replaceClass_replaceClass hnew'.unbroken hnew.unbroken hkept', otherClasses_comm]
    exact (List.Perm.swap new' new []).append_left _

/-- A no-break space, a tab and a line separator stand between these classes, and one of them stands
here twice. -/
def spacedClasses : String := "btn\u00A0 text-sm\ttext-xl\u2028text-sm font-bold "

theorem replaceClass_takesPlace_spacedClasses :
    IsClassFor "text-" "text-lg" ∧ IsClassFor "text-" "text-base" ∧
      IsClassFor "font-" "font-thin" ∧ startsWith "text-" "font-" = false ∧
      startsWith "font-" "text-" = false ∧
      classesOf (replaceClass spacedClasses "text-" "text-lg") = ["btn", "font-bold", "text-lg"] ∧
      replaceClass (replaceClass spacedClasses "text-" "text-lg") "text-" "text-base" =
        "btn font-bold text-base" ∧
      (classesOf (replaceClass (replaceClass spacedClasses "text-" "text-lg") "font-"
        "font-thin")).Perm ["btn", "font-thin", "text-lg"] := by
  have hlarge : IsClassFor "text-" "text-lg" := ⟨by decide, by decide⟩
  have hbase : IsClassFor "text-" "text-base" := ⟨by decide, by decide⟩
  have hthin : IsClassFor "font-" "font-thin" := ⟨by decide, by decide⟩
  obtain ⟨hclasses, _, _, hlast, horder⟩ := replaceClass_takesPlace hlarge spacedClasses
  refine ⟨hlarge, hbase, hthin, by decide, by decide, hclasses.trans (by decide),
    (hlast "text-base" hbase).trans (by decide), ?_⟩
  have hother : classesOf (replaceClass (replaceClass spacedClasses "font-" "font-thin") "text-"
      "text-lg") = ["btn", "font-thin", "text-lg"] := by decide
  exact hother ▸ horder "font-" "font-thin" hthin (by decide) (by decide)

end EditableMarkup.Panel
