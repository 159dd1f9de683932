/-!
# Forms

What the grammar reads is kept as a form: markup, functions, blocks and the
literals that have a meaning of their own, each with the slice of the source
that it was read from.  Every other construct is a plain form, of which only
the slice and the forms inside matter.
-/

namespace EditableMarkup.Grammar

/-- A run of characters in a source: the source from its first character on, and its length. -/
structure Slice where
  source : List Char
  length : Nat

namespace Slice

/-- The characters of a slice. -/
def chars (slice : Slice) : List Char :=
  slice.source.take slice.length

/-- The text of a slice. -/
def text (slice : Slice) : String :=
  String.ofList slice.chars

/-- The slice that starts with this one and goes on for some characters. -/
def extend (slice : Slice) (more : Nat) : Slice :=
  { slice with length := slice.length + more }

end Slice

/-- The name of an element: one word, a path of words, or a word in a name space. -/
inductive ElementName where
  | simple (word : Slice)
  | path (first : Slice) (rest : List Slice)
  | spaced (space word : Slice)

namespace ElementName

/-- The name as it is compared: its words joined by points or by a colon. -/
def text : ElementName → String
  | simple word => word.text
  | path first rest => ".".intercalate (first.text :: rest.map Slice.text)
  | spaced space word => space.text ++ ":" ++ word.text

/-- The first word of the name. -/
def first : ElementName → Slice
  | simple word => word
  | path first _ => first
  | spaced space _ => space

end ElementName

/-- The key of a property in an object. -/
inductive Key (α : Type) where
  | word (slice : Slice)
  | quoted (slice : Slice)
  | number (slice : Slice)
  | computed (value : α)

/-- A member of an object. -/
inductive Member (α : Type) where
  | property (key : Key α) (value : α)
  | other (inside : List α)

/-- What an attribute is set to. -/
inductive Setting (α : Type) where
  | quoted (slice : Slice)
  | braces (value : α)
  | emptyBraces (slice : Slice)
  | markup (value : α)

/-- An attribute of an element. -/
inductive Attribute (α : Type) where
  | bare (name : Slice)
  | named (name : Slice) (setting : Setting α)
  | spaced (inside : List α)
  | spread (value : α)

/-- A child of an element or a fragment. -/
inductive Child (α : Type) where
  | text (slice : Slice)
  | markup (value : α)
  | braces (value : α)
  | emptyBraces
  | spread (value : α)

/-- A construct of the grammar. -/
inductive Form where
  | plain (slice : Slice) (inside : List Form)
  | string (slice : Slice)
  | number (slice : Slice)
  | boolean (slice : Slice)
  | signed (slice sign : Slice) (operand : Form)
  | group (slice : Slice) (inner : Form)
  | object (slice : Slice) (members : List (Member Form))
  | function (slice : Slice) (head : List Form) (body : Form)
  | block (slice : Slice) (statements : List Form)
  | returned (slice : Slice) (value : Form)
  | returnedNothing (slice : Slice)
  | element (slice : Slice) (name : ElementName) (attributes : List (Attribute Form))
      (children : List (Child Form)) (closing : ElementName)
  | selfClosed (slice : Slice) (name : ElementName) (attributes : List (Attribute Form))
  | fragment (slice : Slice) (children : List (Child Form))

namespace Form

/-- The part of the source that a form was read from. -/
def slice : Form → Slice
  | plain slice _ | string slice | number slice | boolean slice | signed slice _ _
  | group slice _ | object slice _ | function slice _ _ | block slice _ | returned slice _
  | returnedNothing slice | element slice _ _ _ _ | selfClosed slice _ _ | fragment slice _ => slice

/-- The source text of a form, word for word. -/
def text (form : Form) : String :=
  form.slice.text

/-- Elements and fragments are markup. -/
def isMarkup : Form → Bool
  | element .. | selfClosed .. | fragment .. => true
  | _ => false

/-- A form without the parentheses around it. -/
def unwrapped : Form → Form
  | group _ inner => inner.unwrapped
  | form => form

end Form

end EditableMarkup.Grammar
