import IncrementalSyntax.Green.Basic
import IncrementalSyntax.Text.Quoted

/-!
# Dumps of green elements

Three ways to show a tree: an outline with one indented line for each element, a record that fits on one
line and shows the diagnostics as well, and a sketch that shows kinds and widths only.

## Main definitions

* `Green.outline`: the outline, with the range and the text of each token
* `Green.record`: the record
* `Green.sketch`: the sketch
-/

namespace IncrementalSyntax

/-- Texts in a row with a separator between them, in brackets. -/
def bracketed (items : List String) : String := "[" ++ String.intercalate ", " items ++ "]"

/-- The fields of a record after its name. -/
def fielded (name : String) (fields : List (String × String)) : String :=
  name ++ " \x7b " ++ String.intercalate ", " (fields.map fun f => f.1 ++ ": " ++ f.2) ++ " \x7d"

/-- A diagnostic as a record. -/
def Diagnostic.record (d : Diagnostic) : String :=
  fielded "Diagnostic"
    [("code", d.code.label),
      ("severity", match d.severity with | .error => "Error" | .warning => "Warning"),
      ("offset", toString d.offset),
      ("len", toString d.length),
      ("args", bracketed (d.args.map fun a => Text.quote a.toList))]

/-- A token as its kind, its width and its text with trivia, and its diagnostics if it has any. -/
def Leaf.record (l : Leaf) : String :=
  l.kind.label ++ "@" ++ toString l.width ++ " " ++ Text.quote l.fullText ++
    (if l.diagnostics.isEmpty then ""
      else " diagnostics=" ++ bracketed (l.diagnostics.map Diagnostic.record))

namespace Green

mutual

/-- The tree on one line. -/
def record : Green → String
  | token t => t.leaf.record
  | node h cs =>
    fielded "GreenNode"
      [("kind", h.kind.label), ("full_width", toString h.width), ("children", bracketed (records cs))]

/-- The records of elements in a row. -/
def records : List Green → List String
  | [] => []
  | c :: cs => c.record :: records cs

end

/-- The start of an outline line: two blanks for each level, then the kind and the range. -/
def outlineHead (depth : Nat) (label : String) (start width : Nat) : String :=
  String.ofList (List.replicate (2 * depth) ' ') ++ label ++ "@" ++ (Range.mk start width).render

mutual

/-- The outline lines of an element at a depth and an offset. -/
def outlineFrom (depth start : Nat) : Green → String
  | token t =>
    outlineHead depth t.leaf.kind.label start t.leaf.width ++ " " ++ Text.quote t.leaf.text ++ "\n"
  | node h cs => outlineHead depth h.kind.label start h.width ++ "\n" ++ outlineAll (depth + 1) start cs

/-- The outline lines of elements in a row, the first of them at the offset. -/
def outlineAll (depth start : Nat) : List Green → String
  | [] => ""
  | c :: cs => outlineFrom depth start c ++ outlineAll depth (start + c.width) cs

end

/-- The outline of a tree. -/
def outline (g : Green) : String := g.outlineFrom 0 0

/-- A sign with a number behind it, or nothing for the number zero. -/
def counted (sign : String) (n : Nat) : String := if n = 0 then "" else sign ++ toString n

mutual

/-- The tree as kinds with parentheses around the children of a node. A token has its width behind a
colon, and a `!` if it is missing; `*` counts diagnostics and `@` annotations. -/
def sketch : Green → String
  | token t =>
    t.leaf.kind.label ++ ":" ++ toString t.leaf.width ++ (if t.leaf.missing then "!" else "") ++
      counted "*" t.leaf.diagnostics.length ++ counted "@" t.leaf.annotations.length
  | node h cs =>
    h.kind.label ++ counted "@" h.annotations.length ++ "(" ++ String.intercalate " " (sketches cs) ++ ")"

/-- The sketches of elements in a row. -/
def sketches : List Green → List String
  | [] => []
  | c :: cs => c.sketch :: sketches cs

end

end Green

end IncrementalSyntax
