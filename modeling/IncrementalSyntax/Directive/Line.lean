import IncrementalSyntax.Directive.Condition
import IncrementalSyntax.Directive.State
import IncrementalSyntax.Diagnostic.Basic
import IncrementalSyntax.Kind.Basic
import IncrementalSyntax.Text.Blank

/-!
# Directive lines

A directive is a line that starts with `#`, blanks and a name. It moves the directive state and may be
wrong in itself or at its place.

## Main definitions

* `DirectiveLine.name`, `DirectiveLine.rest`: the parts of a line
* `DirectiveLine.isConditional`: the lines that count even where text is not compiled
* `DirectiveLine.process`: what a line does in a state
-/

namespace IncrementalSyntax

namespace DirectiveLine

/-- What stands after the `#` and the blanks and tabs behind it. -/
def body (line : Text) : Text :=
  Condition.skipBlanks (match line with
    | '#' :: t => t
    | t => t)

/-- The name of the directive: the ASCII letters after the `#`. -/
def name (line : Text) : Text := (body line).takeWhile Char.isAlpha

/-- What stands after the name. -/
def rest (line : Text) : Text := (body line).dropWhile Char.isAlpha

/-- The offset at which the name ends. -/
def nameEnd (line : Text) : Nat := Text.width line - Text.width (rest line)

/-- A line whose directive is one of those that make up conditionals. -/
def isConditional (line : Text) : Bool :=
  line.head? == some '#' &&
    ["if".toList, "elif".toList, "else".toList, "endif".toList].contains (name line)

/-- The text before the first `//`. -/
def withoutComment : Text → Text
  | '/' :: '/' :: _ => []
  | c :: t => c :: withoutComment t
  | [] => []

/-- Whether a text is one symbol. -/
def isSymbol : Text → Bool
  | [] => false
  | c :: t => isWordStart c && t.all isIdentifierPart

/-- **Outcome.** The kind of a directive line, the state after it, and what is wrong with it, in offsets
from the `#`. -/
structure Outcome where
  kind : DirectiveKind
  state : DirectiveState
  diagnostics : List Diagnostic := []

/-- A diagnostic that covers the line. -/
def complain (line : Text) (code : Code) (args : List String := []) : List Diagnostic :=
  [.ofCode code 0 (Text.width line) args]

/-- The value of the condition after the name. A condition that cannot be read is false and reported. -/
def condition (line : Text) (s : DirectiveState) : Bool × List Diagnostic :=
  let text := withoutComment (rest line)
  match Condition.parse? text with
  | some c => (c.eval s.isDefined, [])
  | none => (false, [.ofCode .badCondition (nameEnd line) (Text.width text.trimEnd) []])

def processIf (line : Text) (s : DirectiveState) : Outcome :=
  let value := condition line s
  ⟨.ifDir, s.enter (.conditional value.1 value.1 false), value.2⟩

/-- A further branch is compiled if no branch was before and its condition holds. -/
def processElif (line : Text) (s : DirectiveState) : Outcome :=
  match s.frames.head? with
  | some (.conditional _ taken false) =>
    let value := condition line s
    ⟨.elifDir, s.revise (.conditional (!taken && value.1) (taken || value.1) false), value.2⟩
  | _ => ⟨.elifDir, s, complain line .strayDirective⟩

/-- The last branch is compiled if no branch was before. -/
def processElse (line : Text) (s : DirectiveState) : Outcome :=
  match s.frames.head? with
  | some (.conditional _ taken false) => ⟨.elseDir, s.revise (.conditional (!taken) true true), []⟩
  | _ => ⟨.elseDir, s, complain line .strayDirective⟩

def processEndif (line : Text) (s : DirectiveState) : Outcome :=
  match s.frames.head? with
  | some (.conditional ..) => ⟨.endifDir, s.leave, []⟩
  | some .region => ⟨.endifDir, s, complain line .closerExpected ["#endregion"]⟩
  | none => ⟨.endifDir, s, complain line .strayDirective⟩

def processEndregion (line : Text) (s : DirectiveState) : Outcome :=
  match s.frames.head? with
  | some .region => ⟨.endregion, s.leave, []⟩
  | some (.conditional ..) => ⟨.endregion, s, complain line .closerExpected ["#endif"]⟩
  | none => ⟨.endregion, s, complain line .strayDirective⟩

/-- The symbol that a line defines or undefines. -/
def symbolOf (line : Text) : Text := (withoutComment (rest line)).trim

def processDefine (line : Text) (s : DirectiveState) : Outcome :=
  if isSymbol (symbolOf line) then ⟨.define, s.define (symbolOf line), []⟩
  else ⟨.define, s, complain line .identifierExpected⟩

def processUndef (line : Text) (s : DirectiveState) : Outcome :=
  if isSymbol (symbolOf line) then ⟨.undef, s.undefine (symbolOf line), []⟩
  else ⟨.undef, s, complain line .identifierExpected⟩

/-- The message that a line asks to report. -/
def messageOf (line : Text) : String := String.ofList (rest line).trim

/-- What a directive line, without its line terminator, does in a state. -/
def process (line : Text) (s : DirectiveState) : Outcome :=
  let is (word : String) : Bool := name line = word.toList
  if is "if" then processIf line s
  else if is "elif" then processElif line s
  else if is "else" then processElse line s
  else if is "endif" then processEndif line s
  else if is "region" then ⟨.region, s.enter .region, []⟩
  else if is "endregion" then processEndregion line s
  else if is "define" then processDefine line s
  else if is "undef" then processUndef line s
  else if is "error" then ⟨.error, s, complain line .reportedError [messageOf line]⟩
  else if is "warning" then ⟨.warning, s, complain line .reportedWarning [messageOf line]⟩
  else ⟨.bad, s, complain line .unknownDirective⟩

end DirectiveLine

end IncrementalSyntax
