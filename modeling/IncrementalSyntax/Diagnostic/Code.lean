/-!
# Diagnostic codes

Every diagnostic has a code, and the code decides the wording: a template whose places `{0}`, `{1}`, …
take the arguments of the diagnostic.

## Main definitions

* `Code`: what can be wrong with a text
* `Severity`: whether it makes the text invalid
* `Code.message`: the template of a code with its arguments filled in
-/

namespace IncrementalSyntax

/-- **Severity.** A warning leaves the text valid. -/
inductive Severity where
  | error | warning
  deriving DecidableEq, Repr

namespace Severity

/-- The word for a severity. -/
def label : Severity → String
  | error => "error"
  | warning => "warning"

end Severity

/-- **Code.** The kinds of diagnostics. -/
inductive Code where
  /-- A character that begins no token. -/
  | invalidCharacter
  /-- A string literal, of any form, that is not closed. -/
  | openString
  /-- A block comment that is not closed. -/
  | openComment
  /-- A character literal that is empty or not closed. -/
  | badCharLiteral
  | tokenExpected
  | identifierExpected
  | typeExpected
  | expressionExpected
  /-- The directive that closes an open one is missing. -/
  | closerExpected
  /-- A directive without the one that it continues or closes. -/
  | strayDirective
  /-- A condition or a symbol that cannot be read. -/
  | badCondition
  /-- A directive line without a known name. -/
  | unknownDirective
  /-- The program reports an error of its own. -/
  | reportedError
  /-- The program reports a warning of its own. -/
  | reportedWarning
  | unexpectedToken
  deriving DecidableEq, Repr

namespace Code

/-- The codes in order. -/
def all : List Code :=
  [invalidCharacter, openString, openComment, badCharLiteral, tokenExpected, identifierExpected,
    typeExpected, expressionExpected, closerExpected, strayDirective, badCondition,
    unknownDirective, reportedError, reportedWarning, unexpectedToken]

/-- The printed form of a code: the first two digits are its category. -/
def label : Code → String
  | invalidCharacter => "E0101"
  | openString => "E0102"
  | openComment => "E0103"
  | badCharLiteral => "E0104"
  | tokenExpected => "E0201"
  | identifierExpected => "E0301"
  | typeExpected => "E0302"
  | expressionExpected => "E0401"
  | closerExpected => "E0501"
  | strayDirective => "E0502"
  | badCondition => "E0503"
  | unknownDirective => "E0504"
  | reportedError => "E0505"
  | reportedWarning => "E0506"
  | unexpectedToken => "E0901"

/-- The code with a printed form. -/
def ofLabel? (s : String) : Option Code := all.find? (·.label == s)

/-- What the category of a code is called. -/
def category : Code → String
  | invalidCharacter | openString | openComment | badCharLiteral => "lexical error"
  | tokenExpected => "structural error"
  | identifierExpected | typeExpected => "declaration error"
  | expressionExpected => "expression error"
  | closerExpected | strayDirective | badCondition | unknownDirective | reportedError
  | reportedWarning => "preprocessor error"
  | unexpectedToken => "syntax error"

/-- Whether the scanner reports the code; the parser reports the others. -/
def isLexical : Code → Bool
  | tokenExpected | identifierExpected | typeExpected | expressionExpected | unexpectedToken => false
  | _ => true

/-- The severity of a code, unless a diagnostic says otherwise. -/
def severity : Code → Severity
  | reportedWarning => .warning
  | _ => .error

/-- The wording of a code, with places for the arguments. -/
def template : Code → String
  | invalidCharacter => "invalid character '\x7b0\x7d'"
  | openString => "unterminated string literal"
  | openComment => "unterminated block comment"
  | badCharLiteral => "invalid character literal"
  | tokenExpected => "\x7b0\x7d expected"
  | identifierExpected => "identifier expected"
  | typeExpected => "type expected"
  | expressionExpected => "expression expected"
  | closerExpected => "\x7b0\x7d directive expected"
  | strayDirective => "unexpected preprocessor directive"
  | badCondition => "invalid preprocessor expression"
  | unknownDirective => "preprocessor directive expected"
  | reportedError => "#error: '\x7b0\x7d'"
  | reportedWarning => "#warning: '\x7b0\x7d'"
  | unexpectedToken => "unexpected token \x7b0\x7d"

/-- The place of an argument in a template. -/
def placeholder (index : Nat) : List Char := '\x7b' :: (toString index).toList ++ ['\x7d']

/-- The text with every occurrence of `pattern`, from left to right, replaced. While the characters of an
occurrence are passed over, `skip` counts those that are left of it. -/
def substitute (pattern replacement : List Char) : Nat → List Char → List Char
  | _, [] => []
  | skip + 1, _ :: t => substitute pattern replacement skip t
  | 0, c :: t =>
    if pattern.isPrefixOf (c :: t) then
      replacement ++ substitute pattern replacement (pattern.length - 1) t
    else c :: substitute pattern replacement 0 t

/-- The arguments filled in one after the other, the first of them at `index`. -/
def fillFrom (index : Nat) (text : List Char) : List String → List Char
  | [] => text
  | arg :: args => fillFrom (index + 1) (substitute (placeholder index) arg.toList 0 text) args

/-- The wording of a code with its arguments. -/
def message (code : Code) (args : List String) : String :=
  String.ofList (fillFrom 0 code.template.toList args)

end Code

end IncrementalSyntax
