import IncrementalSyntax.Diagnostic.Code
import IncrementalSyntax.Kind.Basic
import IncrementalSyntax.Text.Identifier
import IncrementalSyntax.Token.Literal

/-!
# Raw tokens

A raw token is the text of a token without its trivia. The longest token that the text begins with is
taken, and a character that begins none is a bad token of its own.

## Main definitions

* `RawToken`: kind and text of a token, and what is wrong with it
* `RawToken.read`: the token at the front of a text
-/

namespace IncrementalSyntax

/-- **Raw token.** The kind and the text of a token, the text behind it, and the code of what is wrong
with it, if anything is. -/
structure RawToken where
  kind : TokenKind
  text : Text
  rest : Text
  code : Option Code := none
  deriving DecidableEq, Repr

namespace RawToken

/-- A word: a reserved one or an identifier. -/
def word (c : Char) (t : Text) : RawToken :=
  let text := c :: t.takeWhile isIdentifierPart
  ⟨(TokenKind.ofWord? text).getD .ident, text, t.dropWhile isIdentifierPart, none⟩

/-- A number: digits, and a fraction if a point and at least one digit follow. -/
def number (c : Char) (t : Text) : RawToken :=
  let whole := c :: t.takeWhile Char.isDigit
  match t.dropWhile Char.isDigit with
  | '.' :: d :: r =>
    if d.isDigit then
      ⟨.literal .real, whole ++ '.' :: d :: r.takeWhile Char.isDigit, r.dropWhile Char.isDigit, none⟩
    else ⟨.literal .int, whole, '.' :: d :: r, none⟩
  | r => ⟨.literal .int, whole, r, none⟩

/-- A literal with its opening delimiter in front; `code` reports it if it is not closed. -/
def literal (kind : Literal) (opening : Text) (cut : Cut) (code : Code) : RawToken :=
  ⟨.literal kind, opening ++ cut.taken, cut.rest, if cut.closed then none else some code⟩

/-- A character literal, which must not be empty either. -/
def charLiteral (t : Text) : RawToken :=
  let r := literal .char ['\''] (Cut.char t) .badCharLiteral
  if r.text = ['\'', '\''] then { r with code := some .badCharLiteral } else r

/-- A character that begins no token. -/
def bad (c : Char) (t : Text) : RawToken := ⟨.bad, [c], t, some .invalidCharacter⟩

/-- A letter of ASCII or a low line. -/
def isPlainWordStart (c : Char) : Bool := c.isAlpha || c == '_'

/-- After an `@`: a verbatim string, or an identifier that is never a reserved word. -/
def afterAt : Text → RawToken
  | '"' :: t => literal .verbatim ['@', '"'] (Cut.verbatim t) .openString
  | c :: t =>
    if isPlainWordStart c then
      ⟨.ident, '@' :: c :: t.takeWhile isIdentifierPart, t.dropWhile isIdentifierPart, none⟩
    else bad '@' (c :: t)
  | [] => bad '@' []

/-- After a `$`: an interpolated string. -/
def afterDollar : Text → RawToken
  | '"' :: t => literal .interpolated ['$', '"'] (Cut.interpolated .text t) .openString
  | t => bad '$' t

/-- The longest punctuation token that a text begins with. -/
def punct? (t : Text) : Option Punct :=
  let fits (length : Nat) (p : Punct) : Bool :=
    p.spelling.toList.length = length && p.spelling.toList.isPrefixOf t
  match Punct.all.find? (fits 2) with
  | some p => some p
  | none => Punct.all.find? (fits 1)

/-- The token at the front of a text that begins with `c` and goes on with `t`. -/
def read (c : Char) (t : Text) : RawToken :=
  if isWordStart c then word c t
  else if c.isDigit then number c t
  else if c = '"' then literal .string ['"'] (Cut.string t) .openString
  else if c = '@' then afterAt t
  else if c = '$' then afterDollar t
  else if c = '\'' then charLiteral t
  else
    match punct? (c :: t) with
    | some p => ⟨.punct p, p.spelling.toList, (c :: t).drop p.spelling.toList.length, none⟩
    | none => bad c t

end RawToken

end IncrementalSyntax
