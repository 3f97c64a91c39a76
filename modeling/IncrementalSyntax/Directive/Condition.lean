import IncrementalSyntax.Text.Identifier

/-!
# Conditions

The condition of a conditional directive is a formula over symbols. From loosest to tightest it is built
with `||`, with `&&`, with `==` and `!=`, with `!`, and with parentheses. Blanks and tabs may stand
between the parts.

## Main definitions

* `Condition`, `Condition.eval`: formulas and their values
* `Condition.parse?`: the formula that a text spells, if it spells one
-/

namespace IncrementalSyntax

/-- **Condition.** A formula over symbols. -/
inductive Condition where
  | const (value : Bool)
  | symbol (name : Text)
  | not (c : Condition)
  | eq (a b : Condition)
  | ne (a b : Condition)
  | and (a b : Condition)
  | or (a b : Condition)
  deriving DecidableEq, Repr

namespace Condition

/-- The value of a formula, given which symbols are defined. -/
def eval (defined : Text → Bool) : Condition → Bool
  | const b => b
  | symbol x => defined x
  | not c => !c.eval defined
  | eq a b => a.eval defined == b.eval defined
  | ne a b => a.eval defined != b.eval defined
  | and a b => a.eval defined && b.eval defined
  | or a b => a.eval defined || b.eval defined

/-- A reader takes a formula off the front of a text. -/
abbrev Reader := Text → Option (Condition × Text)

/-- The text without the blanks and tabs at its start. -/
def skipBlanks (t : Text) : Text := t.dropWhile fun c => c == ' ' || c == '\t'

/-- The rest of a text after blanks and the given characters; `none` if other characters come. -/
def eat? (word : List Char) (t : Text) : Option Text :=
  if word.isPrefixOf (skipBlanks t) then some ((skipBlanks t).drop word.length) else none

/-- How operators of one level are read: the operator at the front of a text, and the rest. -/
abbrev Operator := Text → Option ((Condition → Condition → Condition) × Text)

def orOperator : Operator := fun t => (eat? ['|', '|'] t).map fun r => (or, r)

def andOperator : Operator := fun t => (eat? ['&', '&'] t).map fun r => (and, r)

def equalityOperator : Operator := fun t =>
  match eat? ['=', '='] t with
  | some r => some (eq, r)
  | none => (eat? ['!', '='] t).map fun r => (ne, r)

/-- Operators and operands in turn, grouped to the left; `fuel` bounds the number of operators. -/
def chainFrom (operand : Reader) (operator : Operator) : Nat → Condition → Reader
  | 0, a, t => some (a, t)
  | fuel + 1, a, t =>
    match operator t with
    | none => some (a, t)
    | some (combine, r) =>
      match operand r with
      | none => none
      | some (b, r') => chainFrom operand operator fuel (combine a b) r'

/-- One level: operands with operators of the level between them. -/
def chain (operand : Reader) (operator : Operator) : Reader := fun t =>
  match operand t with
  | none => none
  | some (a, r) => chainFrom operand operator r.length a r

/-- The word at the front of a text, up to the first character that belongs to none. -/
def wordOf : Text → Text
  | [] => []
  | c :: t => if isWordStart c then c :: t.takeWhile isWordPart else []

/-- A constant or a symbol. -/
def atom : Reader := fun t =>
  let word := wordOf (skipBlanks t)
  let rest := (skipBlanks t).drop word.length
  if word = [] then none
  else if word = "true".toList then some (const true, rest)
  else if word = "false".toList then some (const false, rest)
  else some (symbol word, rest)

/-- A formula in parentheses, read by `inner`, or an atom. -/
def primary (inner : Reader) : Reader := fun t =>
  match eat? ['('] t with
  | none => atom t
  | some r =>
    match inner r with
    | none => none
    | some (c, r') => (eat? [')'] r').map fun r'' => (c, r'')

/-- The number of negations at the front of a text, and the rest. A `!` before a `=` is none. -/
def negations : Text → Nat × Text
  | [] => (0, [])
  | ' ' :: t => negations t
  | '\t' :: t => negations t
  | '!' :: '=' :: t => (0, '!' :: '=' :: t)
  | '!' :: t => ((negations t).1 + 1, (negations t).2)
  | c :: t => (0, c :: t)

/-- The formula under a number of negations. -/
def negate : Nat → Condition → Condition
  | 0, c => c
  | n + 1, c => not (negate n c)

/-- A primary formula after any number of negations. -/
def unary (inner : Reader) : Reader := fun t =>
  (primary inner (negations t).2).map fun p => (negate (negations t).1 p.1, p.2)

/-- A formula of the loosest level. Each level of parentheses takes one from `fuel`. -/
def formula : Nat → Reader
  | 0 => fun _ => none
  | fuel + 1 =>
    chain (chain (chain (unary (formula fuel)) equalityOperator) andOperator) orOperator

/-- The formula that a whole text spells. -/
def parse? (t : Text) : Option Condition :=
  match formula (t.length + 1) t with
  | some (c, r) => if skipBlanks r = [] then some c else none
  | none => none

end Condition

end IncrementalSyntax
