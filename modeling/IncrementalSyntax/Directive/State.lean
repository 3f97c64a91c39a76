import IncrementalSyntax.Text.Basic

/-!
# Directive states

Between two directives of a text a stack of frames is open, one for each `#if` or `#region` that has not
been closed, and some symbols are defined.

## Main definitions

* `Frame`, `DirectiveState`: the open frames and the defined symbols
* `DirectiveState.ofSymbols`: the state at the start of a text
* `DirectiveState.isActive`: whether text is compiled there
* `SymbolSet.insert`, `SymbolSet.erase`: the defined symbols stay sorted, each of them once
* `SymbolSet.search`: the lookup of a symbol among them
-/

namespace IncrementalSyntax

/-- **Frame.** An open region or conditional. Of a conditional, `active` tells whether the current branch
is compiled, `taken` whether any branch so far was, and `seenElse` whether the last branch has begun. -/
inductive Frame where
  | region
  | conditional (active taken seenElse : Bool)
  deriving DecidableEq, Repr

namespace Frame

/-- Whether the frame lets its text be compiled. -/
def isActive : Frame → Bool
  | region => true
  | conditional active _ _ => active

/-- The directive that closes a frame. -/
def closer : Frame → String
  | region => "#endregion"
  | conditional .. => "#endif"

end Frame

namespace SymbolSet

/-- A sorted list with one more symbol, at its place, unless it is there already. -/
def insert (x : Text) : List Text → List Text
  | [] => [x]
  | y :: ys => if x < y then x :: y :: ys else if x = y then y :: ys else y :: insert x ys

/-- A sorted list without a symbol. -/
def erase (x : Text) (symbols : List Text) : List Text := symbols.filter (· ≠ x)

/-- Whether a symbol is in a sorted list. Each round goes on in one half of the list, so `fuel` of them are
enough for a list of that length. -/
def search (x : Text) : Nat → List Text → Bool
  | 0, _ => false
  | fuel + 1, symbols =>
    match symbols.drop (symbols.length / 2) with
    | [] => false
    | y :: above =>
      if x = y then true
      else if x < y then search x fuel (symbols.take (symbols.length / 2))
      else search x fuel above

/-- The sorted list of some symbols. -/
def ofList (symbols : List Text) : List Text := symbols.foldl (fun s x => insert x s) []

end SymbolSet

/-- **Directive state.** The open frames, the innermost first, and the defined symbols in order. -/
structure DirectiveState where
  frames : List Frame := []
  symbols : List Text := []
  deriving DecidableEq, Repr

namespace DirectiveState

/-- The state at the start of a text, with some symbols defined beforehand. -/
def ofSymbols (symbols : List Text) : DirectiveState := ⟨[], SymbolSet.ofList symbols⟩

/-- Whether text is compiled here: no frame stands in the way. -/
def isActive (s : DirectiveState) : Bool := s.frames.all Frame.isActive

/-- Whether a symbol is defined: it is looked up among the sorted symbols by halving. -/
def isDefined (s : DirectiveState) (x : Text) : Bool := SymbolSet.search x s.symbols.length s.symbols

/-- The number of open frames. -/
def depth (s : DirectiveState) : Nat := s.frames.length

/-- The directive that would close the innermost frame. -/
def expectedCloser? (s : DirectiveState) : Option String := s.frames.head?.map Frame.closer

/-- Opens a frame. -/
def enter (s : DirectiveState) (f : Frame) : DirectiveState := { s with frames := f :: s.frames }

/-- Closes the innermost frame. -/
def leave (s : DirectiveState) : DirectiveState := { s with frames := s.frames.tail }

/-- Changes the innermost frame. -/
def revise (s : DirectiveState) (f : Frame) : DirectiveState :=
  { s with frames := f :: s.frames.tail }

def define (s : DirectiveState) (x : Text) : DirectiveState :=
  { s with symbols := SymbolSet.insert x s.symbols }

def undefine (s : DirectiveState) (x : Text) : DirectiveState :=
  { s with symbols := SymbolSet.erase x s.symbols }

end DirectiveState

end IncrementalSyntax
