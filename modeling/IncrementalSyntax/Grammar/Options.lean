import IncrementalSyntax.Text.Basic

/-!
# Options of a parse

## Main definitions

* `LanguageVersion`: the versions of the language, which differ in whether there are records
* `Options`: what stays the same for a text and all texts edited out of it
* `EntryPoint`: what a text is taken for
-/

namespace IncrementalSyntax

/-- **Language version.** The versions in order. -/
inductive LanguageVersion where
  | seven | eight | nine | latest
  deriving DecidableEq, Repr

namespace LanguageVersion

def all : List LanguageVersion := [seven, eight, nine, latest]

/-- The label of a version. -/
def label : LanguageVersion → String
  | seven => "CSharp7"
  | eight => "CSharp8"
  | nine => "CSharp9"
  | latest => "Latest"

/-- The version with a label. -/
def ofLabel? (s : String) : Option LanguageVersion := all.find? (·.label == s)

/-- Whether `record` can begin a declaration. -/
def supportsRecords : LanguageVersion → Bool
  | seven | eight => false
  | nine | latest => true

end LanguageVersion

/-- **Options.** The version of the language and the symbols that are defined before the first line. -/
structure Options where
  version : LanguageVersion := .latest
  symbols : List Text := []
  deriving DecidableEq, Repr

/-- **Entry point.** What a text is taken for: a whole file, a member, a statement or an expression. -/
inductive EntryPoint where
  | compilationUnit | member | statement | expression
  deriving DecidableEq, Repr

namespace EntryPoint

/-- The entry points in order. -/
def all : List EntryPoint := [compilationUnit, member, statement, expression]

/-- The label of an entry point. -/
def label : EntryPoint → String
  | compilationUnit => "CompilationUnit"
  | member => "Member"
  | statement => "Statement"
  | expression => "Expression"

/-- The entry point with a label. -/
def ofLabel? (s : String) : Option EntryPoint := all.find? (·.label == s)

end EntryPoint

end IncrementalSyntax
