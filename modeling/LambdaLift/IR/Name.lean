/-
  LambdaLift.IR.Name
  **NAMES.**

  A name was written by a programmer or provided by the compiler.  The
  second kind is *special*: it prints between angle brackets, and a
  declaration that bears one is anonymous.
-/
namespace LambdaLift

/-- The name of a declaration or a value.  Written names sort before special ones, each kind by its
characters. -/
inductive Name where
  /-- a name out of the program text -/
  | ident (text : String)
  /-- a name that the compiler provides -/
  | special (text : String)
  deriving DecidableEq, Repr, Ord, Inhabited

namespace Name

/-- The receiver of a class or of an extension. -/
def this : Name := .special "this"

/-- A lambda. -/
def anonymous : Name := .special "anonymous"

/-- An anonymous object. -/
def unnamed : Name := .special "no name provided"

/-- A constructor. -/
def init : Name := .special "init"

/-- Whether the compiler provided the name. -/
def isSpecial : Name → Bool
  | .ident _ => false
  | .special _ => true

/-- The name without the brackets of special names. -/
def plain : Name → String
  | .ident text => text
  | .special text => text

/-- The name as it prints. -/
def display : Name → String
  | .ident text => text
  | .special text => "<" ++ text ++ ">"

/-- Names in ascending order. -/
def sort (names : List Name) : List Name :=
  names.mergeSort fun a b => (compare a b).isLE

end Name

end LambdaLift
