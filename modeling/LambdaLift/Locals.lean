/-
  LambdaLift.Locals
  **THE DECLARATIONS BELOW A ROOT.**

  Everything that is declared below a function or a constructor is sorted,
  nested declarations first, into four tables: functions and classes that
  stand in a body, which are to be lifted; constructors; and the other
  members of classes.  Anonymous functions and anonymous classes are
  numbered as they come, each kind by itself, from zero for each root.
-/
import LambdaLift.Data.OrderedMap
import LambdaLift.Data.OrderedSet
import LambdaLift.IR.Tree

namespace LambdaLift

/-! ## §1. The four tables. -/

/-- The declarations below a root, sorted. -/
structure Locals where
  /-- functions that stand in a body, with the number of an anonymous one -/
  functions : OrderedMap DeclId (Option Nat) := .empty
  /-- classes that stand in a body, with the number of an anonymous one -/
  classes : OrderedMap DeclId (Option Nat) := .empty
  /-- constructors -/
  constructors : OrderedSet DeclId := .empty
  /-- other members of classes, accessors included -/
  members : OrderedSet DeclId := .empty
  deriving DecidableEq, Inhabited

namespace Locals

/-- Whether there is nothing to lift. -/
def isEmpty (l : Locals) : Bool := l.functions.isEmpty && l.classes.isEmpty

/-- Whether a declaration is to be lifted. -/
def isLifted (l : Locals) (d : DeclId) : Bool := l.functions.contains d || l.classes.contains d

/-- The number of an anonymous function. -/
def lambdaIndex? (l : Locals) (d : DeclId) : Option Nat := (l.functions.get? d).join

/-- The number of an anonymous class. -/
def objectIndex? (l : Locals) (d : DeclId) : Option Nat := (l.classes.get? d).join

/-- The declarations to lift: functions, then classes. -/
def lifted (l : Locals) : List DeclId := l.functions.keys ++ l.classes.keys

/-- The tables while they are filled, with the next number of each kind. -/
structure Partial where
  locals : Locals := {}
  lambdas : Nat := 0
  objects : Nat := 0

/-- The number for a name: special names take the next one. -/
def number (name : Name) (next : Nat) : Option Nat := if name.isSpecial then some next else none

/-- The next number after a name. -/
def numberAfter (name : Name) (next : Nat) : Nat := if name.isSpecial then next + 1 else next

/-- Sorts one declaration into its table. -/
def Partial.add (t : Partial) (p : Program) (d : DeclId) (decl : Declaration) :
    Except Fault Partial := do
  let l := t.locals
  let isMember ← p.isMember d
  let member : Partial := { t with locals := { l with members := l.members.insert d } }
  match decl, isMember with
  | .function _, true => return member
  | .function f, false =>
    return { t with
      locals := { l with functions := l.functions.insert d (number f.name t.lambdas) }
      lambdas := numberAfter f.name t.lambdas }
  | .constructor _, true =>
    return { t with locals := { l with constructors := l.constructors.insert d } }
  | .constructor _, false => throw (.violation .strayConstructor d)
  | .cls c, true => if c.isInner then return member else throw (.violation .nestedNotInner d)
  | .cls c, false =>
    return { t with
      locals := { l with classes := l.classes.insert d (number c.name t.objects) }
      objects := numberAfter c.name t.objects }
  | .property _, true | .field _, true => return member
  | .property _, false | .field _, false => throw (.violation .strayMember d)

/-! ## §2. The walk. -/

/-- Sorts declarations after those nested in them.  A backing field is no declaration of its own: it
goes with its property, and only what its initializer declares is met. -/
def visitor (p : Program) : Visitor Partial
  | .expr _ _, below, t => below t
  | .decl d content, below, t => do (← below t).add p d content
  | .backing _ (.field _), below, t => below t
  -- a property may name what is no field; nothing is looked for there
  | .backing _ _, _, t => .ok t

end Locals

namespace Program

/-- The declarations below a root. -/
def locals (p : Program) (root : DeclId) : Except Fault Locals :=
  return (← p.visitBelow (Locals.visitor p) root {}).locals

end Program

end LambdaLift
