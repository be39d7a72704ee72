/-
  LambdaLift.Relocation
  **WHERE EVERYTHING WENT.**

  Lifting gives each local declaration a replacement at the level of its
  root.  A relocation records the replacements, the counterparts of
  parameters and receivers, which captured value each added parameter
  carries, and how the code of each replacement reads what it captured: a
  callable from a parameter, a class from a field of its instance.
-/
import LambdaLift.Data.Bijection
import LambdaLift.IR.Program

namespace LambdaLift

/-! ## §1. Reading captured values. -/

/-- What carries a captured value into lifted code. -/
inductive Carrier where
  /-- a parameter -/
  | param (param : ValueId)
  /-- a field of the receiver -/
  | field (field : DeclId) (this : ValueId)
  deriving DecidableEq, Repr

/-- How the code of a lifted declaration reads the values it captured. -/
inductive Context where
  /-- by parameters, for functions and constructors -/
  | params (captured : OrderedMap ValueId ValueId)
  /-- by fields of the new receiver, for classes -/
  | fields (this : ValueId) (captured : OrderedMap ValueId DeclId)
  deriving DecidableEq

namespace Context

/-- What carries a captured value. -/
def carrier? (c : Context) (v : ValueId) : Option Carrier :=
  match c with
  | .params captured => (captured.get? v).map .param
  | .fields this captured => (captured.get? v).map (.field · this)

end Context

/-- The node that reads from a carrier.  A field is read from its receiver, which is a node of its
own. -/
def Carrier.read : Carrier → Program → Expr × Program
  | .param v, p => (.get v, p)
  | .field f this, p =>
    let (receiver, p) := p.allocExpr (.get this)
    (.getField f (some receiver), p)

/-! ## §2. Replacements and counterparts. -/

/-- What lifting the declarations below one root has moved where. -/
structure Relocation where
  /-- the replacement of each declaration -/
  decls : OrderedMap DeclId DeclId := .empty
  /-- the counterparts of parameters and receivers -/
  values : Bijection ValueId ValueId := .empty
  /-- the captured value that each added parameter carries -/
  carried : OrderedMap ValueId ValueId := .empty
  /-- how each replacement reads what it captured, by the declaration it replaces -/
  contexts : OrderedMap DeclId Context := .empty
  deriving DecidableEq, Inhabited

namespace Relocation

/-- The replacement of a declaration, if it has one. -/
def get? (r : Relocation) (d : DeclId) : Option DeclId := r.decls.get? d

/-- The replacement of a declaration, or the declaration itself. -/
def retarget (r : Relocation) (d : DeclId) : DeclId := (r.get? d).getD d

/-- The replacement of a declaration that has to have one. -/
def lifted (r : Relocation) (d : DeclId) : Except Fault DeclId :=
  match r.get? d with
  | some new => .ok new
  | none => .error (.violation .notRelocated d)

/-- The context of a declaration that has to have one. -/
def context (r : Relocation) (d : DeclId) : Except Fault Context :=
  match r.contexts.get? d with
  | some c => .ok c
  | none => .error (.violation .noContext d)

end Relocation

end LambdaLift
