/-
  LambdaLift.IR.Value
  **VALUES: WHAT A READ CAN TARGET.**
-/
import LambdaLift.IR.Name
import LambdaLift.IR.Ty

namespace LambdaLift

/-- The role of a value in the declaration that owns it. -/
inductive ValueKind where
  /-- a variable of a body -/
  | var (isMutable : Bool)
  /-- a parameter, with its position -/
  | param (index : Nat)
  /-- the instance that a member is called on -/
  | dispatchReceiver
  /-- the instance that an extension is called on -/
  | extensionReceiver
  deriving DecidableEq, Repr

/-- A variable, a parameter or a receiver. -/
structure Value where
  /-- its name -/
  name : Name
  /-- its type -/
  ty : Ty
  /-- the declaration that binds it -/
  owner : DeclId
  /-- its role there -/
  kind : ValueKind
  deriving DecidableEq, Repr

end LambdaLift
