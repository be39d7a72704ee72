/-
  LambdaLift.Scope
  **SCOPES AND WHAT IS EXTERNAL TO THEM.**

  A value that is used inside a scope and bound outside of it is captured.
  What counts as outside differs by kind of scope: a callable binds the
  values it owns and the receivers it is called on; a class binds
  everything that is owned by something inside it.
-/
import LambdaLift.Data.OrderedSet
import LambdaLift.IR.Program

namespace LambdaLift

/-- The values that a declaration uses and does not bind, in the order of their first use. -/
abbrev Closure := OrderedSet ValueId

/-- A scope that captures are collected for. -/
inductive Scope where
  /-- a function or a constructor, with the receivers that it binds besides its own values -/
  | callable (decl : DeclId) (dispatch extension enclosing : Option ValueId)
  /-- a class -/
  | cls (decl : DeclId)
  deriving DecidableEq, Repr

namespace Scope

/-- The declaration that opens the scope. -/
def decl : Scope → DeclId
  | .callable decl .. => decl
  | .cls decl => decl

/-- The instance around an inner class, which its constructors bind. -/
def enclosingInstance (p : Program) : Declaration → Except Fault (Option ValueId)
  | .constructor { parent := some parent, .. } => do
    match ← p.decl parent with
    | .cls { isInner := true, parent := some outer, .. } =>
      return (← p.decl outer).cls?.map (·.this)
    | _ => return none
  | _ => return none

/-- The scope of a function or a constructor. -/
def ofCallable (p : Program) (d : DeclId) : Except Fault Scope := do
  let decl ← p.decl d
  return .callable d decl.dispatchReceiver decl.extensionReceiver (← enclosingInstance p decl)

/-- The scope that a declaration opens.  Properties and fields open none. -/
def ofDeclaration? (p : Program) (d : DeclId) : Declaration → Except Fault (Option Scope)
  | .function _ | .constructor _ => some <$> ofCallable p d
  | .cls _ => return some (.cls d)
  | .property _ | .field _ => return none

/-- Whether a value that is used in the scope is bound outside of it. -/
def isExternal (p : Program) (v : ValueId) : Scope → Except Fault Bool
  | .callable decl dispatch extension enclosing => do
    let owner ← p.owner v
    return owner ≠ decl && !([dispatch, extension, enclosing].contains (some v))
  | .cls decl => do
    -- members and their locals belong to the class, however deep they stand
    let inside ← (p.chain (← p.owner v)).any fun d _ => d = decl
    return !inside

/-- Adds a used value to what the scope captures, if it is external. -/
def capture (p : Program) (s : Scope) (captured : Closure) (v : ValueId) :
    Except Fault Closure := do
  if ← s.isExternal p v then return captured.insert v else return captured

/-- Adds what a nested scope captures, except what this scope owns. -/
def absorb (p : Program) (s : Scope) (captured nested : Closure) : Except Fault Closure := do
  -- only ownership counts here: a receiver that this scope merely binds is passed on
  let passed ← nested.toList.filterM fun v => return (← p.owner v) ≠ s.decl
  return captured.insertAll passed

end Scope

end LambdaLift
