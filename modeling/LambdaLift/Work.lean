/-
  LambdaLift.Work
  **STEPS THAT CHANGE A PROGRAM IN PLACE.**

  Lifting changes a program step by step and may stop half-way.  What it
  changed up to there stays: a step that faults still answers with the
  program and the reports as it left them.
-/
import LambdaLift.Event
import LambdaLift.IR.Program

namespace LambdaLift

/-- A program that is worked on, and what was reported so far. -/
structure Work where
  program : Program
  events : List Event := []
  deriving Inhabited

/-- A step of the work.  A fault keeps the state. -/
abbrev Step := EStateM Fault Work

namespace Step

/-- A question about the program, asked inside a step. -/
instance : MonadLift (Except Fault) Step where
  monadLift
    | .ok a => pure a
    | .error f => throw f

/-! ## §1. Looking. -/

/-- The program as it is now. -/
def program : Step Program := return (← get).program

/-- The declaration under a handle. -/
def decl (d : DeclId) : Step Declaration := do (← program).decl d

/-- The value under a handle. -/
def value (v : ValueId) : Step Value := do (← program).value v

/-- The expression under a handle. -/
def expr (e : ExprId) : Step Expr := do (← program).expr e

/-! ## §2. Changing. -/

/-- Changes the program and answers. -/
def change {α : Type} (f : Program → α × Program) : Step α :=
  modifyGet fun w => let (a, p) := f w.program; (a, { w with program := p })

/-- Adds a declaration. -/
def addDecl (d : Declaration) : Step DeclId := change (·.allocDecl d)

/-- Adds a value. -/
def addValue (v : Value) : Step ValueId := change (·.allocValue v)

/-- Adds an expression. -/
def addExpr (e : Expr) : Step ExprId := change (·.allocExpr e)

/-- Overwrites an expression. -/
def setExpr (e : ExprId) (node : Expr) : Step Unit := change fun p => ((), p.setExpr e node)

/-- Changes a declaration that has to be there. -/
def modifyDecl (d : DeclId) (f : Declaration → Declaration) : Step Unit := do
  let p ← (← program).modifyDecl d f
  change fun _ => ((), p)

/-- Changes a value that has to be there. -/
def modifyValue (v : ValueId) (f : Value → Value) : Step Unit := do
  let p ← (← program).modifyValue v f
  change fun _ => ((), p)

/-! ## §3. Reporting. -/

/-- Reports events. -/
def report (es : List Event) : Step Unit := modify fun w => { w with events := w.events ++ es }

/-- Reports that a root finished a stage. -/
def reportStage (stage : Stage) (root : DeclId) : Step Unit := do
  report [.stage stage (← decl root).name]

end Step

end LambdaLift
