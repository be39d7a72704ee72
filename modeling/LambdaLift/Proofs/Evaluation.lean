/-
  LambdaLift.Proofs.Evaluation
  **EVALUATION OF PROGRAMS THAT CONSIST OF FUNCTIONS.**

  An activation of a function has a place of its own for its parameters,
  its extension receiver and its variables, and it is linked to the
  activation of the function around it.  Reading and writing a value go
  along the links to the activation of the function that owns it.  A
  variable that nothing was assigned to reads as the unit value, and a
  declaration in statement position does nothing.

  Arguments are evaluated in the order of the operands, receivers first.
  A return leaves the most recent activation of its target.  Classes,
  fields, references to callables and delegated variables are outside of
  the fragment: evaluation is stuck there.

  Fuel bounds how deep evaluation nests, at every node alike.
-/
import Mathlib
import LambdaLift.IR.Program

namespace LambdaLift

/-! ## §1. Activations and stores. -/

/-- What literals and operators mean, and which values count as true. -/
structure Meaning (V : Type) where
  unit : V
  literal : Literal → V
  binary : BinOp → V → V → V
  holds : V → Bool

/-- How evaluation leaves an expression without a value. -/
inductive Exit (V : Type) where
  /-- on the way to an activation of the target -/
  | returned (target : DeclId) (value : V)
  | stuck
  /-- the fuel is used up -/
  | endless

/-- An activation: its function and its place in the store, then the same for the activation that it
is linked to, and so on outwards. -/
abbrev Activation := List (DeclId × Nat)

/-- What the places hold. -/
structure Store (V : Type) where
  /-- the place of the next activation -/
  next : Nat
  cells : Nat → ValueId → V

namespace Store

variable {V : Type}

/-- Overwrites a value in one place. -/
def set (σ : Store V) (place : Nat) (v : ValueId) (x : V) : Store V :=
  { σ with cells := Function.update σ.cells place (Function.update (σ.cells place) v x) }

/-- Takes the next place. -/
def push (σ : Store V) (cells : ValueId → V) : Store V :=
  { next := σ.next + 1, cells := Function.update σ.cells σ.next cells }

end Store

/-- A computation over a store. -/
abbrev Eval (V : Type) := EStateM (Exit V) (Store V)

/-! ## §2. Steps. -/

/-- The place of a value: that of its owner's activation. -/
def Program.place? (p : Program) (act : Activation) (v : ValueId) : Option Nat :=
  (p.values.get? v).bind fun value => act.lookup value.owner

namespace Eval

variable {V : Type}

/-- Reads a value. -/
def read (p : Program) (act : Activation) (v : ValueId) : Eval V V :=
  match p.place? act v with
  | some place => return (← get).cells place v
  | none => throw .stuck

/-- Writes a value. -/
def write (p : Program) (act : Activation) (v : ValueId) (x : V) : Eval V PUnit :=
  match p.place? act v with
  | some place => modify (·.set place v x)
  | none => throw .stuck

/-- The activation that a function which stands in `parent` is linked to when it is called. -/
def link? (act : Activation) : (parent : Option DeclId) → Option Activation
  | none => some []
  | some d =>
    match act.dropWhile (·.1 ≠ d) with
    | [] => none
    | link => some link

/-- What an activation holds at first. -/
def initial (m : Meaning V) (f : FunctionDecl) (receiver : Option V) (args : List V)
    (v : ValueId) : V :=
  ((f.extensionReceiver.toList.zip receiver.toList ++ f.params.zip args).lookup v).getD m.unit

/-- A new activation of a function. -/
def enter (m : Meaning V) (act : Activation) (d : DeclId) (f : FunctionDecl)
    (receiver : Option V) (args : List V) : Eval V Activation :=
  match link? act f.parent with
  | some link => modifyGet fun σ => ((d, σ.next) :: link, σ.push (initial m f receiver args))
  | none => throw .stuck

/-- A return that leaves `d` ends here. -/
def catching (d : DeclId) (x : Eval V V) : Eval V V := fun σ =>
  match x σ with
  | .error (.returned target value) σ' =>
    if target = d then .ok value σ' else .error (.returned target value) σ'
  | result => result

/-- Evaluates an expression that may be absent. -/
def optional (m : Meaning V) (inside : ExprId → Eval V V) : Option ExprId → Eval V V
  | some e => inside e
  | none => return m.unit

/-- Calls a function, given how code is evaluated. -/
def invoke (m : Meaning V) (inside : Activation → ExprId → Eval V V) (act : Activation) (d : DeclId)
    (f : FunctionDecl) (receiver : Option V) (args : List V) : Eval V V := do
  let inner ← enter m act d f receiver args
  catching d (optional m (inside inner) f.body)

/-- A receiver and arguments fit a function that takes as many. -/
def fits {α β : Type} (f : FunctionDecl) (receiver : Option α) (args : List β) : Bool :=
  receiver.isSome = f.extensionReceiver.isSome ∧ args.length = f.params.length

/-- Evaluates a receiver and arguments, and passes them to a function. -/
def pass (m : Meaning V) (inside : Activation → ExprId → Eval V V) (act : Activation) (d : DeclId)
    (f : FunctionDecl) (receiver : Option ExprId) (args : List ExprId) : Eval V V := do
  let receiver ← receiver.mapM (inside act)
  let args ← args.mapM (inside act)
  invoke m inside act d f receiver args

/-- Evaluates a call. -/
def call (m : Meaning V) (p : Program) (inside : Activation → ExprId → Eval V V)
    (act : Activation) (a : Access) : Eval V V :=
  match a.dispatch, a.args.mapM id, p.decls.get? a.callee with
  | none, some args, some (.function f) =>
    if fits f a.extension args then pass m inside act a.callee f a.extension args else throw .stuck
  | _, _, _ => throw .stuck

/-- Evaluates a node, given how other expressions are evaluated. -/
def node (m : Meaning V) (p : Program) (inside : Activation → ExprId → Eval V V)
    (act : Activation) (e : ExprId) : Expr → Eval V V
  | .lit value => return m.literal value
  | .get v => read p act v
  | .set v source => do
    write p act v (← inside act source)
    return m.unit
  | .var v init => do
    write p act v (← optional m (inside act) init)
    return m.unit
  | .decl _ => return m.unit
  | .access .call a => call m p inside act a
  | .ret target value => do throw (.returned target (← inside act value))
  | .block stmts => stmts.foldlM (fun _ s => inside act s) m.unit
  | .branch cond thenE elseE => do
    if m.holds (← inside act cond) then inside act thenE else optional m (inside act) elseE
  | .loop cond body => do
    -- the loop itself comes next, with less fuel
    if m.holds (← inside act cond) then inside act body >>= fun _ => inside act e else return m.unit
  | .binary op lhs rhs => return m.binary op (← inside act lhs) (← inside act rhs)
  | _ => throw .stuck

end Eval

/-! ## §3. Runs. -/

namespace Program

variable {V : Type}

/-- Evaluates an expression. -/
def eval (m : Meaning V) (p : Program) : (fuel : Nat) → Activation → ExprId → Eval V V
  | 0, _, _ => throw .endless
  | fuel + 1, act, e =>
    match p.exprs.get? e with
    | some node => Eval.node m p (p.eval m fuel) act e node
    | none => throw .stuck

/-- What a run comes to. -/
inductive Outcome (V : Type) where
  | value (v : V)
  | stuck
  | endless
  deriving DecidableEq

/-- What evaluation comes to.  A return that no activation takes leads nowhere. -/
def Outcome.ofResult : EStateM.Result (Exit V) (Store V) V → Outcome V
  | .ok v _ => .value v
  | .error .endless _ => .endless
  | .error _ _ => .stuck

/-- Calls a function from outside of the program. -/
def run (m : Meaning V) (p : Program) (fuel : Nat) (d : DeclId) (receiver : Option V)
    (args : List V) : Outcome V :=
  match p.decls.get? d with
  | some (.function f) =>
    if Eval.fits f receiver args then
      .ofResult (Eval.invoke m (p.eval m fuel) [] d f receiver args
        { next := 0, cells := fun _ _ => m.unit })
    else .stuck
  | _ => .stuck

end Program

end LambdaLift
