/-
  LambdaLift.WellFormed
  **THE CHECK OF A FINISHED PROGRAM.**

  A program is fit for what comes after lifting when

  - every declaration that the module lists, directly or through classes
    and properties, is listed once (`Finding.redeclared`);
  - every reference leads to a listed declaration (`Finding.undeclared`);
  - every value is used where it is visible (`Finding.outOfScope`);
  - no body places a declaration (`Finding.residual`).

  The check lists the declarations first, then walks over the code of each
  in listing order, and reports everything it finds.
-/
import LambdaLift.Data.OrderedSet
import LambdaLift.IR.Tree

namespace LambdaLift

/-! ## §1. Listing the declarations. -/

/-- The listed declarations in order, and what was found while listing them. -/
structure Listing where
  declared : OrderedSet DeclId := .empty
  findings : List Finding := []

/-- The declarations that a declaration lists in turn. -/
def Declaration.listed : Declaration → List DeclId
  | .cls c => c.members
  | .property q => q.backingField.toList ++ q.getter.toList ++ q.setter.toList
  | _ => []

namespace Program

/-- Lists a declaration and what it lists in turn.  One that is listed already is a finding, and
what it lists is not visited again: so each visit that goes on leaves fewer entries to list, and a
circle of members ends. -/
def list (p : Program) : (fuel : Nat) → DeclId → Listing → Except Fault Listing
  | 0, _, _ => .error .endless
  | fuel + 1, d, l =>
    if l.declared.contains d then .ok { l with findings := l.findings ++ [.redeclared d] }
    else do
      let decl ← p.decl d
      decl.listed.foldlM (fun l member => p.list fuel member l)
        { l with declared := l.declared.insert d }

/-- All declarations that the module lists. -/
def listing (p : Program) : Except Fault Listing :=
  p.top.foldlM (fun l d => p.list (p.decls.size + 1) d l) {}

/-! ## §2. Visibility. -/

/-- The values that are visible where the code of a declaration begins: the receivers of the classes
around it, its own receivers and its parameters.  An initializer runs as part of the primary
constructor of its class. -/
def visible (p : Program) (d : DeclId) : Except Fault (List ValueId) := do
  -- the receiver of a class is visible to everything that stands inside it
  let receivers := (← (p.chain d).toList).filterMap fun s => s.2.cls?.map (·.this)
  match ← p.decl d with
  | .field { parent := some cls, .. } =>
    match ← p.primaryConstructor? cls with
    | some primary => return receivers ++ (← p.decl primary).params
    | none => return receivers
  | decl =>
    return receivers ++ decl.dispatchReceiver.toList ++ decl.extensionReceiver.toList ++ decl.params

end Program

/-! ## §3. Walking over code. -/

/-- The visible values, and what was found so far. -/
structure Walk where
  scope : List ValueId
  findings : List Finding := []

namespace Walk

/-- What is wrong with a node by itself, where these values are visible. -/
def findingsAt (declared : OrderedSet DeclId) (source : DeclId)
    (scope : List ValueId) (node : Expr) : List Finding :=
  let used := node.used?.toList.filter fun v => !scope.contains v
  let referents := node.referent?.toList.filter fun d => !declared.contains d
  let placed := match node with
    | .decl d => [d]
    | _ => []
  used.map (.outOfScope · source) ++ referents.map (.undeclared · source)
    ++ placed.map (.residual · source)

/-- The values visible after a node.  A block takes its variables with it; a variable is visible
from the end of its own node on. -/
def scopeAfter (node : Expr) (before after : List ValueId) : List ValueId :=
  match node with
  | .block _ => after.take before.length
  | node => after ++ node.bound?.toList

/-- Walks over a body.  Code is made of expressions only. -/
def visitor (declared : OrderedSet DeclId) (source : DeclId) : Visitor Walk
  | .expr _ node, below, w => do
    -- a node is judged before its operands, by what is visible where it begins
    let found := findingsAt declared source w.scope node
    let inner ← below { w with findings := w.findings ++ found }
    return { inner with scope := scopeAfter node w.scope inner.scope }
  | _, _, w => .ok w

end Walk

namespace Program

/-- What is wrong with the code of a declaration. -/
def codeFindings (p : Program) (declared : OrderedSet DeclId) (d : DeclId) :
    Except Fault (List Finding) := do
  let scope ← p.visible d
  match (← p.decl d).code with
  | none => return []
  | some e => return (← p.visit .body (Walk.visitor declared d) (.expr e) { scope }).findings

/-- Everything that is wrong with a program. -/
def findings (p : Program) : Except Fault (List Finding) := do
  let l ← p.listing
  return l.findings ++ (← l.declared.toList.mapM (p.codeFindings l.declared)).flatten

/-- Faults unless the program is well formed. -/
def check (p : Program) : Except Fault Unit := do
  let fs ← p.findings
  if fs.isEmpty then return () else throw (.illFormed fs)

end Program

end LambdaLift
