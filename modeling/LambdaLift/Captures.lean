/-
  LambdaLift.Captures
  **WHAT EACH LOCAL DECLARATION CAPTURES.**

  A local declaration captures the external values it uses, and what the
  declarations nested in it capture and it does not own.  That is found in
  one walk.  A use of a local callable is a use of everything the callable
  captures, so closures also grow along references: each reference passes
  the closure of its callee to the scopes around it, from the innermost
  outwards, up to the scope that binds the value.  Passing is repeated
  until a whole round changes nothing.
-/
import LambdaLift.Data.OrderedMap
import LambdaLift.Event
import LambdaLift.IR.Tree
import LambdaLift.Scope

namespace LambdaLift

/-- The closure of each local declaration. -/
abbrev Closures := OrderedMap DeclId Closure

/-- A use of a callee that captures values. -/
structure Reference where
  /-- the scopes around the use, innermost first -/
  scopes : List Scope
  /-- the declaration whose closure has to be at hand -/
  callee : DeclId
  deriving DecidableEq, Repr

namespace Captures

/-! ## §1. The walk. -/

/-- What a walk has gathered. -/
structure Gathered where
  closures : Closures := .empty
  /-- in the order of the uses -/
  references : List Reference := []
  events : List Event := []

/-- A walk inside the open scopes. -/
structure Walk where
  /-- the open scopes, innermost first -/
  scopes : List Scope := []
  /-- what the innermost scope captures so far -/
  captured : Closure := .empty
  gathered : Gathered := {}

/-- The declaration whose closure a use of `callee` needs: a function that stands in a body, or the
class of a constructor if that class stands in a body. -/
def capturing? (p : Program) (callee : DeclId) : Except Fault (Option DeclId) := do
  match ← p.decl callee with
  | .function { parent := some parent, .. } =>
    if ← p.isClass parent then return none
    return if ← p.isLocal callee then some callee else none
  | .constructor { parent := some cls, .. } =>
    if !(← p.isLocal cls) then return none
    match ← p.parent cls with
    | some parent => return if ← p.isClass parent then none else some cls
    | none => return none
  | _ => return none

/-- The declaration whose closure a node needs. -/
def needed? (p : Program) (node : Expr) : Except Fault (Option DeclId) :=
  match node.access? with
  | some a => capturing? p a.callee
  | none => return none

/-- What a scope captures once a node in it has been looked at. -/
def captureUse (p : Program) (scope : Scope) (captured : Closure) (node : Expr) :
    Except Fault Closure :=
  match node.used? with
  | some v => scope.capture p captured v
  | none => return captured

/-- What a node by itself adds: the reference it makes and the value it uses, if a scope is open. -/
def visitNode (p : Program) (node : Expr) (w : Walk) : Except Fault Walk := do
  -- asked even where no scope is open: a callee that is not there is a fault everywhere
  let callee? ← needed? p node
  match w.scopes with
  | [] => return w
  | scope :: _ =>
    let uses := callee?.toList.map fun callee => { scopes := w.scopes, callee }
    let captured ← captureUse p scope w.captured node
    return { w with captured, gathered.references := w.gathered.references ++ uses }

/-- Records the closure of a declaration that stands below a callable. -/
def record (p : Program) (d : DeclId) (decl : Declaration) (closure : Closure) (g : Gathered) :
    Except Fault Gathered := do
  if !(← p.isLocal d) then return g
  let names ← closure.toList.mapM fun v => return (← p.value v).name
  return { g with
    closures := g.closures.insert d closure
    events := g.events ++ [.captures decl.name names] }

/-- What the innermost of the scopes captures once a scope nested in it is closed. -/
def handOut (p : Program) (scopes : List Scope) (captured nested : Closure) :
    Except Fault Closure :=
  match scopes with
  | outer :: _ => outer.absorb p captured nested
  | [] => return captured

/-- Walks over a declaration, given the walk over what is nested in it. -/
def visitDecl (p : Program) (d : DeclId) (decl : Declaration)
    (below : Walk → Except Fault Walk) (w : Walk) : Except Fault Walk := do
  match ← Scope.ofDeclaration? p d decl with
  | none => below w
  | some scope =>
    -- the new scope starts with nothing captured; what it needs from outside is passed on after it
    let inner ← below { w with scopes := scope :: w.scopes, captured := .empty }
    let gathered ← record p d decl inner.captured inner.gathered
    let captured ← handOut p w.scopes w.captured inner.captured
    return { w with captured, gathered }

/-- Gathers closures and references.  A node is looked at before its operands, a closure is complete
after everything nested in its declaration. -/
def visitor (p : Program) : Visitor Walk
  | .expr _ node, below, w => do below (← visitNode p node w)
  | .decl d content, below, w | .backing d content, below, w => visitDecl p d content below w

/-! ## §2. Passing closures along references. -/

/-- Closures while they grow, with the reports of their growth. -/
structure Growth where
  closures : Closures
  events : List Event := []

/-- Whether a scope stops a value on its way outwards.  The innermost scope stops what is not
external to it, the others what they own. -/
def stops (p : Program) (innermost : Bool) (s : Scope) (v : ValueId) : Except Fault Bool :=
  if innermost then return !(← s.isExternal p v) else return (← p.owner v) = s.decl

/-- Adds a value to the closure of a scope, if it has one. -/
def grow (p : Program) (callee : DeclId) (v : ValueId) (s : Scope) (g : Growth) :
    Except Fault Growth := do
  match g.closures.get? s.decl with
  | none => return g
  | some closure =>
    if closure.contains v then return g
    -- growth is the one thing that is reported here, so a round without events changed nothing
    let event := .capturesThrough (← p.decl s.decl).name (← p.value v).name (← p.decl callee).name
    return { closures := g.closures.modify s.decl (·.insert v), events := g.events ++ [event] }

/-- Passes a value outwards through scopes, up to the first that stops it. -/
def pass (p : Program) (callee : DeclId) (v : ValueId) :
    (innermost : Bool) → List Scope → Growth → Except Fault Growth
  | _, [], g => return g
  | innermost, s :: scopes, g => do
    if ← stops p innermost s v then return g
    pass p callee v false scopes (← grow p callee v s g)

/-- Passes the closure of a callee to the scopes around a reference to it. -/
def follow (p : Program) (g : Growth) (r : Reference) : Except Fault Growth :=
  match g.closures.get? r.callee with
  | none => return g
  | some closure => closure.toList.foldlM (fun g v => pass p r.callee v true r.scopes g) g

/-- Follows all references once. -/
def round (p : Program) (references : List Reference) (closures : Closures) : Except Fault Growth :=
  references.foldlM (follow p) { closures }

/-- Repeats rounds until one changes nothing. -/
def saturateUpTo (p : Program) (references : List Reference) :
    (fuel : Nat) → Closures → Except Fault Growth
  | 0, _ => .error .endless
  | fuel + 1, closures => do
    let g ← round p references closures
    if g.events.isEmpty then return g
    let rest ← saturateUpTo p references fuel g.closures
    return { rest with events := g.events ++ rest.events }

/-- Repeats rounds until one changes nothing.  Each round before that adds a value to a closure, so
there are no more of them than pairs of a closure and a value. -/
def saturate (p : Program) (references : List Reference) (closures : Closures) :
    Except Fault Growth :=
  saturateUpTo p references (closures.size * p.values.size + 1) closures

end Captures

namespace Program

/-- The closure of each local declaration below a root, and the reports.  The root opens no scope:
what it binds is at hand wherever it lifts to. -/
def closures (p : Program) (root : DeclId) : Except Fault (Closures × List Event) := do
  let { gathered, .. } ← p.visitBelow (Captures.visitor p) root {}
  let growth ← Captures.saturate p gathered.references gathered.closures
  return (growth.closures, gathered.events ++ growth.events)

end Program

end LambdaLift
