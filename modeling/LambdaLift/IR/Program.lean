/-
  LambdaLift.IR.Program
  **PROGRAMS.**

  A program is three arenas and the list of its module-level declarations.
  Looking up a handle that has no entry is a fault, so each question below
  answers in `Except Fault`.

  Parents form chains.  A chain is computed as far as it goes, together
  with the way it ends, and a question about ancestors is asked of the
  chain: it looks at the ending only when the ancestors before it do not
  settle the answer.
-/
import LambdaLift.Fault
import LambdaLift.IR.Declaration
import LambdaLift.IR.Expr

namespace LambdaLift

/-- A module. -/
structure Program where
  decls : Arena .decl Declaration := {}
  values : Arena .value Value := {}
  exprs : Arena .expr Expr := {}
  /-- the declarations at module level, in order -/
  top : List DeclId := []
  deriving DecidableEq, Repr, Inhabited

/-- An entry that has to be there. -/
def Arena.lookup {kind : Entity} {α : Type} (a : Arena kind α) (h : Handle kind) : Except Fault α :=
  match a.get? h with
  | some x => .ok x
  | none => .error .dangling

namespace Program

/-! ## §1. Entries. -/

/-- The declaration under a handle. -/
def decl (p : Program) (d : DeclId) : Except Fault Declaration := p.decls.lookup d

/-- The value under a handle. -/
def value (p : Program) (v : ValueId) : Except Fault Value := p.values.lookup v

/-- The expression under a handle. -/
def expr (p : Program) (e : ExprId) : Except Fault Expr := p.exprs.lookup e

/-- The declaration that binds a value. -/
def owner (p : Program) (v : ValueId) : Except Fault DeclId := return (← p.value v).owner

/-- The declaration that a declaration stands in. -/
def parent (p : Program) (d : DeclId) : Except Fault (Option DeclId) := return (← p.decl d).parent

/-- Whether a declaration is a class. -/
def isClass (p : Program) (d : DeclId) : Except Fault Bool := return (← p.decl d).isClass

/-- Whether a declaration stands directly in a class. -/
def isMember (p : Program) (d : DeclId) : Except Fault Bool := do
  match ← p.parent d with
  | some parent => p.isClass parent
  | none => return false

/-! ## §2. The chain of parents. -/

/-- How a chain of parents ends. -/
inductive ChainEnd where
  /-- at module level -/
  | atModule
  /-- at a handle that has no entry -/
  | dangling
  /-- never: a declaration stands in itself -/
  | endless
  deriving DecidableEq, Repr

/-- A declaration and its ancestors, innermost first. -/
structure Chain where
  scopes : List (DeclId × Declaration)
  ending : ChainEnd

/-- What a question about a chain has to answer when no ancestor settles it. -/
def ChainEnd.settle {α : Type} (a : α) : ChainEnd → Except Fault α
  | .atModule => .ok a
  | .dangling => .error .dangling
  | .endless => .error .endless

/-- The chain that starts at `d?`, cut after `fuel` declarations. -/
def chainFrom (p : Program) : (fuel : Nat) → (d? : Option DeclId) → Chain
  | _, none => ⟨[], .atModule⟩
  | 0, some _ => ⟨[], .endless⟩
  | fuel + 1, some d =>
    match p.decls.get? d with
    | none => ⟨[], .dangling⟩
    | some decl =>
      -- a parent that is not there ends the chain; the scopes up to it stay known
      let rest := p.chainFrom fuel decl.parent
      ⟨(d, decl) :: rest.scopes, rest.ending⟩

/-- A declaration and its ancestors.  A chain longer than the arena has met a declaration twice. -/
def chain (p : Program) (d : DeclId) : Chain := p.chainFrom (p.decls.size + 1) (some d)

namespace Chain

/-- All scopes of a chain that reaches the module. -/
def toList (c : Chain) : Except Fault (List (DeclId × Declaration)) := c.ending.settle c.scopes

/-- Whether some scope satisfies a test; the chain is followed no further than that scope. -/
def any (c : Chain) (test : DeclId → Declaration → Bool) : Except Fault Bool :=
  if c.scopes.any fun s => test s.1 s.2 then .ok true else c.ending.settle false

/-- The scopes before the first that satisfies a test; the chain is followed no further than it. -/
def before (c : Chain) (test : DeclId → Bool) : Except Fault (List (DeclId × Declaration)) :=
  if c.scopes.any fun s => test s.1 then .ok (c.scopes.takeWhile fun s => !test s.1)
  else c.ending.settle c.scopes

/-- The ancestors alone. -/
def tail (c : Chain) : Chain := { c with scopes := c.scopes.tail }

end Chain

/-- Whether a declaration stands somewhere below a function or a constructor. -/
def isLocal (p : Program) (d : DeclId) : Except Fault Bool :=
  (p.chain d).tail.any fun _ decl => decl.isCallable

/-! ## §3. Containers. -/

/-- The declarations that a container lists; `none` is the module. -/
def children (p : Program) : (container : Option DeclId) → Except Fault (List DeclId)
  | none => .ok p.top
  | some d => do
    match ← p.decl d with
    | .cls c => return c.members
    | _ => return []

/-- Whether a container can list declarations: the module can, and so can a class. -/
def listsChildren (p : Program) : (container : Option DeclId) → Except Fault Bool
  | none => .ok true
  | some d => p.isClass d

/-- The first primary constructor among the members of a class. -/
def primaryConstructor? (p : Program) (cls : DeclId) : Except Fault (Option DeclId) := do
  (← p.children (some cls)).findM? fun member => do
    match ← p.decl member with
    | .constructor c => return c.isPrimary
    | _ => return false

/-! ## §4. Changes. -/

/-- Adds a declaration. -/
def allocDecl (p : Program) (d : Declaration) : DeclId × Program :=
  (p.decls.next, { p with decls := (p.decls.alloc d).2 })

/-- Adds a value. -/
def allocValue (p : Program) (v : Value) : ValueId × Program :=
  (p.values.next, { p with values := (p.values.alloc v).2 })

/-- Adds an expression. -/
def allocExpr (p : Program) (e : Expr) : ExprId × Program :=
  (p.exprs.next, { p with exprs := (p.exprs.alloc e).2 })

/-- Overwrites a declaration. -/
def setDecl (p : Program) (d : DeclId) (decl : Declaration) : Program :=
  { p with decls := p.decls.set d decl }

/-- Overwrites a value. -/
def setValue (p : Program) (v : ValueId) (value : Value) : Program :=
  { p with values := p.values.set v value }

/-- Overwrites an expression. -/
def setExpr (p : Program) (e : ExprId) (expr : Expr) : Program :=
  { p with exprs := p.exprs.set e expr }

/-- Changes a declaration that has to be there. -/
def modifyDecl (p : Program) (d : DeclId) (f : Declaration → Declaration) : Except Fault Program :=
  return p.setDecl d (f (← p.decl d))

/-- Changes a value that has to be there. -/
def modifyValue (p : Program) (v : ValueId) (f : Value → Value) : Except Fault Program :=
  return p.setValue v (f (← p.value v))

/-- Replaces the list of a container.  A declaration that is no class lists nothing and stays as it
is. -/
def setChildren (p : Program) (ds : List DeclId) :
    (container : Option DeclId) → Except Fault Program
  | none => .ok { p with top := ds }
  | some d => p.modifyDecl d (Declaration.mapClass fun c => { c with members := ds })

end Program

end LambdaLift
