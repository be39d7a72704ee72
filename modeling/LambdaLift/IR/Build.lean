/-
  LambdaLift.IR.Build
  **BUILDING PROGRAMS STEP BY STEP.**

  Each step adds entries and keeps the bookkeeping consistent:

  - a declaration at module level or in a class is listed by its container;
    one that stands in a body is listed nowhere and is placed there by an
    `Expr.decl` node;
  - every member of a class is called on the receiver of that class;
  - a constructor of an inner class is called on the enclosing instance.
-/
import LambdaLift.IR.Program

namespace LambdaLift

/-- A step that adds to a program. -/
abbrev Build := StateT Program (Except Fault)

namespace Build

/-! ## §1. Entries. -/

/-- Adds a declaration that nothing lists. -/
def addDecl (d : Declaration) : Build DeclId := modifyGet (·.allocDecl d)

/-- Adds a value. -/
def addValue (v : Value) : Build ValueId := modifyGet (·.allocValue v)

/-- Adds an expression. -/
def addExpr (e : Expr) : Build ExprId := modifyGet (·.allocExpr e)

/-- The declaration under a handle. -/
def declAt (d : DeclId) : Build Declaration := do (← get).decl d

/-- Changes a declaration. -/
def modifyDecl (d : DeclId) (f : Declaration → Declaration) : Build Unit := do
  set (← (← get).modifyDecl d f)

/-- Changes a value. -/
def modifyValue (v : ValueId) (f : Value → Value) : Build Unit := do
  set (← (← get).modifyValue v f)

/-! ## §2. Where a declaration goes. -/

/-- Lists a declaration in its container.  A class also makes it nameable on its instances if asked
to. -/
def attach (parent : Option DeclId) (d : DeclId) (nameable : Bool) : Build Unit :=
  match parent with
  | none => modify fun p => { p with top := p.top ++ [d] }
  | some parent => modifyDecl parent <| Declaration.mapClass fun c =>
      { c with
        members := c.members ++ [d]
        scope.declared := if nameable then c.scope.declared ++ [d] else c.scope.declared }

/-- What is declared in a body can be named in that body only. -/
def visibilityUnder : (parent : Option DeclId) → Build Visibility
  | none => return .everywhere
  | some parent => return if (← declAt parent).isCallable then .inBody else .everywhere

/-- The receiver that members of a parent are called on. -/
def receiverOf : (parent : Option DeclId) → Build (Option ValueId)
  | none => return none
  | some parent => return (← declAt parent).cls?.map (·.this)

/-! ## §3. Declarations. -/

/-- A function, which is a method if its parent is a class. -/
def function (parent : Option DeclId) (name : Name) (ret : Ty) : Build DeclId := do
  let visibility ← visibilityUnder parent
  let dispatchReceiver ← receiverOf parent
  let d ← addDecl (.function { name, parent, visibility, dispatchReceiver, ret })
  attach parent d true
  return d

/-- An anonymous function in a body. -/
def lambda (parent : DeclId) (ret : Ty) : Build DeclId := function (some parent) .anonymous ret

/-- A class together with its receiver. -/
def cls (parent : Option DeclId) (name : Name) (kind : ClassKind)
    (isInner : Bool) : Build DeclId := do
  -- the receiver has the type of the class, so the handle of the class is taken first
  let d := (← get).decls.next
  let this ← addValue { name := .this, ty := .cls d, owner := d, kind := .dispatchReceiver }
  let visibility ← visibilityUnder parent
  let d ← addDecl (.cls { name, parent, kind, visibility, isInner, this })
  attach parent d false
  return d

/-- An anonymous object in a body. -/
def object (parent : DeclId) : Build DeclId := cls (some parent) .unnamed .object false

/-- A class whose instances belong to an instance of the enclosing class. -/
def innerClass (outer : DeclId) (name : Name) : Build DeclId := cls (some outer) name .plain true

/-- A constructor of a class. -/
def constructor (parent : DeclId) (isPrimary : Bool) : Build DeclId := do
  let dispatchReceiver ← match ← declAt parent with
    | .cls c => if c.isInner then receiverOf c.parent else pure none
    | _ => pure none
  let d ← addDecl (.constructor
    { parent := some parent, isPrimary, visibility := .everywhere, dispatchReceiver })
  attach (some parent) d false
  return d

/-- A field of a class. -/
def field (parent : DeclId) (name : Name) (ty : Ty) (init : Option ExprId) : Build DeclId := do
  let d ← addDecl (.field
    { name, parent := some parent, visibility := .inContainer, isFinal := true, ty, init })
  attach (some parent) d false
  return d

/-- Adds a supertype to a class. -/
def supertype (d : DeclId) (ty : Ty) : Build Unit :=
  modifyDecl d <| Declaration.mapClass fun c => { c with supertypes := c.supertypes ++ [ty] }

/-- Gives a callable its body. -/
def setBody (d : DeclId) (body : ExprId) : Build Unit :=
  modifyDecl d (Declaration.withBody (some body))

/-! ## §4. Values. -/

/-- The next parameter of a callable. -/
def param (owner : DeclId) (name : Name) (ty : Ty) : Build ValueId := do
  let params := (← declAt owner).params
  let v ← addValue { name, ty, owner, kind := .param params.length }
  modifyDecl owner (Declaration.withParams (params ++ [v]))
  return v

/-- The instance that an extension function is called on. -/
def extensionReceiver (owner : DeclId) (ty : Ty) : Build ValueId := do
  let v ← addValue { name := .this, ty, owner, kind := .extensionReceiver }
  modifyDecl owner fun
    | .function f => .function { f with extensionReceiver := some v }
    | d => d
  return v

/-- A variable of a body. -/
def var (owner : DeclId) (name : Name) (ty : Ty) (isMutable : Bool) : Build ValueId :=
  addValue { name, ty, owner, kind := .var isMutable }

/-! ## §5. Expressions. -/

/-- Reads a value. -/
def read (v : ValueId) : Build ExprId := addExpr (.get v)

/-- Leaves a function with a value. -/
def ret (target : DeclId) (value : ExprId) : Build ExprId := addExpr (.ret target value)

/-- Statements in order. -/
def block (stmts : List ExprId) : Build ExprId := addExpr (.block stmts)

/-- Calls a function with all its arguments. -/
def call (callee : DeclId) (args : List ExprId) : Build ExprId :=
  addExpr (.access .call { callee, args := args.map some })

/-- Calls a member on an instance. -/
def callOn (dispatch : ExprId) (callee : DeclId) (args : List ExprId) : Build ExprId :=
  addExpr (.access .call { callee, dispatch := some dispatch, args := args.map some })

/-- Makes an instance. -/
def instantiate (callee : DeclId) (args : List ExprId) : Build ExprId :=
  addExpr (.access .new { callee, args := args.map some })

/-- A callable as a value, with some of its arguments bound. -/
def callableRef (callee : DeclId) (args : List (Option ExprId)) : Build ExprId :=
  addExpr (.access .ref { callee, args })

/-! ## §6. Properties. -/

/-- A property with a backing field, an accessor that reads it and, for a variable, one that writes
it. -/
def property (parent : DeclId) (name : Name) (ty : Ty) (isVar : Bool) : Build DeclId := do
  let this ← receiverOf (some parent)
  let backing ← addDecl (.field
    { name, parent := some parent, visibility := .inContainer, isFinal := !isVar, ty })
  let header : PropertyDecl :=
    { name, parent := some parent, visibility := .everywhere, isVar, ty,
      backingField := some backing }
  let d ← addDecl (.property header)
  let accessor (name : String) (ret : Ty) : Declaration := .function
    { name := .special name, parent := some parent, visibility := .everywhere
      dispatchReceiver := this, ret, accessorOf := some d }
  let getter ← addDecl (accessor ("get-" ++ name.plain) ty)
  let receiver ← this.mapM read
  let value ← addExpr (.getField backing receiver)
  setBody getter (← block [← ret getter value])
  let setter ← if isVar
      then some <$> writer backing this (accessor ("set-" ++ name.plain) .unit) else pure none
  -- accessors and backing field are listed by the property alone
  modifyDecl d fun _ => .property { header with getter := some getter, setter }
  attach (some parent) d true
  return d
where
  /-- The accessor that writes the backing field. -/
  writer (backing : DeclId) (this : Option ValueId) (header : Declaration) : Build DeclId := do
    let setter ← addDecl header
    let v ← param setter (.special "set-?") ty
    let receiver ← this.mapM read
    let value ← read v
    let write ← addExpr (.setField backing receiver value)
    setBody setter (← block [write])
    return setter

/-- Builds a program from nothing. -/
def fromEmpty {α : Type} (b : Build α) : Except Fault (α × Program) := StateT.run b {}

end Build

end LambdaLift
