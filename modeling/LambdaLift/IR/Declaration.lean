/-
  LambdaLift.IR.Declaration
  **DECLARATIONS.**

  Functions, constructors, classes, properties and fields.  Each knows the
  declaration that it stands in; without one it stands at module level.
  Functions and constructors are *callable*: they take parameters and have
  a body.
-/
import LambdaLift.IR.Value

namespace LambdaLift

/-! ## §1. Modifiers. -/

/-- Who may name a declaration. -/
inductive Visibility where
  /-- everyone -/
  | everywhere
  /-- the same module -/
  | inModule
  /-- the container of the declaration -/
  | inContainer
  /-- the body that the declaration stands in -/
  | inBody
  deriving DecidableEq, Repr

/-- Whether subclasses may or must override a declaration. -/
inductive Modality where
  /-- they may not -/
  | sealed
  /-- they may -/
  | overridable
  /-- they must -/
  | bodiless
  deriving DecidableEq, Repr

/-- What kind of class a class is. -/
inductive ClassKind where
  /-- an ordinary class -/
  | plain
  /-- a single instance -/
  | object
  /-- an interface -/
  | interface
  deriving DecidableEq, Repr

/-- Where a declaration comes from. -/
inductive Origin where
  /-- the program text -/
  | source
  /-- moved out of a body -/
  | lifted
  /-- a field that holds a captured value -/
  | captured
  deriving DecidableEq, Repr

/-! ## §2. The five kinds of declaration. -/

/-- A function, a method, a lambda or an accessor of a property. -/
structure FunctionDecl where
  name : Name
  parent : Option DeclId
  origin : Origin := .source
  visibility : Visibility
  modality : Modality := .sealed
  typeParams : List String := []
  dispatchReceiver : Option ValueId := none
  extensionReceiver : Option ValueId := none
  params : List ValueId := []
  ret : Ty
  body : Option ExprId := none
  /-- the property that the function reads or writes for -/
  accessorOf : Option DeclId := none
  overrides : List DeclId := []
  deriving DecidableEq, Repr

/-- A constructor. -/
structure ConstructorDecl where
  parent : Option DeclId
  isPrimary : Bool
  visibility : Visibility
  /-- the enclosing instance, for constructors of inner classes -/
  dispatchReceiver : Option ValueId := none
  params : List ValueId := []
  body : Option ExprId := none
  deriving DecidableEq, Repr

/-- The callable members that can be named on an instance. -/
structure MemberScope where
  /-- members that the class declares -/
  declared : List DeclId := []
  /-- inherited members that no declared member overrides -/
  inherited : List DeclId := []
  deriving DecidableEq, Repr

/-- A class, an object or an interface. -/
structure ClassDecl where
  name : Name
  parent : Option DeclId
  origin : Origin := .source
  kind : ClassKind
  visibility : Visibility
  modality : Modality := .sealed
  /-- whether instances belong to an instance of the enclosing class -/
  isInner : Bool := false
  supertypes : List Ty := []
  /-- the receiver that every member reads -/
  this : ValueId
  members : List DeclId := []
  scope : MemberScope := {}
  deriving DecidableEq, Repr

/-- A property of a class. -/
structure PropertyDecl where
  name : Name
  parent : Option DeclId
  visibility : Visibility
  modality : Modality := .sealed
  isVar : Bool
  ty : Ty
  backingField : Option DeclId := none
  getter : Option DeclId := none
  setter : Option DeclId := none
  overrides : List DeclId := []
  deriving DecidableEq, Repr

/-- A field of a class. -/
structure FieldDecl where
  name : Name
  parent : Option DeclId
  origin : Origin := .source
  visibility : Visibility
  isFinal : Bool
  ty : Ty
  init : Option ExprId := none
  deriving DecidableEq, Repr

/-- A declaration. -/
inductive Declaration where
  | function (f : FunctionDecl)
  | constructor (c : ConstructorDecl)
  | cls (c : ClassDecl)
  | property (p : PropertyDecl)
  | field (f : FieldDecl)
  deriving DecidableEq, Repr

/-! ## §3. What the kinds share. -/

namespace Declaration

/-- The declaration that this one stands in; `none` is the module. -/
def parent : Declaration → Option DeclId
  | .function f => f.parent
  | .constructor c => c.parent
  | .cls c => c.parent
  | .property p => p.parent
  | .field f => f.parent

/-- The name; constructors share one. -/
def name : Declaration → Name
  | .function f => f.name
  | .constructor _ => .init
  | .cls c => c.name
  | .property p => p.name
  | .field f => f.name

/-- Whether it takes parameters and has a body. -/
def isCallable : Declaration → Bool
  | .function _ | .constructor _ => true
  | _ => false

/-- Whether it is a class. -/
def isClass : Declaration → Bool
  | .cls _ => true
  | _ => false

/-- The parameters of a callable. -/
def params : Declaration → List ValueId
  | .function f => f.params
  | .constructor c => c.params
  | _ => []

/-- The body of a callable. -/
def body : Declaration → Option ExprId
  | .function f => f.body
  | .constructor c => c.body
  | _ => none

/-- What runs when the declaration is evaluated: a body or an initializer. -/
def code : Declaration → Option ExprId
  | .function f => f.body
  | .constructor c => c.body
  | .field f => f.init
  | _ => none

/-- The instance of a callable's own class, or the enclosing one for constructors. -/
def dispatchReceiver : Declaration → Option ValueId
  | .function f => f.dispatchReceiver
  | .constructor c => c.dispatchReceiver
  | _ => none

/-- The extension receiver of a function. -/
def extensionReceiver : Declaration → Option ValueId
  | .function f => f.extensionReceiver
  | _ => none

/-- The function, if it is one. -/
def function? : Declaration → Option FunctionDecl
  | .function f => some f
  | _ => none

/-- The class, if it is one. -/
def cls? : Declaration → Option ClassDecl
  | .cls c => some c
  | _ => none

/-- The field, if it is one. -/
def field? : Declaration → Option FieldDecl
  | .field f => some f
  | _ => none

/-- Changes a class and leaves the other kinds alone. -/
def mapClass (f : ClassDecl → ClassDecl) : Declaration → Declaration
  | .cls c => .cls (f c)
  | d => d

/-- Gives a callable another body. -/
def withBody (body : Option ExprId) : Declaration → Declaration
  | .function f => .function { f with body }
  | .constructor c => .constructor { c with body }
  | d => d

/-- Gives a callable other parameters. -/
def withParams (params : List ValueId) : Declaration → Declaration
  | .function f => .function { f with params }
  | .constructor c => .constructor { c with params }
  | d => d

end Declaration

end LambdaLift
