/-
  LambdaLift.Lift.Member
  **MEMBERS OF LIFTED CLASSES.**

  Members of a local class are copied onto the lifted class: parameters
  correspond one to one, and the receiver is that of the lifted class.  A
  property takes its backing field and its accessors along.  When all
  members are there, each lifted class gets its member scope, and what
  overrides what is resolved anew.
-/
import LambdaLift.Lift.Signature

namespace LambdaLift

namespace Lift

/-! ## §1. Copying members. -/

/-- The lifted class that a member goes into, and its receiver. -/
def memberDestination (site : Site) (member : DeclId) : Lift (DeclId × ValueId) := do
  let some old := (← (← Step.program).parent member).filter site.locals.classes.contains
    | throw (.unsupported .memberOfOther member)
  let new ← (← get).lifted old
  let some c := (← Step.decl new).cls? | throw (.violation .liftedClassExpected new)
  return (new, c.this)

/-- Copies a method or an accessor onto the lifted class `cls`, whose receiver is `this`. -/
def liftMethod (old : DeclId) (f : FunctionDecl) (cls : DeclId) (this : ValueId)
    (accessorOf : Option DeclId) : Lift DeclId := do
  let new := (← Step.program).decls.next
  let params ← f.params.zipIdx.mapM fun (v, index) => copyValue v new (.param index)
  let extensionReceiver ← copyReceiver f.extensionReceiver new .extensionReceiver
  let new ← Step.addDecl (.function
    { f with parent := some cls, dispatchReceiver := some this, extensionReceiver, params,
             accessorOf, overrides := [] })
  -- recorded before the receivers are looked at, so a method without one has a replacement too
  relocate old new
  (f.params.zip params).forM fun (v, param) => remap v param
  let some dispatch := f.dispatchReceiver | throw (.violation .memberWithoutDispatch old)
  remap dispatch this
  remapReceiver f.extensionReceiver extensionReceiver
  return new

/-- Copies a field onto the lifted class `cls`. -/
def liftField (old : DeclId) (f : FieldDecl) (cls : DeclId) : Lift DeclId := do
  let new ← Step.addDecl (.field { f with parent := some cls })
  relocate old new
  return new

/-- Copies the backing field of a property, which has to be a field. -/
def liftBacking (cls field : DeclId) : Lift DeclId := do
  let some f := (← Step.decl field).field? | throw (.violation .backingFieldExpected field)
  liftField field f cls

/-- Copies an accessor of a property, which has to be a function. -/
def liftAccessor (cls : DeclId) (this : ValueId) (property accessor : DeclId) : Lift DeclId := do
  let some f := (← Step.decl accessor).function? | throw (.violation .accessorExpected accessor)
  liftMethod accessor f cls this (some property)

/-- Copies a property with its backing field and its accessors. -/
def liftProperty (site : Site) (old : DeclId) (q : PropertyDecl) : Lift Unit := do
  let (cls, this) ← memberDestination site old
  let backingField ← q.backingField.mapM (liftBacking cls)
  let header :=
    { q with parent := some cls, backingField, getter := none, setter := none, overrides := [] }
  let new ← Step.addDecl (.property header)
  relocate old new
  -- the accessors point back to the property, so it stands without them for a moment
  let getter ← q.getter.mapM (liftAccessor cls this new)
  let setter ← q.setter.mapM (liftAccessor cls this new)
  Step.modifyDecl new fun _ => .property { header with getter, setter }

/-- Copies a member.  Accessors go with their property. -/
def liftMember (site : Site) (old : DeclId) : Lift Unit := do
  match ← Step.decl old with
  | .function f =>
    -- the property brings it
    if f.accessorOf.isSome then return
    let (cls, this) ← memberDestination site old
    discard <| liftMethod old f cls this none
  | .property q => liftProperty site old q
  | .field f =>
    let (cls, _) ← memberDestination site old
    discard <| liftField old f cls
  | .cls _ => throw (.unsupported .innerClass old)
  | .constructor _ => throw (.violation .constructorAmongMembers old)

/-! ## §2. Member scopes. -/

/-- Whether subclasses see a member: functions and properties that are not private. -/
def isInheritable : Declaration → Bool
  | .function f => f.visibility ≠ .inContainer
  | .property q => q.visibility ≠ .inContainer
  | _ => false

/-- The members that a supertype offers, each as its replacement if it has one. -/
def offered (p : Program) (r : Relocation) : Ty → Except Fault (List DeclId)
  | .cls sup => do
    match ← p.decl sup with
    | .cls c =>
      ((c.scope.declared ++ c.scope.inherited).map r.retarget).filterM fun member =>
        return isInheritable (← p.decl member)
    | _ => return []
  | _ => return []

/-- The members that come through the supertypes. -/
def inherited (p : Program) (r : Relocation) (supertypes : List Ty) :
    Except Fault (OrderedSet DeclId) :=
  return .ofList (← supertypes.mapM (offered p r)).flatten

/-- Whether a member takes the place of an inherited one: same kind, same name, as many
parameters. -/
def overrides : (member inherited : Declaration) → Bool
  | .function f, .function g => f.name = g.name && f.params.length = g.params.length
  | .property q, .property r => q.name = r.name
  | _, _ => false

/-- The inherited members that a member overrides. -/
def overridden (p : Program) (inherited : OrderedSet DeclId) (member : DeclId) :
    Except Fault (List DeclId) :=
  inherited.toList.filterM fun sup => return overrides (← p.decl member) (← p.decl sup)

/-- Sets what a function or a property overrides. -/
def withOverrides (ds : List DeclId) : Declaration → Declaration
  | .function f => .function { f with overrides := ds }
  | .property q => .property { q with overrides := ds }
  | d => d

/-- The fields that hold captured values. -/
def capturedFieldsOf : Context → List DeclId
  | .params _ => []
  | .fields _ captured => captured.values

/-- Gives a lifted class its member scope and each of its members what it overrides. -/
def setMemberScope (old : DeclId) : Lift Unit := do
  let some c := (← Step.decl old).cls? | throw (.violation .classExpected old)
  let r ← get
  let new ← r.lifted old
  let declared ← c.scope.declared.mapM fun member =>
    match r.get? member with
    | some replacement => (pure replacement : Step DeclId)
    | none => throw (.unsupported .scopeEntry member)
  let inherited ← inherited (← Step.program) r c.supertypes
  let taken ← declared.mapM fun member => show Step (List DeclId) from do
    let ds ← overridden (← Step.program) inherited member
    Step.modifyDecl member (withOverrides ds)
    return ds
  -- what no member took the place of stays inherited
  let kept := inherited.toList.filter fun sup => !taken.flatten.contains sup
  let fields := capturedFieldsOf (← r.context old)
  Step.modifyDecl new <| Declaration.mapClass fun c =>
    { c with scope := { declared := declared ++ fields, inherited := kept } }

/-! ## §3. Everything below one root. -/

/-- Gives every local declaration its replacement. -/
def relocateAll (site : Site) : Lift Unit := do
  site.locals.functions.keys.forM (liftFunction site)
  site.locals.classes.keys.forM (liftClass site)
  site.locals.constructors.toList.forM (liftConstructor site)
  site.locals.members.toList.forM (liftMember site)
  site.locals.classes.keys.forM setMemberScope

/-- Builds the signatures of everything lifted out of one root. -/
def relocation (site : Site) : Step Relocation := return (← (relocateAll site).run {}).2

end Lift

end LambdaLift
