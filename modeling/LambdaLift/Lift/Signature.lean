/-
  LambdaLift.Lift.Signature
  **FREESTANDING SIGNATURES FOR FUNCTIONS, CLASSES AND CONSTRUCTORS.**

  A local function becomes a sibling of its root that takes the values it
  captured as leading parameters.  A local class becomes a sibling that
  keeps them in private fields, and each of its constructors takes them as
  leading parameters.  Bodies are shared with the old declarations here and
  retargeted later, once every signature is known.
-/
import LambdaLift.Captures
import LambdaLift.Locals
import LambdaLift.Relocation
import LambdaLift.Settings
import LambdaLift.Work

namespace LambdaLift

/-- What lifting works from. -/
structure Site where
  settings : Settings
  /-- the callable whose local declarations are lifted -/
  root : DeclId
  locals : Locals
  closures : Closures

/-- A step that also records where things went. -/
abbrev Lift := StateT Relocation Step

namespace Lift

/-! ## §1. Names. -/

/-- The declaration that lifted declarations go into: the parent of the root. -/
def destination (site : Site) : Step (Option DeclId) := do (← Step.program).parent site.root

/-- The part that a scope contributes to composed names. -/
def namePart (site : Site) (d : DeclId) (decl : Declaration) : String :=
  match site.locals.lambdaIndex? d, site.locals.objectIndex? d with
  | some index, _ => site.settings.lambdaName index
  | none, some index => site.settings.objectName index
  | none, none => decl.name.display

/-- The name of a lifted declaration: the parts of the scopes from its destination down to it. -/
def liftedName (site : Site) (d : DeclId) : Step Name := do
  let destination ← destination site
  -- without a destination the parts reach up to the module
  let scopes ← ((← Step.program).chain d).before fun scope => some scope = destination
  let parts := scopes.map fun s => namePart site s.1 s.2
  return .ident (String.intercalate site.settings.separator parts.reverse)

/-- The name of what carries a captured value.  Special names get a marker in front. -/
def carrierName (settings : Settings) : Name → Name
  | .special text => .ident (settings.capturedMarker ++ text)
  | name => name

/-! ## §2. Records. -/

/-- The closure of a declaration that has to have one. -/
def closure (site : Site) (d : DeclId) : Step Closure :=
  match site.closures.get? d with
  | some c => pure c
  | none => throw (.violation .noClosure d)

/-- Records a replacement. -/
def relocate (old new : DeclId) : Lift Unit := do
  let r ← get
  match r.decls.insertNew old new with
  | .ok decls => set { r with decls }
  | .error current => throw (.violation (.relocatedTwice current new) old)

/-- Records a counterpart. -/
def remap (old new : ValueId) : Lift Unit := do
  let owner ← (← Step.program).owner old
  let r ← get
  match Bijection.insert old new r.values with
  | .ok _ values => set { r with values }
  | .error conflict _ => throw (.violation (.remapConflict conflict) owner)

/-- Records how a replacement reads what it captured. -/
def setContext (old : DeclId) (c : Context) : Lift Unit :=
  modify fun r => { r with contexts := r.contexts.insert old c }

/-! ## §3. Values of the new declaration. -/

/-- A value of another declaration with the same name and type. -/
def copyValue (v : ValueId) (owner : DeclId) (kind : ValueKind) : Step ValueId := do
  let value ← Step.value v
  Step.addValue { value with owner, kind }

/-- Copies an optional receiver. -/
def copyReceiver (v? : Option ValueId) (owner : DeclId) (kind : ValueKind) :
    Step (Option ValueId) :=
  v?.mapM fun v => copyValue v owner kind

/-- Records the counterpart of an optional receiver. -/
def remapReceiver : (old new : Option ValueId) → Lift Unit
  | some old, some new => remap old new
  | _, _ => return ()

/-- A parameter for each captured value, in closure order. -/
def capturedParams (site : Site) (new : DeclId) (closure : Closure) : Lift (List ValueId) :=
  closure.toList.zipIdx.mapM fun (v, index) => do
    let value ← Step.value v
    let param ← Step.addValue
      { name := carrierName site.settings value.name, ty := value.ty, owner := new,
        kind := .param index }
    modify fun r => { r with carried := r.carried.insert param v }
    return param

/-- A copy of each old parameter, numbered on from `start`. -/
def copiedParams (new : DeclId) (old : List ValueId) (start : Nat) : Lift (List ValueId) :=
  (old.zipIdx start).mapM fun (v, index) => do
    let param ← copyValue v new (.param index)
    remap v param
    return param

/-- The parameters of a lifted callable: captured values first, then the old parameters. -/
def liftedParams (site : Site) (new : DeclId) (closure : Closure) (old : List ValueId) :
    Lift (List ValueId × Context) := do
  let captured ← capturedParams site new closure
  let copied ← copiedParams new old closure.size
  return (captured ++ copied, .params (.ofList (closure.toList.zip captured)))

/-! ## §4. The three kinds of lifted declaration. -/

/-- Lifts a local function. -/
def liftFunction (site : Site) (old : DeclId) : Lift Unit := do
  let some f := (← Step.decl old).function? | throw (.violation .functionExpected old)
  if f.dispatchReceiver.isSome then throw (.violation .dispatchOnLocal old)
  let closure ← closure site old
  let name ← liftedName site old
  Step.report [.renamed f.name name]
  let parent ← destination site
  -- parameters name their owner, so its handle is taken before it is filled
  let new := (← Step.program).decls.next
  let (params, context) ← liftedParams site new closure f.params
  let extensionReceiver ← copyReceiver f.extensionReceiver new .extensionReceiver
  let new ← Step.addDecl (.function
    { name, parent, origin := .lifted, visibility := .inContainer, typeParams := f.typeParams,
      extensionReceiver, params, ret := f.ret, body := f.body })
  relocate old new
  remapReceiver f.extensionReceiver extensionReceiver
  setContext old context

/-- A field of the lifted class for each captured value, in closure order. -/
def capturedFields (site : Site) (new : DeclId) (closure : Closure) : Step (List DeclId) :=
  closure.toList.mapM fun v => do
    let value ← Step.value v
    Step.addDecl (.field
      { name := carrierName site.settings value.name, parent := some new, origin := .captured,
        visibility := .inContainer, isFinal := true, ty := value.ty })

/-- Lifts a local class.  Its members follow later. -/
def liftClass (site : Site) (old : DeclId) : Lift Unit := do
  let some c := (← Step.decl old).cls? | throw (.violation .classExpected old)
  let closure ← closure site old
  let name ← liftedName site old
  Step.report [.renamed c.name name]
  let parent ← destination site
  let new := (← Step.program).decls.next
  let this ← Step.addValue
    { name := .this, ty := .cls new, owner := new, kind := .dispatchReceiver }
  let new ← Step.addDecl (.cls
    { name, parent, origin := .lifted, kind := c.kind, visibility := .inContainer,
      modality := c.modality, supertypes := c.supertypes, this })
  relocate old new
  remap c.this this
  -- the fields come after the class and get their initializers with the bodies
  let fields ← capturedFields site new closure
  setContext old (.fields this (.ofList (closure.toList.zip fields)))

/-- Gives a constructor of a local class its new signature. -/
def liftConstructor (site : Site) (old : DeclId) : Lift Unit := do
  let .constructor c ← Step.decl old | throw (.violation .constructorExpected old)
  let some cls := c.parent.filter site.locals.classes.contains
    | throw (.unsupported .constructorOfOther old)
  let newCls ← (← get).lifted cls
  -- a constructor takes what its class captures, not only what its own body uses
  let closure ← closure site cls
  let new := (← Step.program).decls.next
  let (params, context) ← liftedParams site new closure c.params
  let dispatchReceiver ← copyReceiver c.dispatchReceiver new .dispatchReceiver
  let new ← Step.addDecl (.constructor
    { c with parent := some newCls, visibility := .inContainer, dispatchReceiver, params })
  relocate old new
  remapReceiver c.dispatchReceiver dispatchReceiver
  setContext old context

end Lift

end LambdaLift
