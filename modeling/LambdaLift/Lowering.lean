/-
  LambdaLift.Lowering
  **LIFTING EVERY LOCAL DECLARATION OF A PROGRAM.**

  Containers are visited from the inside out, the module last, and each
  callable that a container lists is a root.  A root is lowered in stages:
  its local declarations are collected, their closures computed, their
  signatures built and the bodies retargeted.  The replacements are then
  listed right after the root, and at the end the program is checked.

  A root without local declarations is left alone.
-/
import LambdaLift.Retarget
import LambdaLift.WellFormed

namespace LambdaLift

/-- The replacements that each root got. -/
abbrev Lifted := OrderedMap DeclId (List DeclId)

namespace Program

/-! ## §1. Containers and roots. -/

/-- The classes in a declaration, nested ones first, followed to a bounded depth. -/
def classesUpTo (p : Program) : (fuel : Nat) → DeclId → Except Fault (List DeclId)
  | 0, _ => .error .endless
  | fuel + 1, d => do
    match ← p.decl d with
    | .cls c => return (← c.members.mapM (p.classesUpTo fuel)).flatten ++ [d]
    | _ => return []

/-- Everything that lists declarations, nested containers first and the module last. -/
def containers (p : Program) : Except Fault (List (Option DeclId)) :=
  return (← p.top.mapM (p.classesUpTo (p.decls.size + 1))).flatten.map some ++ [none]

/-- The callables that a child of a container brings: itself, or the accessors of a property. -/
def rootsOf (p : Program) (child : DeclId) : Except Fault (List DeclId) := do
  match ← p.decl child with
  | .function _ | .constructor _ => return [child]
  | .property q => return q.getter.toList ++ q.setter.toList
  | .cls _ | .field _ => return []

/-- The callables of a container. -/
def roots (p : Program) (container : Option DeclId) : Except Fault (List DeclId) :=
  return (← (← p.children container).mapM p.rootsOf).flatten

end Program

/-- Inserts elements right after the first occurrence of another, if there is one. -/
def insertAfter {α : Type} [DecidableEq α] (anchor : α) (new : List α) : List α → Option (List α)
  | [] => none
  | a :: as =>
    if a = anchor then some (a :: (new ++ as)) else (insertAfter anchor new as).map (a :: ·)

namespace Lowering

/-! ## §2. One root. -/

/-- The stages of a root that has local declarations; answers with the replacements. -/
def lowerLocals (settings : Settings) (root : DeclId) (locals : Locals) : Step (List DeclId) := do
  Step.reportStage .collected root
  let (closures, events) ← (← Step.program).closures root
  Step.report events
  Step.reportStage .closuresComputed root
  let relocation ← Lift.relocation { settings, root, locals, closures }
  Step.reportStage .signaturesBuilt root
  Retarget.all locals relocation root
  Step.reportStage .bodiesRetargeted root
  locals.lifted.mapM fun old => do
    let new ← relocation.lifted old
    -- the header follows the types it names, and one that leads nowhere is a fault
    Step.report [.lifted (← (← Step.program).header new)]
    return new

/-- Lifts everything declared below a root; answers `none` if there is nothing to lift. -/
def lowerRoot (settings : Settings) (root : DeclId) : Step (Option (List DeclId)) := do
  let locals ← (← Step.program).locals root
  if locals.isEmpty then return none
  some <$> lowerLocals settings root locals

/-- What the replacements of a root are listed after: the root, or the property of an accessor. -/
def anchor (root : DeclId) : Step DeclId := do
  match ← Step.decl root with
  | .function { accessorOf := some property, .. } => return property
  | _ => return root

/-- Lists the replacements of a root in its container. -/
def splice (container : Option DeclId) (root : DeclId) (siblings : List DeclId) : Step Unit := do
  let anchor ← anchor root
  let p ← Step.program
  if !(← p.listsChildren container) then throw (.violation .noListing root)
  let some children := insertAfter anchor siblings (← p.children container)
    | throw (.violation .unlisted root)
  let p ← p.setChildren children container
  Step.change fun _ => ((), p)

/-! ## §3. Containers and programs. -/

/-- Lowers a root and lists its replacements. -/
def lowerListed (settings : Settings) (container : Option DeclId)
    (lifted : Lifted) (root : DeclId) : Step Lifted := do
  match ← lowerRoot settings root with
  | none => return lifted
  | some siblings =>
    splice container root siblings
    Step.reportStage .spliced root
    Step.report [.lowered (← (← Step.program).declDoc root).render]
    return lifted.insert root siblings

/-- Whether a container stands in a body.  Whoever lowers that body lowers everything inside it. -/
def isNested (p : Program) : (container : Option DeclId) → Except Fault Bool
  | none => .ok false
  | some d => p.isLocal d

/-- Lowers the roots of a container. -/
def lowerContainer (settings : Settings) (lifted : Lifted)
    (container : Option DeclId) : Step Lifted := do
  if ← isNested (← Step.program) container then return lifted
  -- the roots are listed before the first of them adds siblings
  (← (← Step.program).roots container).foldlM (lowerListed settings container) lifted

/-- Lifts every local declaration of the program, and checks the result if the settings ask for
it. -/
def lower (settings : Settings) : Step Lifted := do
  -- the containers are those of the program as it was; lifted classes are none of them
  let lifted ← (← (← Step.program).containers).foldlM (lowerContainer settings) .empty
  if settings.validate then (← Step.program).check
  return lifted

end Lowering

end LambdaLift
