/-
  LambdaLift.Retarget
  **BODIES THAT FOLLOW THE RELOCATION.**

  Once every signature is known, the code of the root and of everything
  lifted out of it is retargeted in place, operands before the node they
  belong to:

  - a use of a captured value reads what carries it, and a use of a
    renumbered parameter or receiver reads its counterpart;
  - an access to a relocated callable goes to its replacement, with the
    captured values as leading arguments;
  - field accesses and returns follow the relocation;
  - a placed declaration becomes an empty block.

  The definition of a local declaration has no effect of its own, so
  nothing is lost with the last.
-/
import LambdaLift.Lift.Member

namespace LambdaLift

/-- What code is retargeted by. -/
structure Retarget where
  locals : Locals
  relocation : Relocation
  /-- how the code at hand reads what it captured; the root captures nothing -/
  context? : Option Context

namespace Retarget

/-! ## §1. One node. -/

/-- What carries a value in the code at hand. -/
def carrier? (t : Retarget) (v : ValueId) : Option Carrier := t.context?.bind (·.carrier? v)

/-- The counterpart of a value, or the value itself. -/
def counterpart (t : Retarget) (v : ValueId) : ValueId := (t.relocation.values.forth? v).getD v

/-- The node that reads a value: from its carrier, else from its counterpart. -/
def read (t : Retarget) (v : ValueId) : Step Expr :=
  match t.carrier? v with
  | some carrier => Step.change carrier.read
  | none => return .get (t.counterpart v)

/-- A variable follows the declaration that owns it. -/
def reown (t : Retarget) (v : ValueId) : Step Unit := do
  let value ← Step.value v
  if let some owner := t.relocation.get? value.owner then
    Step.modifyValue v fun value => { value with owner }

/-- The argument for a parameter of the replacement of `callee`: the old argument of its
counterpart, or a read of the captured value that it carries. -/
def argument (t : Retarget) (callee new : DeclId) (oldParams : List ValueId)
    (args : List (Option ExprId)) (param : ValueId) : Step (Option ExprId) := do
  match t.relocation.values.back? param, t.relocation.carried.get? param with
  | some old, _ =>
    let some position := oldParams.findIdx? (· = old) | throw (.violation .foreignParameter callee)
    return (args[position]?).join
  -- the caller captured the value too, or sees it directly
  | none, some captured => return some (← Step.addExpr (← t.read captured))
  | none, none => throw (.violation (.unmappedParameter (← Step.value param).name) new)

/-- An access to the replacement of its callee. -/
def access (t : Retarget) (a : Access) : Step Access := do
  match t.relocation.get? a.callee with
  | none => return a
  | some new =>
    let oldParams := (← Step.decl a.callee).params
    let newParams := (← Step.decl new).params
    let args ← newParams.mapM (t.argument a.callee new oldParams a.args)
    -- type parameters are kept, so the type arguments still fit
    return { a with callee := new, args }

/-- A node whose operands are retargeted already. -/
def node (t : Retarget) : Expr → Step Expr
  | .get v => t.read v
  | .set v source => do
    if (t.carrier? v).isSome then throw (.violation .capturedWrite (← Step.value v).owner)
    return .set (t.counterpart v) source
  | .var v init => do
    t.reown v
    return .var v init
  | .decl d => if t.locals.isLifted d then return .noop else throw (.violation .strayDeclaration d)
  | .access form a => return .access form (← t.access a)
  | .getField field receiver => return .getField (t.relocation.retarget field) receiver
  | .setField field receiver value => return .setField (t.relocation.retarget field) receiver value
  | .ret target value => return .ret (t.relocation.retarget target) value
  | .delegated v delegate accessors => do
    t.reown v
    return .delegated v delegate accessors
  | .classRef cls => do
    if (t.relocation.get? cls).isSome then throw (.unsupported .classLiteral cls)
    return .classRef cls
  | e => return e

/-! ## §2. Bodies. -/

/-- Retargets an expression in place, to a bounded depth. -/
def exprUpTo (t : Retarget) : (fuel : Nat) → ExprId → Step Unit
  | 0, _ => throw .endless
  | fuel + 1, e => do
    let old ← Step.expr e
    -- the node keeps its handle, and with it its place in the body
    old.operands.forM (t.exprUpTo fuel)
    Step.setExpr e (← t.node old)

/-- How many levels of nesting retargeting can add.  A read that becomes a field access nests one
level deeper, and does so again in each further place that shares it; each level takes an entry of
its own, and positions of entries are words of 64 bits. -/
def addedLevels : Nat := UInt64.size

/-- Retargets an expression in place.  No nesting is deeper than there are entries, counting those
that are added on the way; so the depth suffices unless some entry is nested in itself. -/
def expr (t : Retarget) (e : ExprId) : Step Unit := do
  t.exprUpTo ((← Step.program).exprs.size + addedLevels) e

/-- Retargets the body of a callable. -/
def body (t : Retarget) (d : DeclId) : Step Unit := do
  (← Step.decl d).body.forM t.expr

/-- Retargets the initializer of a field. -/
def initializer (t : Retarget) (d : DeclId) : Step Unit := do
  ((← Step.decl d).field?.bind (·.init)).forM t.expr

/-- Retargets the replacement of a member and answers with it.  Constructors have a context of their
own and are retargeted by themselves. -/
def member (t : Retarget) (old : DeclId) : Step DeclId := do
  let new ← t.relocation.lifted old
  match ← Step.decl new with
  | .constructor _ => pure ()
  | .function _ => t.body new
  | .property q => do
    (q.getter.toList ++ q.setter.toList).forM t.body
    q.backingField.forM t.initializer
  | .field _ => t.initializer new
  | .cls _ => throw (.unsupported .innerClass old)
  return new

/-- Initializes the field of a captured value from the parameter of the primary constructor. -/
def initializeCaptured (primary : DeclId) (context : Context) (v : ValueId) (field : DeclId) :
    Step DeclId := do
  let some (.param param) := context.carrier? v | throw (.violation .notPassedToPrimary primary)
  let init ← Step.addExpr (.get param)
  Step.modifyDecl field fun
    | .field f => .field { f with init := some init }
    | d => d
  return field

/-- Fills the replacement of a class with its retargeted members and the fields of its captured
values. -/
def cls (t : Retarget) (old : DeclId) : Step Unit := do
  let new ← t.relocation.lifted old
  let some c := (← Step.decl old).cls? | throw (.violation .classExpected old)
  let members ← c.members.mapM t.member
  let some (.fields _ captured) := t.context? | throw (.violation .noFieldContext old)
  let some primary ← (← Step.program).primaryConstructor? old
    | throw (.violation .noPrimaryConstructor old)
  let context ← t.relocation.context primary
  -- initializers run as part of the primary constructor, so its parameters are at hand
  let fields ← captured.entries.mapM fun (v, field) => initializeCaptured primary context v field
  Step.modifyDecl new <| Declaration.mapClass fun c => { c with members := members ++ fields }

/-! ## §3. Everything below one root. -/

/-- Retargets the replacement of a local callable. -/
def callable (locals : Locals) (relocation : Relocation) (old : DeclId) : Step Unit := do
  let context ← relocation.context old
  let new ← relocation.lifted old
  body { locals, relocation, context? := some context } new

/-- Retargets the replacement of a local class. -/
def localClass (locals : Locals) (relocation : Relocation) (old : DeclId) : Step Unit := do
  let context ← relocation.context old
  cls { locals, relocation, context? := some context } old

/-- Retargets all code that the relocation of one root touches, the root last. -/
def all (locals : Locals) (relocation : Relocation) (root : DeclId) : Step Unit := do
  locals.functions.keys.forM (callable locals relocation)
  locals.constructors.toList.forM (callable locals relocation)
  locals.classes.keys.forM (localClass locals relocation)
  body { locals, relocation, context? := none } root

end Retarget

end LambdaLift
