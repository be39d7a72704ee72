/-
  LambdaLift.IR.Expr
  **EXPRESSIONS.**

  An expression is one node; its operands are handles of other
  expressions.  `Expr.operands` lists them in evaluation order, and every
  walk over a body follows that list.
-/
import LambdaLift.IR.Ty

namespace LambdaLift

/-! ## §1. Nodes. -/

/-- A constant. -/
inductive Literal where
  | unit
  /-- a signed 64-bit integer -/
  | int (value : Int)
  | bool (value : Bool)
  | str (text : String)
  deriving DecidableEq, Repr

/-- A binary operator. -/
inductive BinOp where
  | add
  | sub
  | mul
  | lt
  | eq
  deriving DecidableEq, Repr

/-- How an access uses its callee. -/
inductive AccessForm where
  /-- the callee is called -/
  | call
  /-- the callee is a constructor, and makes an instance -/
  | new
  /-- the callee becomes a value, with some arguments bound -/
  | ref
  deriving DecidableEq, Repr

/-- The shape that calls, constructor calls and callable references share. -/
structure Access where
  callee : DeclId
  typeArgs : List Ty := []
  /-- the instance that a member is called on -/
  dispatch : Option ExprId := none
  /-- the instance that an extension is called on -/
  extension : Option ExprId := none
  /-- The arguments by position; an absent one is defaulted, or left open by a reference. -/
  args : List (Option ExprId) := []
  deriving DecidableEq, Repr

/-- One node of a body. -/
inductive Expr where
  | lit (value : Literal)
  /-- reads a value -/
  | get (value : ValueId)
  /-- writes a value -/
  | set (value : ValueId) (source : ExprId)
  /-- brings a variable into scope -/
  | var (value : ValueId) (init : Option ExprId)
  /-- a declaration in statement position -/
  | decl (decl : DeclId)
  | access (form : AccessForm) (access : Access)
  | getField (field : DeclId) (receiver : Option ExprId)
  | setField (field : DeclId) (receiver : Option ExprId) (value : ExprId)
  /-- leaves the function `target`, which may be an enclosing one -/
  | ret (target : DeclId) (value : ExprId)
  /-- statements in order; without any it does nothing -/
  | block (stmts : List ExprId)
  | branch (cond thenE : ExprId) (elseE : Option ExprId)
  | loop (cond body : ExprId)
  | binary (op : BinOp) (lhs rhs : ExprId)
  /-- brings a variable into scope whose reads go to a delegate through the accessors -/
  | delegated (value : ValueId) (delegate : ExprId) (accessors : List DeclId)
  /-- a class as a value -/
  | classRef (cls : DeclId)
  deriving DecidableEq, Repr

/-! ## §2. Operands. -/

/-- The receivers, then the arguments that are there. -/
def Access.operands (a : Access) : List ExprId :=
  a.dispatch.toList ++ a.extension.toList ++ a.args.filterMap id

namespace Expr

/-- The node that does nothing. -/
def noop : Expr := .block []

/-- Whether the node is the empty block. -/
def isNoop : Expr → Bool
  | .block [] => true
  | _ => false

/-- The subexpressions in evaluation order.  A placed declaration is not one of them. -/
def operands : Expr → List ExprId
  | .lit _ | .get _ | .decl _ | .classRef _ => []
  | .set _ source => [source]
  | .var _ init => init.toList
  | .access _ a => a.operands
  | .getField _ receiver => receiver.toList
  | .setField _ receiver value => receiver.toList ++ [value]
  | .ret _ value => [value]
  | .block stmts => stmts
  | .branch cond thenE elseE => cond :: thenE :: elseE.toList
  | .loop cond body => [cond, body]
  | .binary _ lhs rhs => [lhs, rhs]
  | .delegated _ delegate _ => [delegate]

/-- The access of a call, a constructor call or a reference. -/
def access? : Expr → Option Access
  | .access _ a => some a
  | _ => none

/-- The value that the node reads or writes. -/
def used? : Expr → Option ValueId
  | .get v => some v
  | .set v _ => some v
  | _ => none

/-- The value that the node brings into scope. -/
def bound? : Expr → Option ValueId
  | .var v _ => some v
  | .delegated v _ _ => some v
  | _ => none

/-- The declaration that the node refers to.  Placing a declaration is not referring to it. -/
def referent? : Expr → Option DeclId
  | .access _ a => some a.callee
  | .getField field _ => some field
  | .setField field _ _ => some field
  | .ret target _ => some target
  | .classRef cls => some cls
  | _ => none

end Expr

end LambdaLift
