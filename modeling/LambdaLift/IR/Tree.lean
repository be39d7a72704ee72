/-
  LambdaLift.IR.Tree
  **PROGRAMS UNFOLDED INTO TREES.**

  The operands of an expression and the parts of a declaration are handles.
  Unfolding follows them and gives a tree, on which an analysis is a plain
  recursion: a `Visitor` says what happens at a node.  Unfolding itself
  never fails: a handle that has no entry becomes a leaf `missing`, and
  nesting deeper than the program has entries (so some entry is nested in
  itself) becomes a leaf `endless`.  An analysis faults when it *reaches*
  such a leaf, and not before.

  Entries that are shared occur once for each place they stand in, so a
  tree can be far larger than its program.  `Program.visit` therefore never
  builds it: it follows handles as the visitor asks for them, and is the
  visit of the unfolded tree all the same (`Program.visitUpTo_eq`).
-/
import LambdaLift.IR.Printer

namespace LambdaLift

/-! ## §1. Places and trees. -/

/-- A place that unfolding can start from. -/
inductive Place where
  /-- an expression -/
  | expr (e : ExprId)
  /-- a declaration -/
  | decl (d : DeclId)
  /-- a declaration in the part of a property's backing field -/
  | backing (d : DeclId)
  deriving DecidableEq, Repr

/-- What stands at a place. -/
inductive Label where
  /-- a node of a body -/
  | expr (e : ExprId) (node : Expr)
  /-- a declaration -/
  | decl (d : DeclId) (content : Declaration)
  /-- a declaration in the part of a property's backing field -/
  | backing (d : DeclId) (content : Declaration)
  deriving DecidableEq, Repr

/-- What is nested in what. -/
inductive Tree where
  /-- the handle has no entry -/
  | missing
  /-- the nesting does not end -/
  | endless
  /-- an entry and what is nested in it, in order -/
  | node (label : Label) (below : List Tree)
  deriving Repr, Inhabited

/-! ## §2. Unfolding. -/

/-- How far unfolding goes at a declaration that is placed in a body. -/
inductive Reach where
  /-- the tree stops there -/
  | body
  /-- the tree goes on below it -/
  | nested
  deriving DecidableEq, Repr

/-- The parts of a declaration: bodies, members, accessors, and last the backing field. -/
def Declaration.parts : Declaration → List Place
  | .function f => f.body.toList.map .expr
  | .constructor c => c.body.toList.map .expr
  | .cls c => c.members.map .decl
  | .property q =>
    (q.getter.toList ++ q.setter.toList).map .decl ++ q.backingField.toList.map .backing
  | .field f => f.init.toList.map .expr

/-- The places nested directly in what stands at a place. -/
def Label.places (reach : Reach) : Label → List Place
  | .expr _ (.decl d) => if reach = .nested then [.decl d] else []
  | .expr _ node => node.operands.map .expr
  | .decl _ content => content.parts
  | .backing _ content => content.parts

namespace Program

/-- What stands at a place. -/
def label? (p : Program) : Place → Option Label
  | .expr e => (p.exprs.get? e).map (.expr e)
  | .decl d => (p.decls.get? d).map (.decl d)
  | .backing d => (p.decls.get? d).map (.backing d)

/-- Unfolds a place to a bounded depth. -/
def unfoldUpTo (p : Program) (reach : Reach) : (fuel : Nat) → Place → Tree
  | 0, _ => .endless
  | fuel + 1, place =>
    match p.label? place with
    | none => .missing
    | some label => .node label ((label.places reach).map (p.unfoldUpTo reach fuel))

/-- Unfolds a place.  The depth suffices unless some entry is nested in itself. -/
def unfold (p : Program) (reach : Reach) (place : Place) : Tree := p.unfoldUpTo reach p.depth place

end Program

/-! ## §3. Visiting. -/

/-- What an analysis does at a node, given what it does below it: it may act before, after, or not
go there at all. -/
abbrev Visitor (σ : Type) := Label → (below : σ → Except Fault σ) → σ → Except Fault σ

mutual
/-- Visits a tree. -/
def Tree.visit {σ : Type} (f : Visitor σ) : Tree → σ → Except Fault σ
  | .missing, _ => .error .dangling
  | .endless, _ => .error .endless
  | .node label below, s => f label (visitAll f below) s
/-- Visits trees from left to right. -/
def Tree.visitAll {σ : Type} (f : Visitor σ) : List Tree → σ → Except Fault σ
  | [], s => .ok s
  | t :: ts, s => do visitAll f ts (← t.visit f s)
end

namespace Program

/-- Visits what is nested at a place, to a bounded depth. -/
def visitUpTo {σ : Type} (p : Program) (reach : Reach) (f : Visitor σ) :
    (fuel : Nat) → Place → σ → Except Fault σ
  | 0, _, _ => .error .endless
  | fuel + 1, place, s =>
    match p.label? place with
    | none => .error .dangling
    | some label =>
      f label ((label.places reach).foldlM fun s inner => p.visitUpTo reach f fuel inner s) s

/-- Visits what is nested at a place.  The depth suffices unless some entry is nested in itself. -/
def visit {σ : Type} (p : Program) (reach : Reach) (f : Visitor σ) (place : Place) (s : σ) :
    Except Fault σ := p.visitUpTo reach f p.depth place s

/-- Visits what is nested in a declaration, placed declarations included, but not the
declaration. -/
def visitBelow {σ : Type} (p : Program) (f : Visitor σ) (d : DeclId) (s : σ) : Except Fault σ := do
  (← p.decl d).parts.foldlM (fun s part => p.visit .nested f part s) s

/-- Visiting to a bounded depth is visiting the tree of that depth. -/
theorem visitUpTo_eq {σ : Type} (p : Program) (reach : Reach) (f : Visitor σ)
    (fuel : Nat) (place : Place) :
    p.visitUpTo reach f fuel place = (p.unfoldUpTo reach fuel place).visit f := by
  induction fuel generalizing place with
  | zero => rfl
  | succ fuel ih =>
    have all (places : List Place) (s : σ) :
        places.foldlM (fun s inner => p.visitUpTo reach f fuel inner s) s
          = Tree.visitAll f (places.map (p.unfoldUpTo reach fuel)) s := by
      induction places generalizing s with
      | nil => rfl
      | cons q qs ihq =>
        simp only [ih] at ihq
        simp only [List.foldlM_cons, List.map_cons, Tree.visitAll, ih, ihq]
    funext s
    unfold visitUpTo unfoldUpTo
    split
    · rfl
    · simp only [Tree.visit]
      congr 1
      exact funext (all _)

end Program

end LambdaLift
