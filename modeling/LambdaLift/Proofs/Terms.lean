/-
  LambdaLift.Proofs.Terms
  **CODE AS TREES, AND WHAT RETARGETING MEANS FOR THEM.**

  An expression in the arena spells a tree: its node, with the trees of
  its operands in place of their handles.  On trees, retargeting is a plain
  recursion (`Retarget.subst`) that neither adds entries nor writes to any.
  The rewriting in place does the same node by node: if every node of an
  expression has become what it should (`NodeTo`), then the expression
  spells the substituted tree.

  A program is tree shaped if no expression is an operand, a body or an
  initializer in two places.  Then the code of two declarations has no
  expression in common, and neither have two operands of a node.

  Main results:
    * `Retarget.termUpTo_subst` — rewritten node by node, code spells the
      substituted tree;
    * `TreeShaped.code_disjoint`, `TreeShaped.treelike` — what cannot overlap.
-/
import Mathlib
import LambdaLift.Proofs.Below
import LambdaLift.Proofs.Retargeting

namespace LambdaLift

variable {d d' : DeclId} {a b e x : ExprId} {content content' : Declaration} {node : Expr}
  {old : List ValueId} {levels : Nat}

/-! ## §1. Trees. -/

/-- An expression with its operands in it. -/
inductive Term where
  | lit (value : Literal)
  | get (value : ValueId)
  | set (value : ValueId) (source : Term)
  | var (value : ValueId) (init : Option Term)
  | decl (decl : DeclId)
  | access (form : AccessForm) (callee : DeclId) (typeArgs : List Ty)
      (dispatch extension : Option Term) (args : List (Option Term))
  | getField (field : DeclId) (receiver : Option Term)
  | setField (field : DeclId) (receiver : Option Term) (value : Term)
  | ret (target : DeclId) (value : Term)
  | block (stmts : List Term)
  | branch (cond thenE : Term) (elseE : Option Term)
  | loop (cond body : Term)
  | binary (op : BinOp) (lhs rhs : Term)
  | delegated (value : ValueId) (delegate : Term) (accessors : List DeclId)
  | classRef (cls : DeclId)

/-- Reads an operand that may be absent. -/
def Term.optional (read : ExprId → Option Term) : Option ExprId → Option (Option Term)
  | none => some none
  | some e => (read e).map some

/-- The tree of a node, given those of its operands. -/
def Expr.term? (read : ExprId → Option Term) : Expr → Option Term
  | .lit value => some (.lit value)
  | .get v => some (.get v)
  | .set v source => (read source).map (.set v)
  | .var v init => (Term.optional read init).map (.var v)
  | .decl d => some (.decl d)
  | .access form a => do
    let dispatch ← Term.optional read a.dispatch
    let extension ← Term.optional read a.extension
    let args ← a.args.mapM (Term.optional read)
    return .access form a.callee a.typeArgs dispatch extension args
  | .getField field receiver => (Term.optional read receiver).map (.getField field)
  | .setField field receiver value => do
    let receiver ← Term.optional read receiver
    let value ← read value
    return .setField field receiver value
  | .ret target value => (read value).map (.ret target)
  | .block stmts => (stmts.mapM read).map .block
  | .branch cond thenE elseE => do
    let cond ← read cond
    let thenE ← read thenE
    let elseE ← Term.optional read elseE
    return .branch cond thenE elseE
  | .loop cond body => do
    let cond ← read cond
    let body ← read body
    return .loop cond body
  | .binary op lhs rhs => do
    let lhs ← read lhs
    let rhs ← read rhs
    return .binary op lhs rhs
  | .delegated v delegate accessors => (read delegate).map (.delegated v · accessors)
  | .classRef cls => some (.classRef cls)

namespace Program

/-- Reads the tree of an expression back from the arena, to a bounded depth. -/
def termUpTo (p : Program) : (fuel : Nat) → ExprId → Option Term
  | 0, _ => none
  | fuel + 1, e => (p.exprs.get? e).bind (Expr.term? (p.termUpTo fuel))

/-- The expression spells the tree. -/
def Spells (p : Program) (e : ExprId) (tree : Term) : Prop := ∃ fuel, p.termUpTo fuel e = some tree

end Program

/-! ## §2. Retargeting a tree. -/

/-- What a callable takes. -/
def Program.paramsOf (q : Program) (d : DeclId) : List ValueId :=
  ((q.decls.get? d).map (·.params)).getD []

namespace Retarget

/-- The tree that reads a value. -/
def readTerm (t : Retarget) (v : ValueId) : Term :=
  match t.carrier? v with
  | some (.param x) => .get x
  | some (.field f this) => .getField f (some (.get this))
  | none => .get (t.counterpart v)

/-- The argument for a parameter of a replacement: the old argument of its counterpart, or a read of
the captured value that it carries. -/
def argTerm (t : Retarget) (oldParams : List ValueId) (args : List (Option Term))
    (param : ValueId) : Option Term :=
  match t.relocation.values.back? param, t.relocation.carried.get? param with
  | some old, _ => (oldParams.findIdx? (· = old)).bind fun position => (args[position]?).join
  | none, some captured => some (t.readTerm captured)
  | none, none => none

mutual
/-- **Retargeting as a substitution on trees.**  `q` knows the parameters of callables and of their
replacements. -/
def subst (t : Retarget) (q : Program) : Term → Term
  | .lit value => .lit value
  | .get v => t.readTerm v
  | .set v source => .set (t.counterpart v) (subst t q source)
  | .var v init => .var v (substOptional t q init)
  | .decl _ => .block []
  | .access form callee typeArgs dispatch extension args =>
    match t.relocation.get? callee with
    | none =>
      .access form callee typeArgs (substOptional t q dispatch) (substOptional t q extension)
        (substArgs t q args)
    | some new =>
      .access form new typeArgs (substOptional t q dispatch) (substOptional t q extension)
        ((q.paramsOf new).map (t.argTerm (q.paramsOf callee) (substArgs t q args)))
  | .getField field receiver => .getField (t.relocation.retarget field) (substOptional t q receiver)
  | .setField field receiver value =>
    .setField (t.relocation.retarget field) (substOptional t q receiver) (subst t q value)
  | .ret target value => .ret (t.relocation.retarget target) (subst t q value)
  | .block stmts => .block (substAll t q stmts)
  | .branch cond thenE elseE => .branch (subst t q cond) (subst t q thenE) (substOptional t q elseE)
  | .loop cond body => .loop (subst t q cond) (subst t q body)
  | .binary op lhs rhs => .binary op (subst t q lhs) (subst t q rhs)
  | .delegated v delegate accessors => .delegated v (subst t q delegate) accessors
  | .classRef cls => .classRef cls
/-- Retargets a tree that may be absent. -/
def substOptional (t : Retarget) (q : Program) : Option Term → Option Term
  | none => none
  | some tree => some (subst t q tree)
/-- Retargets trees. -/
def substAll (t : Retarget) (q : Program) : List Term → List Term
  | [] => []
  | tree :: trees => subst t q tree :: substAll t q trees
/-- Retargets arguments. -/
def substArgs (t : Retarget) (q : Program) : List (Option Term) → List (Option Term)
  | [] => []
  | arg :: args => substOptional t q arg :: substArgs t q args
end

theorem substOptional_eq (t : Retarget) (q : Program) (tree : Option Term) :
    t.substOptional q tree = tree.map (t.subst q) := by
  cases tree <;> simp [substOptional]

theorem substAll_eq (t : Retarget) (q : Program) (trees : List Term) :
    t.substAll q trees = trees.map (t.subst q) := by
  induction trees with
  | nil => simp [substAll]
  | cons tree trees ih => simp [substAll, ih]

theorem substArgs_eq (t : Retarget) (q : Program) (args : List (Option Term)) :
    t.substArgs q args = args.map (Option.map (t.subst q)) := by
  induction args with
  | nil => simp [substArgs]
  | cons arg args ih => simp [substArgs, substOptional_eq, ih]

end Retarget

/-! ## §3. Rewritten nodes spell substituted trees. -/

theorem List.mapM_map_of_imp {α β γ : Type} {f : α → Option β} {g : α → Option γ} {h : β → γ}
    {xs : List α} {ys : List β} (himp : ∀ x ∈ xs, ∀ y, f x = some y → g x = some (h y))
    (hxs : xs.mapM f = some ys) : xs.mapM g = some (ys.map h) := by
  induction xs generalizing ys with
  | nil =>
    cases hxs
    rfl
  | cons x xs ih =>
    rw [List.mapM_cons] at hxs ⊢
    obtain ⟨y, hy, hxs⟩ := Option.bind_eq_some_iff.1 hxs
    obtain ⟨ys', hys', hxs⟩ := Option.bind_eq_some_iff.1 hxs
    cases hxs
    rw [himp x List.mem_cons_self y hy, ih (fun x hx => himp x (List.mem_cons_of_mem _ hx)) hys']
    rfl

theorem List.getElem?_of_mapM {α β : Type} {f : α → Option β} {xs : List α} {ys : List β}
    (hxs : xs.mapM f = some ys) (i : Nat) :
    (xs[i]?).bind f = ys[i]? ∧ (xs[i]? = none ↔ ys[i]? = none) := by
  induction xs generalizing ys i with
  | nil =>
    cases hxs
    simp
  | cons x xs ih =>
    rw [List.mapM_cons] at hxs
    obtain ⟨y, hy, hxs⟩ := Option.bind_eq_some_iff.1 hxs
    obtain ⟨ys', hys', hxs⟩ := Option.bind_eq_some_iff.1 hxs
    cases hxs
    cases i with
    | zero => simpa using hy
    | succ i => simpa using ih hys' i

/-- What reads more reads the same trees. -/
theorem Expr.term?_mono {read read' : ExprId → Option Term}
    (hread : ∀ x tree, read x = some tree → read' x = some tree) {tree : Term}
    (h : node.term? read = some tree) : node.term? read' = some tree := by
  have hoptional : ∀ o o', Term.optional read o = some o' → Term.optional read' o = some o' := by
    intro o o' ho
    cases o with
    | none => exact ho
    | some x =>
      obtain ⟨tree, htree, rfl⟩ := Option.map_eq_some_iff.1 ho
      show (read' x).map some = _
      rw [hread x tree htree]
      rfl
  have hall : ∀ {α β : Type} {f g : α → Option β}, (∀ x y, f x = some y → g x = some y) →
      ∀ {xs : List α} {ys : List β}, xs.mapM f = some ys → xs.mapM g = some ys := by
    intro α β f g hfg xs ys hxs
    have := List.mapM_map_of_imp (h := id) (fun x _ y hy => hfg x y hy) hxs
    rwa [List.map_id] at this
  cases node with
  | lit | get | decl | classRef => exact h
  | set v x | ret v x | delegated v x ds =>
    obtain ⟨tree, htree, rfl⟩ := Option.map_eq_some_iff.1 h
    rw [term?, hread x tree htree]
    rfl
  | var v o | getField v o =>
    obtain ⟨o', ho', rfl⟩ := Option.map_eq_some_iff.1 h
    rw [term?, hoptional o o' ho']
    rfl
  | setField f o x =>
    obtain ⟨o', ho', h⟩ := Option.bind_eq_some_iff.1 h
    obtain ⟨tree, htree, h⟩ := Option.bind_eq_some_iff.1 h
    cases h
    rw [term?, hoptional o o' ho', hread x tree htree]
    rfl
  | block xs =>
    obtain ⟨trees, htrees, rfl⟩ := Option.map_eq_some_iff.1 h
    rw [term?, hall hread htrees]
    rfl
  | branch x y o =>
    obtain ⟨a, ha, h⟩ := Option.bind_eq_some_iff.1 h
    obtain ⟨b, hb, h⟩ := Option.bind_eq_some_iff.1 h
    obtain ⟨o', ho', h⟩ := Option.bind_eq_some_iff.1 h
    cases h
    rw [term?, hread x a ha, hread y b hb, hoptional o o' ho']
    rfl
  | loop x y | binary op x y =>
    obtain ⟨a, ha, h⟩ := Option.bind_eq_some_iff.1 h
    obtain ⟨b, hb, h⟩ := Option.bind_eq_some_iff.1 h
    cases h
    rw [term?, hread x a ha, hread y b hb]
    rfl
  | access form a =>
    obtain ⟨dispatch, hdispatch, h⟩ := Option.bind_eq_some_iff.1 h
    obtain ⟨extension, hextension, h⟩ := Option.bind_eq_some_iff.1 h
    obtain ⟨args, hargs, h⟩ := Option.bind_eq_some_iff.1 h
    cases h
    rw [term?, hoptional _ _ hdispatch, hoptional _ _ hextension, hall hoptional hargs]
    rfl

namespace Program

variable {p p' : Program} {e : ExprId} {tree tree' : Term}

theorem termUpTo_mono {fuel fuel' : Nat} (h : p.termUpTo fuel e = some tree) (hle : fuel ≤ fuel') :
    p.termUpTo fuel' e = some tree := by
  induction fuel generalizing fuel' e tree with
  | zero => cases h
  | succ fuel ih =>
    obtain ⟨fuel', rfl⟩ : ∃ n, fuel' = n + 1 := ⟨fuel' - 1, by omega⟩
    obtain ⟨node, hnode, h⟩ := Option.bind_eq_some_iff.1 h
    show (p.exprs.get? e).bind _ = _
    rw [hnode]
    exact Expr.term?_mono (fun x tree hx => ih hx (by omega)) h

/-- An expression spells one tree. -/
theorem Spells.unique (h : p.Spells e tree) (h' : p.Spells e tree') : tree = tree' := by
  obtain ⟨fuel, h⟩ := h
  obtain ⟨fuel', h'⟩ := h'
  have := termUpTo_mono h (Nat.le_max_left fuel fuel')
  have := termUpTo_mono h' (Nat.le_max_right fuel fuel')
  simp_all

theorem termUpTo_congr (h : p'.exprs = p.exprs) : p'.termUpTo = p.termUpTo := by
  funext fuel
  induction fuel with
  | zero => rfl
  | succ fuel ih =>
    funext e
    unfold termUpTo
    rw [ih, h]

end Program

theorem Term.optional_of_imp {read read' : ExprId → Option Term} {f : Term → Term}
    {o : Option ExprId} {o' : Option Term} (himp : ∀ x, o = some x → ∀ tree, read x = some tree →
      read' x = some (f tree)) (ho : optional read o = some o') :
    optional read' o = some (o'.map f) := by
  cases o with
  | none =>
    cases ho
    rfl
  | some x =>
    obtain ⟨tree, htree, rfl⟩ := Option.map_eq_some_iff.1 ho
    show (read' x).map some = _
    rw [himp x rfl tree htree]
    rfl

namespace Retarget

variable {t : Retarget} {q p : Program} {fuel : Nat}

/-- A node that reads a value spells the tree that does. -/
theorem ReadsAs.termUpTo {v : ValueId} (h : ReadsAs t q p v node)
    (hx : p.exprs.get? x = some node) : p.termUpTo (fuel + 2) x = some (t.readTerm v) := by
  unfold Program.termUpTo readTerm
  rw [hx]
  cases h with
  | counterpart hcarrier =>
    rw [hcarrier]
    rfl
  | param hcarrier =>
    rw [hcarrier]
    rfl
  | @field f this receiver hcarrier hnew hreceiver =>
    have hread : p.termUpTo (fuel + 1) receiver = some (.get this) := by
      unfold Program.termUpTo
      rw [hreceiver]
      rfl
    rw [hcarrier]
    show ((p.termUpTo (fuel + 1) receiver).map some).map _ = _
    rw [hread]
    rfl

/-- The argument for a parameter spells the tree of that argument. -/
theorem ArgTo.optional {read : ExprId → Option Term} {args : List (Option ExprId)}
    {trees : List (Option Term)} {param : ValueId} {arg : Option ExprId}
    (h : ArgTo t q p old args param arg) (htrees : args.mapM (Term.optional read) = some trees)
    (hread : ∀ x, some x ∈ args → ∀ tree, read x = some tree →
      p.termUpTo (fuel + 2) x = some (t.subst q tree)) :
    Term.optional (p.termUpTo (fuel + 2)) arg
      = some (t.argTerm old (trees.map (Option.map (t.subst q))) param) := by
  cases h with
  | @copied v i hback hi =>
    obtain ⟨hget, hnone⟩ := List.getElem?_of_mapM htrees i
    simp only [argTerm, hback, hi, Option.bind_some, List.getElem?_map]
    cases ha : args[i]? with
    | none =>
      rw [hnone.1 ha]
      rfl
    | some o =>
      rw [ha] at hget
      cases ho : trees[i]? with
      | none =>
        rw [hnone.2 ho] at ha
        cases ha
      | some o' =>
        rw [ho] at hget
        exact Term.optional_of_imp (fun x hx => hread x (hx ▸ List.mem_of_getElem? ha)) hget
  | @captured v x node hback hcarried hnew hx hreads =>
    simp only [argTerm, hback, hcarried]
    show (p.termUpTo (fuel + 2) x).map some = _
    rw [hreads.termUpTo hx]
    rfl

/-- The arguments of a replacement, one for each of its parameters. -/
theorem args_optional {read : ExprId → Option Term} {args args' : List (Option ExprId)}
    {trees : List (Option Term)} {params : List ValueId}
    (hargs : List.Forall₂ (ArgTo t q p old args) params args')
    (htrees : args.mapM (Term.optional read) = some trees) (hread : ∀ x, some x ∈ args →
      ∀ tree, read x = some tree → p.termUpTo (fuel + 2) x = some (t.subst q tree)) :
    args'.mapM (Term.optional (p.termUpTo (fuel + 2)))
      = some (params.map (t.argTerm old (trees.map (Option.map (t.subst q))))) := by
  induction hargs with
  | nil => rfl
  | cons harg _ ih =>
    rw [List.mapM_cons, harg.optional htrees hread, ih]
    rfl

/-- **A rewritten node spells the substituted tree** if its operands do. -/
theorem NodeTo.term? {read : ExprId → Option Term} {node' : Expr} {tree : Term}
    (h : NodeTo t q p node node') (hx : p.exprs.get? x = some node')
    (htree : node.term? read = some tree) (hread : ∀ x ∈ node.operands, ∀ tree, read x = some tree →
      p.termUpTo (fuel + 2) x = some (t.subst q tree)) :
    p.termUpTo (fuel + 3) x = some (t.subst q tree) := by
  -- an optional operand is an operand
  have hoptional : ∀ {o : Option ExprId} {o' : Option Term}, (∀ x, o = some x → x ∈ node.operands) →
      Term.optional read o = some o' →
      Term.optional (p.termUpTo (fuel + 2)) o = some (o'.map (t.subst q)) :=
    fun hmem ho => Term.optional_of_imp (fun x hx => hread x (hmem x hx)) ho
  have hterm : p.termUpTo (fuel + 3) x = node'.term? (p.termUpTo (fuel + 2)) := by
    show (p.exprs.get? x).bind _ = _
    rw [hx]
    rfl
  cases h with
  | get hreads =>
    cases htree
    exact hreads.termUpTo hx
  | lit =>
    cases htree
    exact hterm
  | decl =>
    cases htree
    exact hterm
  | classRef =>
    cases htree
    exact hterm
  | set =>
    obtain ⟨source, hsource, rfl⟩ := Option.map_eq_some_iff.1 htree
    rw [hterm, Expr.term?, hread _ (by simp [Expr.operands]) _ hsource]
    rfl
  | var =>
    obtain ⟨init, hinit, rfl⟩ := Option.map_eq_some_iff.1 htree
    rw [hterm, Expr.term?, hoptional (fun x hx => by simp [Expr.operands, hx]) hinit,
      subst, substOptional_eq]
    rfl
  | getField =>
    obtain ⟨receiver, hreceiver, rfl⟩ := Option.map_eq_some_iff.1 htree
    rw [hterm, Expr.term?, hoptional (fun x hx => by simp [Expr.operands, hx]) hreceiver,
      subst, substOptional_eq]
    rfl
  | setField =>
    obtain ⟨receiver, hreceiver, htree⟩ := Option.bind_eq_some_iff.1 htree
    obtain ⟨value, hvalue, htree⟩ := Option.bind_eq_some_iff.1 htree
    cases htree
    rw [hterm, Expr.term?, hoptional (fun x hx => by simp [Expr.operands, hx]) hreceiver,
      hread _ (by simp [Expr.operands]) _ hvalue, subst, substOptional_eq]
    rfl
  | ret =>
    obtain ⟨value, hvalue, rfl⟩ := Option.map_eq_some_iff.1 htree
    rw [hterm, Expr.term?, hread _ (by simp [Expr.operands]) _ hvalue]
    rfl
  | block =>
    obtain ⟨stmts, hstmts, rfl⟩ := Option.map_eq_some_iff.1 htree
    rw [hterm, Expr.term?,
      List.mapM_map_of_imp (fun x hx => hread x (by simpa [Expr.operands] using hx)) hstmts, subst,
      substAll_eq]
    rfl
  | branch =>
    obtain ⟨cond, hcond, htree⟩ := Option.bind_eq_some_iff.1 htree
    obtain ⟨thenE, hthen, htree⟩ := Option.bind_eq_some_iff.1 htree
    obtain ⟨elseE, helse, htree⟩ := Option.bind_eq_some_iff.1 htree
    cases htree
    rw [hterm, Expr.term?, hread _ (by simp [Expr.operands]) _ hcond,
      hread _ (by simp [Expr.operands]) _ hthen,
      hoptional (fun x hx => by simp [Expr.operands, hx]) helse, subst, substOptional_eq]
    rfl
  | loop =>
    obtain ⟨cond, hcond, htree⟩ := Option.bind_eq_some_iff.1 htree
    obtain ⟨body, hbody, htree⟩ := Option.bind_eq_some_iff.1 htree
    cases htree
    rw [hterm, Expr.term?, hread _ (by simp [Expr.operands]) _ hcond,
      hread _ (by simp [Expr.operands]) _ hbody]
    rfl
  | binary =>
    obtain ⟨lhs, hlhs, htree⟩ := Option.bind_eq_some_iff.1 htree
    obtain ⟨rhs, hrhs, htree⟩ := Option.bind_eq_some_iff.1 htree
    cases htree
    rw [hterm, Expr.term?, hread _ (by simp [Expr.operands]) _ hlhs,
      hread _ (by simp [Expr.operands]) _ hrhs]
    rfl
  | delegated =>
    obtain ⟨delegate, hdelegate, rfl⟩ := Option.map_eq_some_iff.1 htree
    rw [hterm, Expr.term?, hread _ (by simp [Expr.operands]) _ hdelegate]
    rfl
  | @access form a a' haccess =>
    obtain ⟨dispatch, hdispatch, htree⟩ := Option.bind_eq_some_iff.1 htree
    obtain ⟨extension, hextension, htree⟩ := Option.bind_eq_some_iff.1 htree
    obtain ⟨args, hargs, htree⟩ := Option.bind_eq_some_iff.1 htree
    cases htree
    have hdispatch' :=
      hoptional (fun x hx => by simp [Expr.operands, Access.operands, hx]) hdispatch
    have hextension' :=
      hoptional (fun x hx => by simp [Expr.operands, Access.operands, hx]) hextension
    have hreadArgs : ∀ x, some x ∈ a.args → ∀ tree, read x = some tree →
        p.termUpTo (fuel + 2) x = some (t.subst q tree) :=
      fun x hx => hread x (by simp [Expr.operands, Access.operands, hx])
    rw [hterm]
    cases haccess with
    | kept hkept =>
      have hargs' : a.args.mapM (Term.optional (p.termUpTo (fuel + 2)))
          = some (args.map (Option.map (t.subst q))) :=
        List.mapM_map_of_imp
          (fun o ho o' ho' => Term.optional_of_imp (fun x hx => hreadArgs x (hx ▸ ho)) ho') hargs
      simp only [Expr.term?, hdispatch', hextension', hargs', subst, hkept,
        substOptional_eq, substArgs_eq]
      rfl
    | @moved new old content args' hnew hold hcontent hmoved =>
      have hargs' := args_optional hmoved hargs hreadArgs
      have hparams : q.paramsOf new = content.params ∧ q.paramsOf a.callee = old.params := by
        simp [Program.paramsOf, hold, hcontent]
      simp only [Expr.term?, hdispatch', hextension', hargs', subst, hnew, substOptional_eq,
        substArgs_eq, hparams]
      rfl

/-- **Rewritten node by node, code spells the substituted tree.** -/
theorem termUpTo_subst {tree : Term} (htree : q.termUpTo fuel e = some tree)
    (hnodes : ∀ x, q.Inside e x → ∀ node, q.exprs.get? x = some node →
      ∃ node', p.exprs.get? x = some node' ∧ NodeTo t q p node node') :
    p.termUpTo (fuel + 2) e = some (t.subst q tree) := by
  induction fuel generalizing e tree with
  | zero => cases htree
  | succ fuel ih =>
    obtain ⟨node, hnode, htree⟩ := Option.bind_eq_some_iff.1 htree
    obtain ⟨node', hnode', hto⟩ := hnodes e .refl node hnode
    refine hto.term? hnode' htree fun x hx tree htree => ih htree fun y hy => hnodes y ?_
    exact .head ⟨node, hnode, hx⟩ hy

end Retarget

/-! ## §4. Tree-shaped programs. -/

namespace Program

/-- No expression is an operand, a body or an initializer in two places. -/
def TreeShaped (p : Program) : Prop :=
  (p.exprs.entries.toList.flatMap (·.operands) ++ p.decls.entries.toList.flatMap
    (·.code.toList)).Nodup

instance (p : Program) : Decidable p.TreeShaped := by
  unfold TreeShaped
  infer_instance

/-- An element that stands in one place of a table comes from one entry. -/
theorem eq_of_nodup_flatMap {kind : Entity} {α β : Type} {a : Arena kind α} {f : α → List β}
    (h : (a.entries.toList.flatMap f).Nodup) {i j : Handle kind} {x y : α} {b : β}
    (hi : a.get? i = some x) (hj : a.get? j = some y) (hx : b ∈ f x) (hy : b ∈ f y) : i = j := by
  have hpairwise := List.pairwise_iff_getElem.1 (List.nodup_flatMap.1 h).2
  obtain ⟨hilt, hi⟩ := Array.getElem?_eq_some_iff.1 hi
  obtain ⟨hjlt, hj⟩ := Array.getElem?_eq_some_iff.1 hj
  have hx' : b ∈ f a.entries.toList[i.index] := by simpa [hi] using hx
  have hy' : b ∈ f a.entries.toList[j.index] := by simpa [hj] using hy
  rcases Nat.lt_trichotomy i.index j.index with hlt | heq | hlt
  · exact absurd hy' (hpairwise _ _ hilt hjlt hlt hx')
  · cases i
    cases j
    exact congrArg _ heq
  · exact absurd hx' (hpairwise _ _ hjlt hilt hlt hy')

variable {p : Program}

namespace TreeShaped

variable (h : p.TreeShaped)
include h

theorem operand_unique (ha : p.Operand a x) (hb : p.Operand b x) : a = b := by
  obtain ⟨node, hnode, hx⟩ := ha
  obtain ⟨node', hnode', hx'⟩ := hb
  exact eq_of_nodup_flatMap (List.nodup_append.1 h).1 hnode hnode' hx hx'

theorem operands_nodup (he : p.exprs.get? e = some node) : node.operands.Nodup :=
  (List.nodup_flatMap.1 (List.nodup_append.1 h).1).1 node (Arena.mem_entries_of_get? he)

theorem code_unique (hd : p.decls.get? d = some content) (hd' : p.decls.get? d' = some content')
    (he : content.code = some e) (he' : content'.code = some e) : d = d' :=
  eq_of_nodup_flatMap (List.nodup_append.1 h).2.1 hd hd' (b := e) (by simp [he]) (by simp [he'])

theorem not_operand (hd : p.decls.get? d = some content) (he : content.code = some e) :
    ¬ p.Operand a e := by
  rintro ⟨node, hnode, hmem⟩
  refine (List.nodup_append.1 h).2.2 e ?_ e ?_ rfl
  · exact List.mem_flatMap.2 ⟨node, Arena.mem_entries_of_get? hnode, hmem⟩
  · exact List.mem_flatMap.2 ⟨content, Arena.mem_entries_of_get? hd, by simp [he]⟩

/-- **The code of two declarations has nothing in common.** -/
theorem code_disjoint {e' : ExprId} (hd : p.decls.get? d = some content)
    (hd' : p.decls.get? d' = some content') (he : content.code = some e)
    (he' : content'.code = some e') (hx : p.Inside e x) (hx' : p.Inside e' x) : d = d' := by
  have heq : e = e' := by
    -- both paths to `x` go back through the one place where it stands
    induction hx with
    | refl =>
      rcases Relation.ReflTransGen.cases_tail hx' with heq | ⟨y, -, hstep⟩
      · exact heq
      · exact absurd hstep (h.not_operand hd he)
    | @tail y x _ hstep ih =>
      rcases Relation.ReflTransGen.cases_tail hx' with rfl | ⟨y', hy', hstep'⟩
      · exact absurd hstep (h.not_operand hd' he')
      · rw [h.operand_unique hstep hstep'] at ih
        exact ih hy'
  exact h.code_unique hd hd' he (heq ▸ he')

end TreeShaped

/-- **Operands have nothing in common** where nesting ends. -/
theorem TreeShaped.treelike (h : p.TreeShaped) (hb : p.Shallow levels e) : p.Treelike e :=
  hb.treelike (fun _ _ ha hb => h.operand_unique ha hb) fun _ hnode => h.operands_nodup hnode

/-- Where nesting ends, there is a tree. -/
theorem Bounded.exists_term (h : p.Bounded levels (.expr e)) :
    ∃ tree, p.termUpTo levels e = some tree := by
  induction levels generalizing e with
  | zero => exact h.elim
  | succ levels ih =>
    obtain ⟨label, hlabel, hinner⟩ := h
    obtain ⟨node, hnode, rfl⟩ := Option.map_eq_some_iff.1 hlabel
    have hread : ∀ x ∈ node.operands, ∃ tree, p.termUpTo levels x = some tree := by
      intro x hx
      obtain ⟨label', hlabel', hmem⟩ := Operand.follows ⟨node, hnode, hx⟩
      cases hlabel.symm.trans hlabel'
      exact ih (hinner _ hmem)
    have hoptional : ∀ o : Option ExprId, (∀ x, o = some x → x ∈ node.operands) →
        ∃ o', Term.optional (p.termUpTo levels) o = some o' := by
      intro o ho
      cases o with
      | none => exact ⟨none, rfl⟩
      | some x =>
        obtain ⟨tree, htree⟩ := hread x (ho x rfl)
        exact ⟨some tree, by rw [Term.optional, htree]; rfl⟩
    have hall : ∀ {α β : Type} {f : α → Option β} (xs : List α), (∀ x ∈ xs, ∃ y, f x = some y) →
        ∃ ys, xs.mapM f = some ys := by
      intro α β f xs hxs
      induction xs with
      | nil => exact ⟨[], rfl⟩
      | cons x xs ihxs =>
        obtain ⟨y, hy⟩ := hxs x List.mem_cons_self
        obtain ⟨ys, hys⟩ := ihxs fun x hx => hxs x (List.mem_cons_of_mem _ hx)
        exact ⟨y :: ys, by rw [List.mapM_cons, hy, hys]; rfl⟩
    show ∃ tree, (p.exprs.get? e).bind _ = some tree
    rw [hnode]
    show ∃ tree, node.term? (p.termUpTo levels) = some tree
    cases node with
    | lit | get | decl | classRef => exact ⟨_, rfl⟩
    | set v source | ret v source | delegated v source ds =>
      obtain ⟨tree, htree⟩ := hread source (by simp [Expr.operands])
      exact ⟨_, by rw [Expr.term?, htree]; rfl⟩
    | var v o | getField v o =>
      obtain ⟨o', ho'⟩ := hoptional o fun x hx => by simp [Expr.operands, hx]
      exact ⟨_, by rw [Expr.term?, ho']; rfl⟩
    | setField f o value =>
      obtain ⟨o', ho'⟩ := hoptional o fun x hx => by simp [Expr.operands, hx]
      obtain ⟨tree, htree⟩ := hread value (by simp [Expr.operands])
      exact ⟨_, by rw [Expr.term?, ho', htree]; rfl⟩
    | block stmts =>
      obtain ⟨trees, htrees⟩ := hall stmts fun x hx => hread x (by simpa [Expr.operands] using hx)
      exact ⟨_, by rw [Expr.term?, htrees]; rfl⟩
    | branch cond thenE elseE =>
      obtain ⟨a, ha⟩ := hread cond (by simp [Expr.operands])
      obtain ⟨b, hb⟩ := hread thenE (by simp [Expr.operands])
      obtain ⟨o', ho'⟩ := hoptional elseE fun x hx => by simp [Expr.operands, hx]
      exact ⟨_, by rw [Expr.term?, ha, hb, ho']; rfl⟩
    | loop lhs rhs | binary op lhs rhs =>
      obtain ⟨a, ha⟩ := hread lhs (by simp [Expr.operands])
      obtain ⟨b, hb⟩ := hread rhs (by simp [Expr.operands])
      exact ⟨_, by rw [Expr.term?, ha, hb]; rfl⟩
    | access form a =>
      obtain ⟨dispatch, hdispatch⟩ :=
        hoptional a.dispatch fun x hx => by simp [Expr.operands, Access.operands, hx]
      obtain ⟨extension, hextension⟩ :=
        hoptional a.extension fun x hx => by simp [Expr.operands, Access.operands, hx]
      obtain ⟨args, hargs⟩ := hall a.args fun o ho => hoptional o fun x hx => by
        simp [Expr.operands, Access.operands, ← hx, ho]
      exact ⟨_, by rw [Expr.term?, hdispatch, hextension, hargs]; rfl⟩

end Program

end LambdaLift
