/-
  LambdaLift.Proofs.Rewrites
  **WHAT BECOMES OF ONE NODE.**

  Retargeting works in place: a node keeps its handle, and nodes that read
  captured values are added at the end.  `NodeTo` relates a node to what
  becomes of it.  Apart from the reads that are added, nothing happens to
  the program but that a value which the node binds goes to the replacement
  of its owner (`Turns`).  If a node is not taken, `Blocks` says why.

  Main results:
    * `NodeTo.shift` — what has become of a node stays;
    * `NodeTo.knows` — a rewritten node names what is there;
    * `node_yields` — one node, in any program.
-/
import Mathlib
import LambdaLift.Retarget
import LambdaLift.Proofs.Founded
import LambdaLift.Proofs.Leaves

namespace LambdaLift

variable {p q : Program} {d new : DeclId} {e : ExprId} {param v : ValueId} {a : Declaration}
  {node node' : Expr} {old : List ValueId} {value : Value} {f : Fault}

/-- Overwriting an entry by itself changes nothing. -/
theorem Arena.set_eq_self {kind : Entity} {α : Type} {a : Arena kind α} {h : Handle kind} {x : α}
    (hx : a.get? h = some x) : a.set h x = a := by
  obtain ⟨hlt, rfl⟩ := Array.getElem?_eq_some_iff.1 hx
  obtain ⟨entries⟩ := a
  refine congrArg Arena.mk (Array.ext_getElem? fun i => ?_)
  rw [Array.getElem?_setIfInBounds]
  split
  next heq => simp_all
  next => rfl

/-- A handle that cannot be looked up leads nowhere. -/
theorem Arena.get?_of_lookup {kind : Entity} {α : Type} {a : Arena kind α} {h : Handle kind}
    (hf : a.lookup h = .error f) : a.get? h = none := by
  unfold Arena.lookup at hf
  cases hx : a.get? h with
  | none => rfl
  | some x =>
    rw [hx] at hf
    cases hf

/-! ## §1. What becomes of a node. -/

/-- What a carrier names is there. -/
def Carrier.Within (q : Program) : Carrier → Prop
  | .param x => x.index < q.values.size
  | .field f this => f.index < q.decls.size ∧ this.index < q.values.size

theorem Carrier.Leads.within {p₀ : Program} {k : Carrier} (h : k.Leads p₀ q) : k.Within q := by
  cases k with
  | param => exact h
  | field => exact ⟨h.1, h.2.2⟩

/-- The context is that of a declaration, or none. -/
def Relocation.Records (r : Relocation) (c : Option Context) : Prop :=
  ∀ context, c = some context → ∃ d, r.contexts.get? d = some context

namespace Retarget

/-- A node that reads a value in retargeted code.  The receiver of a field is a node of its own,
newer than those of `q`. -/
inductive ReadsAs (t : Retarget) (q p : Program) (v : ValueId) : Expr → Prop
  | counterpart : t.carrier? v = none → ReadsAs t q p v (.get (t.counterpart v))
  | param {x : ValueId} : t.carrier? v = some (.param x) → ReadsAs t q p v (.get x)
  | field {f : DeclId} {this : ValueId} {receiver : ExprId} : t.carrier? v = some (.field f this) →
      q.exprs.size ≤ receiver.index → p.exprs.get? receiver = some (.get this) →
      ReadsAs t q p v (.getField f (some receiver))

/-- The argument for a parameter of a replacement: the old argument of the parameter that it copies,
or a new node that reads the value that it carries. -/
inductive ArgTo (t : Retarget) (q p : Program) (old : List ValueId) (args : List (Option ExprId))
    (param : ValueId) : Option ExprId → Prop
  | copied {v : ValueId} {i : Nat} : t.relocation.values.back? param = some v →
      old.findIdx? (· = v) = some i → ArgTo t q p old args param (args[i]?).join
  | captured {v : ValueId} {x : ExprId} {node : Expr} : t.relocation.values.back? param = none →
      t.relocation.carried.get? param = some v → q.exprs.size ≤ x.index →
      p.exprs.get? x = some node →
      ReadsAs t q p v node → ArgTo t q p old args param (some x)

/-- An access goes to the replacement of its callee. -/
inductive AccessTo (t : Retarget) (q p : Program) (a : Access) : Access → Prop
  | kept : t.relocation.get? a.callee = none → AccessTo t q p a a
  | moved {new : DeclId} {old content : Declaration} {args : List (Option ExprId)} :
      t.relocation.get? a.callee = some new → q.decls.get? a.callee = some old →
      q.decls.get? new = some content →
      List.Forall₂ (ArgTo t q p old.params a.args) content.params args →
      AccessTo t q p a { a with callee := new, args }

/-- **What becomes of a node.** -/
inductive NodeTo (t : Retarget) (q p : Program) : Expr → Expr → Prop
  | lit {value : Literal} : NodeTo t q p (.lit value) (.lit value)
  | get {v : ValueId} {node : Expr} : ReadsAs t q p v node → NodeTo t q p (.get v) node
  | set {v : ValueId} {source : ExprId} : t.carrier? v = none →
      NodeTo t q p (.set v source) (.set (t.counterpart v) source)
  | var {v : ValueId} {init : Option ExprId} : NodeTo t q p (.var v init) (.var v init)
  | decl {d : DeclId} : t.locals.isLifted d = true → NodeTo t q p (.decl d) .noop
  | access {form : AccessForm} {a a' : Access} : AccessTo t q p a a' →
      NodeTo t q p (.access form a) (.access form a')
  | getField {field : DeclId} {receiver : Option ExprId} :
      NodeTo t q p (.getField field receiver) (.getField (t.relocation.retarget field) receiver)
  | setField {field : DeclId} {receiver : Option ExprId} {value : ExprId} :
      NodeTo t q p (.setField field receiver value)
        (.setField (t.relocation.retarget field) receiver value)
  | ret {target : DeclId} {value : ExprId} :
      NodeTo t q p (.ret target value) (.ret (t.relocation.retarget target) value)
  | block {stmts : List ExprId} : NodeTo t q p (.block stmts) (.block stmts)
  | branch {cond thenE : ExprId} {elseE : Option ExprId} :
      NodeTo t q p (.branch cond thenE elseE) (.branch cond thenE elseE)
  | loop {cond body : ExprId} : NodeTo t q p (.loop cond body) (.loop cond body)
  | binary {op : BinOp} {lhs rhs : ExprId} : NodeTo t q p (.binary op lhs rhs) (.binary op lhs rhs)
  | delegated {v : ValueId} {delegate : ExprId} {accessors : List DeclId} :
      NodeTo t q p (.delegated v delegate accessors) (.delegated v delegate accessors)
  | classRef {cls : DeclId} : t.relocation.get? cls = none →
      NodeTo t q p (.classRef cls) (.classRef cls)

/-- The nodes that retargeting does not take: a write of a captured value, and a literal of a moved
class. -/
def Refuses (t : Retarget) : Expr → Prop
  | .set v _ => (t.carrier? v).isSome = true
  | .classRef cls => (t.relocation.get? cls).isSome = true
  | _ => False

/-- A node that has become something was not refused. -/
theorem NodeTo.not_refused {t : Retarget} (h : NodeTo t q p node node') : ¬ t.Refuses node := by
  cases h with
  | set hcarrier => simp [Refuses, hcarrier]
  | classRef hmoved => simp [Refuses, hmoved]
  | _ => exact id

/-- The nodes that were added to `q` stay. -/
def KeepsAdded (q p p' : Program) : Prop :=
  ∀ {x node}, q.exprs.size ≤ x.index → p.exprs.get? x = some node → p'.exprs.get? x = some node

theorem KeepsAdded.refl (q p : Program) : KeepsAdded q p p := fun _ hx => hx

/-- What declarations of the one program take, they take in the other. -/
def SameParams (q' q : Program) : Prop :=
  ∀ {d content}, q'.decls.get? d = some content →
    ∃ content', q.decls.get? d = some content' ∧ content'.params = content.params

theorem SameParams.refl (q : Program) : SameParams q q := fun hd => ⟨_, hd, rfl⟩

section

variable {t : Retarget} {q q' p p' : Program} (hsize : q.exprs.size ≤ q'.exprs.size)
  (hparams : SameParams q' q) (hkeeps : KeepsAdded q p p')
include hsize hkeeps

theorem ReadsAs.shift (h : ReadsAs t q' p v node) : ReadsAs t q p' v node := by
  cases h with
  | counterpart hcarrier => exact .counterpart hcarrier
  | param hcarrier => exact .param hcarrier
  | field hcarrier hnew hreceiver =>
    exact .field hcarrier (hsize.trans hnew) (hkeeps (hsize.trans hnew) hreceiver)

theorem ArgTo.shift {args : List (Option ExprId)} {arg : Option ExprId}
    (h : ArgTo t q' p old args param arg) : ArgTo t q p' old args param arg := by
  cases h with
  | copied hback hi => exact .copied hback hi
  | captured hback hcarried hnew hx hreads =>
    exact .captured hback hcarried (hsize.trans hnew) (hkeeps (hsize.trans hnew) hx)
      (hreads.shift hsize hkeeps)

include hparams

theorem AccessTo.shift {a a' : Access} (h : AccessTo t q' p a a') : AccessTo t q p' a a' := by
  cases h with
  | kept hkept => exact .kept hkept
  | moved hnew hold hcontent hargs =>
    obtain ⟨old', hold', hparams₁⟩ := hparams hold
    obtain ⟨content', hcontent', hparams₂⟩ := hparams hcontent
    refine .moved hnew hold' hcontent' ?_
    rw [hparams₁, hparams₂]
    exact hargs.imp fun _ _ harg => harg.shift hsize hkeeps

/-- **What has become of a node stays**, also for one who has looked at the program before. -/
theorem NodeTo.shift (h : NodeTo t q' p node node') : NodeTo t q p' node node' := by
  cases h with
  | get hreads => exact .get (hreads.shift hsize hkeeps)
  | access haccess => exact .access (haccess.shift hsize hparams hkeeps)
  | set hcarrier => exact .set hcarrier
  | decl hlifted => exact .decl hlifted
  | classRef hmoved => exact .classRef hmoved
  | _ => constructor

end

theorem NodeTo.mono {t : Retarget} {p' : Program} (h : NodeTo t q p node node')
    (hkeeps : KeepsAdded q p p') :
    NodeTo t q p' node node' := h.shift le_rfl (SameParams.refl q) hkeeps

/-! ## §2. Handles of rewritten nodes. -/

/-- What code is retargeted by leads somewhere. -/
structure Leads (t : Retarget) (q : Program) : Prop where
  moved : ∀ {d x}, t.relocation.get? d = some x → x.index < q.decls.size
  counterparts : ∀ {v x}, t.relocation.values.forth? v = some x → x.index < q.values.size
  sources : ∀ {x v}, t.relocation.carried.get? x = some v → v.index < q.values.size
  carriers : ∀ {v c}, t.carrier? v = some c → c.Within q

namespace Leads

variable {t : Retarget} {q : Program} (h : t.Leads q)
include h

theorem retarget_lt (hd : d.index < q.decls.size) :
    (t.relocation.retarget d).index < q.decls.size := by
  unfold Relocation.retarget
  cases hnew : t.relocation.get? d with
  | none => exact hd
  | some new => exact h.moved hnew

theorem counterpart_lt (hv : v.index < q.values.size) :
    (t.counterpart v).index < q.values.size := by
  unfold counterpart
  cases hx : t.relocation.values.forth? v with
  | none => exact hv
  | some x => exact h.counterparts hx

/-- It is a matter of how many entries there are. -/
theorem congr (hdecls : p.decls.size = q.decls.size)
    (hvalues : p.values.size = q.values.size) : t.Leads p where
  moved hd := hdecls ▸ h.moved hd
  counterparts hv := hvalues ▸ h.counterparts hv
  sources hx := hvalues ▸ h.sources hx
  carriers {v c} hc := by
    have hwithin := h.carriers hc
    cases c with
    | param x =>
      unfold Carrier.Within at hwithin ⊢
      rwa [hvalues]
    | field f this =>
      unfold Carrier.Within at hwithin ⊢
      rwa [hvalues, hdecls]

end Leads

/-- Once all signatures are built, code has something to be retargeted by. -/
theorem leads_of_founded {p₀ : Program} {dest : Option DeclId} {n : Nat} {t : Retarget}
    (h : Founded p₀ dest n t.relocation q)
    (hrecords : t.relocation.Records t.context?) : t.Leads q where
  moved hd := (h.lifting.moved hd).2.2
  counterparts hv := (h.lifting.back (h.lifting.forth hv).2).2.2
  sources hx := (h.sources hx).trans_le h.lifting.values.size_le
  carriers hk := by
    obtain ⟨c, hc, hcarrier⟩ := Option.bind_eq_some_iff.1 hk
    obtain ⟨d, hd⟩ := hrecords c hc
    exact (h.carriers hd hcarrier).2.within

section

variable {t : Retarget} {q p : Program} (ht : t.Leads q) (hvalues : p.values.size = q.values.size)
include ht hvalues

theorem ReadsAs.knows (h : ReadsAs t q p v node) (hv : v.index < q.values.size) :
    p.Knows q.decls.size node := by
  cases h with
  | counterpart hcarrier =>
    have := ht.counterpart_lt hv
    simpa [Program.Knows, Expr.namedDecls, Expr.namedValues, Expr.used?, Expr.bound?,
      Expr.operands, hvalues]
  | param hcarrier =>
    have : _ < q.values.size := ht.carriers hcarrier
    simpa [Program.Knows, Expr.namedDecls, Expr.namedValues, Expr.used?, Expr.bound?,
      Expr.operands, hvalues]
  | field hcarrier hnew hreceiver =>
    have hfield := (ht.carriers hcarrier).1
    have := Arena.lt_size_of_get? hreceiver
    simp [Program.Knows, Expr.namedDecls, Expr.namedValues, Expr.used?,
      Expr.bound?, Expr.operands, *]

/-- A rewritten node names what is there. -/
theorem NodeTo.knows (h : NodeTo t q p node node') (hnode : q.Knows q.decls.size node)
    (hexprs : q.exprs.size ≤ p.exprs.size) : p.Knows q.decls.size node' := by
  obtain ⟨hdecls, hnamed, hoperands⟩ := hnode
  have hnamed' : ∀ v ∈ node.namedValues, v.index < p.values.size := by rwa [hvalues]
  have hoperands' : ∀ x ∈ node.operands, x.index < p.exprs.size :=
    fun x hx => (hoperands x hx).trans_le hexprs
  cases h with
  | get hreads => exact hreads.knows ht hvalues (hnamed _ (by simp [Expr.namedValues, Expr.used?]))
  | @set v source hcarrier =>
    have := ht.counterpart_lt (hnamed v (by simp [Expr.namedValues, Expr.used?]))
    refine ⟨hdecls, ?_, hoperands'⟩
    simpa [Expr.namedValues, Expr.used?, Expr.bound?, hvalues]
  | decl hlifted =>
    simp [Program.Knows, Expr.noop, Expr.namedDecls, Expr.namedValues, Expr.used?,
      Expr.bound?, Expr.operands]
  | @getField field receiver =>
    have := ht.retarget_lt (hdecls field (by simp [Expr.namedDecls]))
    exact ⟨by simpa [Expr.namedDecls], hnamed', hoperands'⟩
  | @setField field receiver value =>
    have := ht.retarget_lt (hdecls field (by simp [Expr.namedDecls]))
    exact ⟨by simpa [Expr.namedDecls], hnamed', hoperands'⟩
  | @ret target value =>
    have := ht.retarget_lt (hdecls target (by simp [Expr.namedDecls]))
    exact ⟨by simpa [Expr.namedDecls], hnamed', hoperands'⟩
  | @access form a a' haccess =>
    cases haccess with
    | kept hkept => exact ⟨hdecls, hnamed', hoperands'⟩
    | @moved new old content args hnew hold hcontent hargs =>
      refine ⟨fun d hd => ?_, hnamed', fun x hx => ?_⟩
      · rcases List.mem_cons.1 hd with rfl | hd
        · exact ht.moved hnew
        · exact hdecls d (List.mem_cons_of_mem _ hd)
      · rcases List.mem_append.1 hx with hx | hx
        · exact hoperands' x (List.mem_append_left _ hx)
        · obtain ⟨arg, harg, rfl⟩ := List.mem_filterMap.1 hx
          obtain ⟨param, -, harg⟩ := forall₂_left hargs harg
          generalize hxs : some x = arg at harg
          cases harg with
          | @copied v i hback hi =>
            obtain ⟨y, hy, rfl⟩ : ∃ y, a.args[i]? = some y ∧ y = some x := by
              simpa [Option.join_eq_some_iff] using hxs.symm
            exact hoperands' x
              (List.mem_append_right _ (List.mem_filterMap.2 ⟨_, List.mem_of_getElem? hy, rfl⟩))
          | captured hback hcarried hnew hx hreads =>
            cases hxs
            exact Arena.lt_size_of_get? hx
  | _ => exact ⟨hdecls, hnamed', hoperands'⟩

end

/-- The operands of a rewritten node are its own, or were added. -/
theorem NodeTo.operands {t : Retarget} (h : NodeTo t q p node node') {x : ExprId}
    (hx : x ∈ node'.operands) : x ∈ node.operands ∨ q.exprs.size ≤ x.index := by
  cases h with
  | get hreads =>
    cases hreads with
    | @field _ _ receiver _ hnew _ =>
      obtain rfl : x = receiver := by simpa [Expr.operands] using hx
      exact .inr hnew
    | _ => cases hx
  | access haccess =>
    cases haccess with
    | kept => exact .inl hx
    | moved _ _ _ hargs =>
      rcases List.mem_append.1 hx with hx | hx
      · exact .inl (List.mem_append_left _ hx)
      · obtain ⟨arg, harg, rfl⟩ := List.mem_filterMap.1 hx
        obtain ⟨param, -, harg⟩ := forall₂_left hargs harg
        generalize hxs : some x = arg at harg
        cases harg with
        | copied _ _ =>
          obtain ⟨y, hy, rfl⟩ : ∃ y, _ = some y ∧ y = some x := by
            simpa [Option.join_eq_some_iff] using hxs.symm
          exact .inl
            (List.mem_append_right _ (List.mem_filterMap.2 ⟨_, List.mem_of_getElem? hy, rfl⟩))
        | captured _ _ hnew =>
          cases hxs
          exact .inr hnew
  | decl => cases hx
  | _ => exact .inl hx

/-! ## §3. What happens to the program. -/

/-- A node that is added: the read of a captured value that is passed on, or the receiver of a
field. -/
inductive AddedAs (t : Retarget) (q p : Program) : Expr → Prop
  | read {param v : ValueId} {node : Expr} : t.relocation.carried.get? param = some v →
      ReadsAs t q p v node →
      AddedAs t q p node
  | receiver {v : ValueId} {f : DeclId} {this : ValueId} : t.carrier? v = some (.field f this) →
      AddedAs t q p (.get this)

/-- Reads are added, and nothing else happens. -/
structure Adds (t : Retarget) (p p' : Program) : Prop where
  top : p'.top = p.top
  decls : p'.decls = p.decls
  values : p'.values = p.values
  exprs : p.exprs.Keeps p'.exprs
  reads : ∀ {x node}, p.exprs.size ≤ x.index → p'.exprs.get? x = some node → t.AddedAs p p' node

theorem AddedAs.shift {t : Retarget} {q' p' : Program} (h : AddedAs t q' p node)
    (hsize : q.exprs.size ≤ q'.exprs.size) (hkeeps : KeepsAdded q p p') : AddedAs t q p' node := by
  cases h with
  | read hcarried hreads => exact .read hcarried (hreads.shift hsize hkeeps)
  | receiver hcarrier => exact .receiver hcarrier

theorem AddedAs.knows {t : Retarget} (h : AddedAs t q p node) (ht : t.Leads q)
    (hvalues : p.values.size = q.values.size) : p.Knows q.decls.size node := by
  cases h with
  | read hcarried hreads => exact hreads.knows ht hvalues (ht.sources hcarried)
  | receiver hcarrier =>
    have := (ht.carriers hcarrier).2
    simpa [Program.Knows, Expr.namedDecls, Expr.namedValues, Expr.used?, Expr.bound?,
      Expr.operands, hvalues]

namespace Adds

variable {t : Retarget} {p p' p'' : Program}

theorem refl (t : Retarget) (p : Program) : t.Adds p p where
  top := rfl
  decls := rfl
  values := rfl
  exprs := .refl _
  reads hlow hx := absurd (Arena.lt_size_of_get? hx) (Nat.not_lt.2 hlow)

theorem trans (h : t.Adds p p') (h' : t.Adds p' p'') : t.Adds p p'' where
  top := h'.top.trans h.top
  decls := h'.decls.trans h.decls
  values := h'.values.trans h.values
  exprs := h.exprs.trans h'.exprs
  reads {x node} hlow hx := by
    by_cases hlt : x.index < p'.exprs.size
    · obtain ⟨node', hnode'⟩ := Arena.exists_get?_of_lt hlt
      obtain rfl : node = node' := Option.mem_unique hx (h'.exprs _ _ hnode')
      exact (h.reads hlow hnode').shift le_rfl fun _ hy => h'.exprs _ _ hy
    · exact (h'.reads (Nat.le_of_not_lt hlt) hx).shift h.exprs.size_le (KeepsAdded.refl _ _)

/-- One read more. -/
theorem push (h : t.Adds p p') (hmade : AddedAs t p (p'.allocExpr node).2 node) :
    t.Adds p (p'.allocExpr node).2 where
  top := h.top
  decls := h.decls
  values := h.values
  exprs := h.exprs.trans (Arena.keeps_alloc _ _)
  reads {x node'} hlow hx := by
    rw [show (p'.allocExpr node).2.exprs.get? x = _ from Arena.get?_alloc _ _ _] at hx
    split at hx
    · exact Option.some.inj hx ▸ hmade
    · exact (h.reads hlow hx).shift le_rfl fun _ hy => Arena.get?_alloc_of_some _ hy

/-- Reads that name what is there keep a program closed. -/
theorem closedAt {n : Nat} (h : t.Adds p p') (hp : p.ClosedAt n)
    (hmade : ∀ node, AddedAs t p p' node → p'.Knows n node) : p'.ClosedAt n where
  decls hd := by
    obtain ⟨hdecls, hvalues, hcode⟩ := hp.decls (h.decls ▸ hd)
    exact ⟨hdecls, h.values ▸ hvalues, fun e he => (hcode e he).trans_le h.exprs.size_le⟩
  values hv := hp.values (h.values ▸ hv)
  exprs {e node} he := by
    by_cases hlt : e.index < p.exprs.size
    · obtain ⟨node', hnode'⟩ := Arena.exists_get?_of_lt hlt
      obtain rfl : node = node' := Option.mem_unique he (h.exprs _ _ hnode')
      obtain ⟨hdecls, hvalues, hoperands⟩ := hp.exprs hnode'
      exact ⟨hdecls, h.values ▸ hvalues, fun x hx => (hoperands x hx).trans_le h.exprs.size_le⟩
    · exact hmade node (h.reads (Nat.le_of_not_lt hlt) he)
  top := h.top ▸ hp.top

end Adds

/-- What happens while a node is made: reads are added, or the value that it binds follows its
owner. -/
def Turns (t : Retarget) (p p' : Program) (node : Expr) : Prop :=
  node.bound? = none ∧ t.Adds p p' ∨ ∃ v value, node.bound? = some v ∧ p.values.get? v = some value
    ∧ p' = p.setValue v { value with owner := t.relocation.retarget value.owner }

theorem Turns.decls {t : Retarget} {p' : Program} (h : t.Turns p p' node) : p'.decls = p.decls := by
  rcases h with ⟨-, h⟩ | ⟨v, value, -, -, rfl⟩
  · exact h.decls
  · rfl

theorem Turns.exprs {t : Retarget} {p' : Program} (h : t.Turns p p' node) :
    p.exprs.Keeps p'.exprs := by
  rcases h with ⟨-, h⟩ | ⟨v, value, -, -, rfl⟩
  · exact h.exprs
  · exact .refl _

/-- A parameter of a replacement has an argument: that of a parameter which it copies, or a captured
value. -/
def Passed (r : Relocation) (old : List ValueId) (param : ValueId) : Prop :=
  (∃ v ∈ old, r.values.back? param = some v) ∨ r.values.back? param = none
    ∧ ∃ v, r.carried.get? param = some v

/-- **Why a node is not taken**: it is refused, places what is not lifted, or a parameter of the
replacement that it calls has no argument; or a handle leads nowhere. -/
inductive Blocks (t : Retarget) (p : Program) : Expr → Fault → Prop
  | value {node : Expr} {v : ValueId} {f : Fault} : v ∈ node.namedValues →
      p.values.get? v = none → Blocks t p node f
  | decl {form : AccessForm} {a : Access} {new d : DeclId} {f : Fault} :
      t.relocation.get? a.callee = some new →
      d = a.callee ∨ d = new → p.decls.get? d = none → Blocks t p (.access form a) f
  | refused {node : Expr} {f : Fault} : t.Refuses node → f.Reports → Blocks t p node f
  | unlifted {d : DeclId} {f : Fault} : ¬ t.locals.isLifted d = true → f.Reports →
      Blocks t p (.decl d) f
  | unpassed {form : AccessForm} {a : Access} {new : DeclId} {old content : Declaration}
      {param : ValueId} {f : Fault} :
      t.relocation.get? a.callee = some new → p.decls.get? a.callee = some old →
        p.decls.get? new = some content →
      param ∈ content.params → ¬ Passed t.relocation old.params param →
      f.Reports ∨ p.values.get? param = none →
      Blocks t p (.access form a) f

section

variable {t : Retarget} {w : Work} {err : Fault → Work → Prop}

/-- **A read** is made.  A read from a field adds its receiver. -/
theorem read_yields (hsize : q.exprs.size ≤ w.program.exprs.size) (v : ValueId) :
    (t.read v).Yields w
      (fun node w' => t.Adds w.program w'.program ∧ ReadsAs t q w'.program v node) err := by
  unfold read
  cases hcarrier : t.carrier? v with
  | none => exact .pure ⟨.refl t _, .counterpart hcarrier⟩
  | some carrier =>
    cases carrier with
    | param x => exact .of_eq rfl ⟨.refl t _, .param hcarrier⟩
    | field f this =>
      exact .of_eq rfl ⟨(Adds.refl t _).push (.receiver hcarrier),
        .field hcarrier hsize (Arena.get?_alloc_next _ _)⟩

/-- **An argument** is sorted into its place or made. -/
theorem argument_yields (hsize : q.exprs.size ≤ w.program.exprs.size) (callee new : DeclId)
    (old : List ValueId) (args : List (Option ExprId)) (param : ValueId) :
    (t.argument callee new old args param).Yields w (fun arg w' => t.Adds w.program w'.program
      ∧ ArgTo t q w'.program old args param arg)
      fun f _ => ¬ Passed t.relocation old param
        ∧ (f.Reports ∨ w.program.values.get? param = none) := by
  unfold argument
  cases hback : t.relocation.values.back? param with
  | some v =>
    simp only
    cases hi : old.findIdx? (· = v) with
    | none =>
      refine .throw ⟨?_, .inl rfl⟩
      rintro (⟨v', hv', hback'⟩ | ⟨hback', -⟩)
      · obtain rfl : v = v' := Option.mem_unique hback hback'
        simpa using List.findIdx?_eq_none_iff.1 hi v hv'
      · cases hback.symm.trans hback'
    | some i => exact .pure ⟨.refl t _, .copied hback hi⟩
  | none =>
    cases hcarried : t.relocation.carried.get? param with
    | none =>
      have hnot : ¬ Passed t.relocation old param := by
        rintro (⟨v, -, hv⟩ | ⟨-, v, hv⟩)
        · cases hback.symm.trans hv
        · cases hcarried.symm.trans hv
      exact .bind (.value
        (fun _ _ => .throw ⟨hnot, .inl rfl⟩) fun _ hf => ⟨hnot, .inr (Arena.get?_of_lookup hf)⟩)
    | some v =>
      refine .bind ((read_yields le_rfl v).mono fun node w' hnode => ?_)
      obtain ⟨hadds, hreads⟩ := hnode
      have hkeeps : KeepsAdded w.program w'.program (w'.program.allocExpr node).2 :=
        fun _ hx => Arena.get?_alloc_of_some _ hx
      have hreads' := hreads.shift le_rfl hkeeps
      refine .of_eq rfl ⟨hadds.push (.read hcarried hreads'), ?_⟩
      exact .captured hback hcarried (hsize.trans hadds.exprs.size_le) (Arena.get?_alloc_next _ _)
        (hreads'.shift hsize (KeepsAdded.refl _ _))

/-- **An access** goes to the replacement of its callee. -/
theorem access_yields (form : AccessForm) (a : Access) :
    (t.access a).Yields w
      (fun a' w' => t.Adds w.program w'.program ∧ AccessTo t w.program w'.program a a')
      fun f _ => t.Blocks w.program (.access form a) f := by
  unfold access
  cases hnew : t.relocation.get? a.callee with
  | none => exact .pure ⟨.refl t _, .kept hnew⟩
  | some new =>
    refine .bind (.decl (fun old hold => .bind (.decl (fun content hcontent => .bind ?_) ?_)) ?_)
    · refine (Step.Yields.mapM (fun seen args w' => t.Adds w.program w'.program
        ∧ List.Forall₂ (ArgTo t w.program w'.program old.params a.args) seen args) ?_
        ⟨.refl t _, .nil⟩).mono ?_
      · rintro seen param rest args w' hsplit ⟨hadds, hargs⟩
        refine ((argument_yields hadds.exprs.size_le a.callee new old.params a.args param).mono
          ?_).weaken ?_
        · rintro arg w'' ⟨hadds', harg⟩
          refine ⟨hadds.trans hadds',
            List.rel_append (hargs.imp fun _ _ harg => ?_) (.cons harg .nil)⟩
          exact harg.shift le_rfl fun _ hx => hadds'.exprs _ _ hx
        · rintro f w'' ⟨hnot, hf⟩
          exact .unpassed hnew hold hcontent (by simp [hsplit]) hnot
            (hf.imp_right fun hnone => hadds.values ▸ hnone)
      · rintro args w' ⟨hadds, hargs⟩
        exact .pure ⟨hadds, .moved hnew hold hcontent hargs⟩
    · exact fun f hf => .decl hnew (.inr rfl) (Arena.get?_of_lookup hf)
    · exact fun f hf => .decl hnew (.inl rfl) (Arena.get?_of_lookup hf)

/-- **A variable** follows its owner. -/
theorem reown_yields (v : ValueId) :
    (t.reown v).Yields w (fun _ w' => ∃ value, w.program.values.get? v = some value
      ∧ w'.program = w.program.setValue v { value with owner := t.relocation.retarget value.owner })
    fun _ _ => w.program.values.get? v = none := by
  unfold reown
  refine .bind (.value (fun value hv => ?_) fun _ hf => Arena.get?_of_lookup hf)
  unfold Relocation.retarget
  cases howner : t.relocation.get? value.owner with
  | some owner =>
    refine .of_eq (Step.modifyValue_eq hv) ⟨value, hv, ?_⟩
    rw [howner]
    rfl
  | none =>
    refine .pure ⟨value, hv, ?_⟩
    rw [howner]
    exact (congrArg (fun values => { w.program with values }) (Arena.set_eq_self hv)).symm

/-- **One node** becomes what it should, or something blocks it. -/
theorem node_yields (node : Expr) :
    (t.node node).Yields w (fun node' w' => t.Turns w.program w'.program node
      ∧ NodeTo t w.program w'.program node node') fun f _ => t.Blocks w.program node f := by
  have same : t.Adds w.program w.program := .refl t _
  cases node with
  | get v =>
    refine (read_yields le_rfl v).mono ?_
    rintro node' w' ⟨hadds, hreads⟩
    exact ⟨.inl ⟨rfl, hadds⟩, .get hreads⟩
  | set v source =>
    simp only [Retarget.node]
    split
    next hcarrier =>
      refine .bind (.value (fun _ _ => .throw (.refused hcarrier rfl)) fun _ hf => .value ?_
        (Arena.get?_of_lookup hf))
      simp [Expr.namedValues, Expr.used?]
    next hcarrier => exact .pure ⟨.inl ⟨rfl, same⟩, .set (by simpa using hcarrier)⟩
  | var v init =>
    refine .bind (((reown_yields v).mono ?_).weaken fun _ _ hnone => .value
      (by simp [Expr.namedValues, Expr.bound?]) hnone)
    rintro _ w' ⟨value, hv, hw'⟩
    exact .pure ⟨.inr ⟨v, value, rfl, hv, hw'⟩, .var⟩
  | delegated v delegate accessors =>
    refine .bind (((reown_yields v).mono ?_).weaken fun _ _ hnone => .value
      (by simp [Expr.namedValues, Expr.bound?]) hnone)
    rintro _ w' ⟨value, hv, hw'⟩
    exact .pure ⟨.inr ⟨v, value, rfl, hv, hw'⟩, .delegated⟩
  | decl d =>
    simp only [Retarget.node]
    split
    next hlifted => exact .pure ⟨.inl ⟨rfl, same⟩, .decl hlifted⟩
    next hlifted => exact .throw (.unlifted hlifted rfl)
  | access form a =>
    refine .bind ((access_yields form a).mono ?_)
    rintro a' w' ⟨hadds, haccess⟩
    exact .pure ⟨.inl ⟨rfl, hadds⟩, .access haccess⟩
  | classRef cls =>
    simp only [Retarget.node]
    split
    next hmoved => exact .throw (.refused hmoved rfl)
    next hmoved => exact .pure ⟨.inl ⟨rfl, same⟩, .classRef (by simpa using hmoved)⟩
  | lit value => exact .pure ⟨.inl ⟨rfl, same⟩, .lit⟩
  | getField field receiver => exact .pure ⟨.inl ⟨rfl, same⟩, .getField⟩
  | setField field receiver value => exact .pure ⟨.inl ⟨rfl, same⟩, .setField⟩
  | ret target value => exact .pure ⟨.inl ⟨rfl, same⟩, .ret⟩
  | block stmts => exact .pure ⟨.inl ⟨rfl, same⟩, .block⟩
  | branch cond thenE elseE => exact .pure ⟨.inl ⟨rfl, same⟩, .branch⟩
  | loop cond body => exact .pure ⟨.inl ⟨rfl, same⟩, .loop⟩
  | binary op lhs rhs => exact .pure ⟨.inl ⟨rfl, same⟩, .binary⟩

end

end Retarget

end LambdaLift
