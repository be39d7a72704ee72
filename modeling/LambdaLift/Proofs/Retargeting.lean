/-
  LambdaLift.Proofs.Retargeting
  **CODE IS REWRITTEN NODE BY NODE, EACH NODE ONCE.**

  Where code forms trees that do not overlap, every node is rewritten once
  and in one context.  `Sweep` says how far the work has come: the nodes
  that are done have become what they should, each in its context, and the
  others are as they were.  So an expression is retargeted unless one of
  its nodes is blocked, and so is all code below a root, one chore after
  the other.

  Main results:
    * `exprUpTo_sweeps` — one expression with everything in it;
    * `plan_apart` — no node is gone through twice;
    * `sweeps_works` — everything below one root.
-/
import Mathlib
import LambdaLift.Proofs.Chores

namespace LambdaLift

variable {P p q : Program} {d k m x : DeclId} {e : ExprId} {v : ValueId} {content : Declaration}
  {node node' : Expr} {value : Value}

/-! ## §1. Trees of expressions. -/

namespace Program

/-- An expression is an operand of another. -/
def Operand (p : Program) (e x : ExprId) : Prop :=
  ∃ node, p.exprs.get? e = some node ∧ x ∈ node.operands

/-- An expression belongs to the tree of another. -/
def Inside (p : Program) (e x : ExprId) : Prop := Relation.ReflTransGen p.Operand e x

/-- Operands are nested in the expression no deeper than this. -/
def Shallow (p : Program) : (levels : Nat) → ExprId → Prop
  | 0, _ => False
  | levels + 1, e => ∃ node, p.exprs.get? e = some node ∧ ∀ x ∈ node.operands, p.Shallow levels x

/-- Wherever the expression has several operands, they have nothing in common. -/
def Treelike (p : Program) (e : ExprId) : Prop :=
  ∀ x node, p.Inside e x → p.exprs.get? x = some node →
  node.operands.Pairwise fun a b => ∀ y, p.Inside a y → ¬ p.Inside b y

theorem Operand.follows {x : ExprId} (h : p.Operand e x) : p.Follows (.expr e) (.expr x) := by
  obtain ⟨node, hnode, hx⟩ := h
  refine ⟨.expr e node, label?_eq_expr.2 ⟨rfl, hnode⟩, ?_⟩
  cases node <;> simp_all [Label.followed, Label.places, Expr.operands]

theorem Bounded.shallow {levels : Nat} (h : p.Bounded levels (.expr e)) : p.Shallow levels e := by
  induction levels generalizing e with
  | zero => exact h.elim
  | succ levels ih =>
    obtain ⟨label, hlabel, hinner⟩ := h
    obtain ⟨node, hnode, rfl⟩ := Option.map_eq_some_iff.1 hlabel
    refine ⟨node, hnode, fun x hx => ih (hinner _ ?_)⟩
    obtain ⟨label', hlabel', hmem⟩ := Operand.follows ⟨node, hnode, hx⟩
    cases hlabel.symm.trans hlabel'
    exact hmem

/-- Where nesting ends, nothing is nested in itself. -/
theorem Shallow.not_inside {levels : Nat} {x : ExprId} (h : p.Shallow levels e)
    (hx : p.Operand e x) : ¬ p.Inside x e := by
  induction levels generalizing e x with
  | zero => exact h.elim
  | succ levels ih =>
    intro hin
    obtain ⟨node, hnode, hinner⟩ := h
    obtain ⟨node', hnode', hmem⟩ := id hx
    obtain rfl : node = node' := Option.mem_unique hnode hnode'
    -- turn the cycle by one step, so that it starts one level further down
    rcases Relation.ReflTransGen.cases_head hin with rfl | ⟨y, hstep, hrest⟩
    · exact ih (hinner _ hmem) hx .refl
    · exact ih (hinner _ hmem) hstep (hrest.tail hx)

theorem Shallow.lt_size {levels : Nat} (h : p.Shallow levels e) : e.index < p.exprs.size := by
  cases levels with
  | zero => exact h.elim
  | succ levels =>
    obtain ⟨node, hnode, -⟩ := h
    exact Arena.lt_size_of_get? hnode

theorem Shallow.of_inside {levels : Nat} {x : ExprId} (h : p.Shallow levels e) (hx : p.Inside e x) :
    ∃ levels', p.Shallow levels' x := by
  induction hx with
  | refl => exact ⟨levels, h⟩
  | tail _ hstep ih =>
    obtain ⟨node, hnode, hmem⟩ := hstep
    obtain ⟨_ | levels', hb⟩ := ih
    · exact hb.elim
    · obtain ⟨node', hnode', hinner⟩ := hb
      obtain rfl : node = node' := Option.mem_unique hnode hnode'
      exact ⟨levels', hinner _ hmem⟩

/-- Nesting goes no deeper than there are expressions.  By induction on how many have not been met
on the way. -/
theorem Shallow.within_size {levels : Nat} (h : p.Shallow levels e) : p.Shallow p.exprs.size e := by
  have hmet : ∀ n levels e (met : List ExprId), p.Shallow levels e → met.Nodup →
      (∀ x ∈ met, x.index < p.exprs.size) →
      (∀ x, p.Inside e x → x ∉ met) → met.length + n = p.exprs.size → p.Shallow n e := by
    intro n
    induction n with
    | zero =>
      intro levels e met h hnodup hlt hnew hlength
      have hle :=
        Handle.length_le_of_nodup (List.nodup_cons.2 ⟨hnew e .refl, hnodup⟩) (n := p.exprs.size) (by
        simpa using ⟨h.lt_size, hlt⟩)
      simp only [List.length_cons] at hle
      omega
    | succ n ih =>
      intro levels e met h hnodup hlt hnew hlength
      obtain ⟨node, hnode⟩ := Arena.exists_get?_of_lt h.lt_size
      refine ⟨node, hnode, fun x hx => ?_⟩
      have hoperand : p.Operand e x := ⟨node, hnode, hx⟩
      obtain ⟨levels', hx'⟩ := h.of_inside (.single hoperand)
      refine ih levels' x (e :: met) hx' (List.nodup_cons.2 ⟨hnew e .refl, hnodup⟩)
        (by simpa using ⟨h.lt_size, hlt⟩)
        (fun y hy hmem => ?_) (by simp only [List.length_cons]; omega)
      rcases List.mem_cons.1 hmem with rfl | hmem
      · exact h.not_inside hoperand hy
      · exact hnew y (.head hoperand hy) hmem
  exact hmet _ levels e [] h .nil (by simp) (by simp) (by simp)

/-- **Operands have nothing in common** where each expression stands in one place and nesting
ends. -/
theorem Shallow.treelike {levels : Nat} (h : p.Shallow levels e)
    (hunique : ∀ {a b y}, p.Inside e a → p.Inside e b → p.Operand a y → p.Operand b y → a = b)
    (hnodup : ∀ {x node}, p.Inside e x → p.exprs.get? x = some node → node.operands.Nodup) :
    p.Treelike e := by
  intro x node hx hnode
  obtain ⟨levels', hshallow⟩ := h.of_inside hx
  refine (hnodup hx hnode).imp_of_mem fun {a b} ha hb hne y hya hyb => hne ?_
  have hoperand : ∀ {a}, a ∈ node.operands → p.Operand x a := fun ha => ⟨node, hnode, ha⟩
  have hin : ∀ {a y}, a ∈ node.operands → p.Inside a y → p.Inside e y := fun ha hy =>
    Relation.ReflTransGen.trans hx (.head (hoperand ha) hy)
  -- both paths to `y` go back through the one place where it stands
  induction hya with
  | refl =>
    rcases Relation.ReflTransGen.cases_tail hyb with heq | ⟨z, hz, hstep⟩
    · exact heq
    · rw [hunique (hin hb hz) hx hstep (hoperand ha)] at hz
      exact absurd hz (hshallow.not_inside (hoperand hb))
  | @tail z y hz hstep ih =>
    rcases Relation.ReflTransGen.cases_tail hyb with rfl | ⟨z', hz', hstep'⟩
    · rw [hunique (hin ha hz) hx hstep (hoperand hb)] at hz
      exact absurd hz (hshallow.not_inside (hoperand ha))
    · rw [hunique (hin ha hz) (hin hb hz') hstep hstep'] at ih
      exact ih hz'

theorem inside_iff {y : ExprId} (he : p.exprs.get? e = some node) :
    p.Inside e y ↔ y = e ∨ ∃ a ∈ node.operands, p.Inside a y := by
  constructor
  · intro hin
    rcases Relation.ReflTransGen.cases_head hin with rfl | ⟨a, ⟨node', hnode', ha⟩, hrest⟩
    · exact .inl rfl
    · obtain rfl : node = node' := Option.mem_unique he hnode'
      exact .inr ⟨a, ha, hrest⟩
  · rintro (rfl | ⟨a, ha, hin⟩)
    · exact .refl
    · exact .head ⟨node, he, ha⟩ hin

end Program

/-! ## §2. How far the work has come. -/

namespace Retarget

/-- Every handle leads somewhere, and so does what code is retargeted by. -/
structure Safe (l : Locals) (r : Relocation) (q : Program) : Prop where
  closed : q.ClosedAt q.decls.size
  leads : ∀ {c}, r.Records c → Leads ⟨l, r, c⟩ q

/-- From `q` on, the nodes that are `done` have been retargeted, each in its context, and the others
are as they were; what else is there has been added since.  Only code has changed since `b`. -/
structure Sweep (l : Locals) (r : Relocation) (q : Program) (b : Program)
    (done : ExprId → Option Context → Prop) (p : Program) : Prop where
  top : p.top = q.top
  exprsSize : q.exprs.size ≤ p.exprs.size
  valuesSize : p.values.size = q.values.size
  closed : Safe l r q → p.ClosedAt q.decls.size
  decls : p.decls = b.decls
  added : KeepsAdded q b p
  declsSize : b.decls.size = q.decls.size
  filled : ∀ {d content}, q.decls.get? d = some content →
    ∃ content', b.decls.get? d = some content' ∧ Filled content content'
  kept : ∀ {e}, (∀ c, ¬ done e c) → e.index < q.exprs.size → p.exprs.get? e = q.exprs.get? e
  nodes : ∀ {e c node}, done e c → q.exprs.get? e = some node →
    ∃ node', p.exprs.get? e = some node' ∧ NodeTo ⟨l, r, c⟩ q p node node'
  /-- a value may follow the declaration that owns it -/
  values : ∀ {v value}, q.values.get? v = some value →
    ∃ owner, p.values.get? v = some { value with owner }
    ∧ (owner = value.owner ∨ owner = r.retarget value.owner)
  /-- and it does if a node that is done binds it -/
  bound : ∀ {e c node v value}, done e c → q.exprs.get? e = some node → node.bound? = some v →
    q.values.get? v = some value →
    p.values.get? v = some { value with owner := r.retarget value.owner }

namespace Sweep

variable {l : Locals} {r : Relocation} {q p p' : Program} {b : Program}
  {done done' : ExprId → Option Context → Prop}

/-- Before anything is retargeted. -/
theorem start (hdone : ∀ e c, ¬ done e c) : Sweep l r q q done q where
  top := rfl
  exprsSize := Nat.le_refl _
  valuesSize := rfl
  closed hsafe := hsafe.closed
  decls := rfl
  added _ hx := hx
  declsSize := rfl
  filled hd := ⟨_, hd, .same⟩
  kept _ _ := rfl
  nodes h := absurd h (hdone _ _)
  values hv := ⟨_, hv, .inl rfl⟩
  bound h := absurd h (hdone _ _)

theorem congr (h : Sweep l r q b done p) (hdone : ∀ e c, done' e c ↔ done e c) :
    Sweep l r q b done' p := by
  rwa [show done' = done from funext fun e => funext fun c => propext (hdone e c)]

/-- From here on. -/
theorem rebase (h : Sweep l r q b done p) : Sweep l r q p done p :=
  { h with
    decls := rfl
    added := fun _ hx => hx
    declsSize := h.decls ▸ h.declsSize
    filled := fun hd => h.decls ▸ h.filled hd }

/-- Nodes are added. -/
theorem extend (h : Sweep l r q b done p) (htop : p'.top = p.top) (hdecls : p'.decls = p.decls)
    (hvalues : p'.values = p.values) (hexprs : p.exprs.Keeps p'.exprs)
    (hclosed : Safe l r q → p'.ClosedAt q.decls.size) : Sweep l r q b done p' where
  top := htop.trans h.top
  exprsSize := h.exprsSize.trans hexprs.size_le
  valuesSize := hvalues ▸ h.valuesSize
  closed := hclosed
  decls := hdecls.trans h.decls
  added hlt hx := hexprs _ _ (h.added hlt hx)
  declsSize := h.declsSize
  filled := h.filled
  kept hnot hlt := by
    obtain ⟨node, hnode⟩ := Arena.exists_get?_of_lt (hlt.trans_le h.exprsSize)
    rw [← h.kept hnot hlt, hnode]
    exact hexprs _ _ hnode
  nodes hdone hnode := by
    obtain ⟨node', hnode', hto⟩ := h.nodes hdone hnode
    exact ⟨node', hexprs _ _ hnode', hto.mono fun _ hx => hexprs _ _ hx⟩
  values hv := hvalues ▸ h.values hv
  bound hdone hnode hv hvalue := hvalues ▸ h.bound hdone hnode hv hvalue

/-- A node of `q` is overwritten by what becomes of it. -/
theorem setExpr (h : Sweep l r q b done p) {c : Option Context} (hnew : ∀ c, ¬ done e c)
    (he : q.exprs.get? e = some node) (hto : NodeTo ⟨l, r, c⟩ q p node node')
    (hknows : Safe l r q → p.Knows q.decls.size node')
    (hbound : ∀ {v value}, node.bound? = some v → q.values.get? v = some value →
      p.values.get? v = some { value with owner := r.retarget value.owner }) :
    Sweep l r q b (fun x c' => done x c' ∨ x = e ∧ c' = c) (p.setExpr e node') := by
  have hlt := Arena.lt_size_of_get? he
  have hget : ∀ x, (p.setExpr e node').exprs.get? x = if x = e then some node'
      else p.exprs.get? x := by
    intro x
    rw [show (p.setExpr e node').exprs = p.exprs.set e node' from rfl, Arena.get?_set]
    by_cases hx : x = e
    · rw [if_pos ⟨hx, hlt.trans_le h.exprsSize⟩, if_pos hx]
    · rw [if_neg fun hxe => hx hxe.1, if_neg hx]
  have hkeeps : KeepsAdded q p (p.setExpr e node') := by
    intro x n hx hn
    rw [hget, if_neg (by rintro rfl; omega)]
    exact hn
  refine ⟨h.top, ?_, h.valuesSize, fun hsafe => (h.closed hsafe).setExpr (hknows hsafe), h.decls,
    ?_, h.declsSize, h.filled, ?_, ?_, h.values, ?_⟩
  · exact h.exprsSize.trans (Arena.size_set _ _ _).ge
  · exact fun hx hn => hkeeps hx (h.added hx hn)
  · intro x hnot hx
    rw [hget, if_neg fun hxe => hnot c (.inr ⟨hxe, rfl⟩)]
    exact h.kept (fun c' hc' => hnot c' (.inl hc')) hx
  · rintro x c' n (hdone | ⟨rfl, rfl⟩) hx
    · obtain ⟨n', hn', hto'⟩ := h.nodes hdone hx
      refine ⟨n', ?_, hto'.mono hkeeps⟩
      rw [hget, if_neg (by rintro rfl; exact hnew c' hdone)]
      exact hn'
    · obtain rfl := Option.mem_unique he hx
      exact ⟨node', by rw [hget, if_pos rfl], hto.mono hkeeps⟩
  · rintro x c' n v value (hdone | ⟨rfl, rfl⟩) hx hv hvalue
    · exact h.bound hdone hx hv hvalue
    · obtain rfl := Option.mem_unique he hx
      exact hbound hv hvalue

/-- A class gets its members, or a field its initializer. -/
theorem setDecl (h : Sweep l r q b done p) {old content : Declaration}
    (hd : p.decls.get? d = some old) (hfilled : Filled old content)
    (hnamed : Safe l r q → (∀ x ∈ content.namedDecls, x.index < q.decls.size)
      ∧ (∀ v ∈ content.namedValues, v.index < p.values.size) ∧ ∀ e ∈ content.code,
        e.index < p.exprs.size) :
    Sweep l r q (p.setDecl d content) done (p.setDecl d content) := by
  have hget : ∀ x, (p.setDecl d content).decls.get? x = if x = d then some content
      else p.decls.get? x :=
    Program.get?_setDecl hd content
  refine ⟨h.top, h.exprsSize, h.valuesSize, fun hsafe => ?_, rfl, fun _ hx => hx, ?_, ?_,
    h.kept, ?_, h.values, h.bound⟩
  · obtain ⟨hdecls, hvalues, hcode⟩ := hnamed hsafe
    exact (h.closed hsafe).setDecl hdecls hvalues hcode
  · rw [Program.size_setDecl, h.decls]
    exact h.declsSize
  · intro x c hx
    obtain ⟨c', hx', hc'⟩ := h.filled hx
    rw [← h.decls] at hx'
    rw [hget]
    split
    · rename_i hxd
      subst hxd
      obtain rfl := Option.mem_unique hd hx'
      exact ⟨content, rfl, hc'.trans hfilled⟩
    · exact ⟨c', hx', hc'⟩
  · intro e c node hdone he
    obtain ⟨node', hnode', hto⟩ := h.nodes hdone he
    have hkeeps : KeepsAdded q p (p.setDecl d content) := fun _ hx => hx
    exact ⟨node', hnode', hto.mono hkeeps⟩

/-- Retargeting replacements again changes nothing. -/
theorem retarget_retarget (hfixed : ∀ d x, r.get? d = some x → r.get? x = none) (d : DeclId) :
    r.retarget (r.retarget d) = r.retarget d := by
  unfold Relocation.retarget
  cases hnew : r.get? d with
  | none => rw [Option.getD_none, hnew]; rfl
  | some new => rw [Option.getD_some, hfixed _ _ hnew]; rfl

/-- A node is made. -/
theorem turns (h : Sweep l r q b done p) (hfixed : ∀ d x, r.get? d = some x → r.get? x = none)
    {c : Option Context} (hrecords : r.Records c) (hturns : Turns ⟨l, r, c⟩ p p' node) :
    Sweep l r q b done p' ∧ ∀ {v value}, node.bound? = some v → q.values.get? v = some value →
      p'.values.get? v = some { value with owner := r.retarget value.owner } := by
  have hdeclsSize : p.decls.size = q.decls.size := h.decls ▸ h.declsSize
  rcases hturns with ⟨hbound, hadds⟩ | ⟨v, value', hbound, hv', rfl⟩
  · refine ⟨h.extend hadds.top hadds.decls hadds.values hadds.exprs fun hsafe => ?_, fun hv => ?_⟩
    · have hleads := (hsafe.leads hrecords).congr hdeclsSize h.valuesSize
      refine hadds.closedAt (h.closed hsafe) fun node hmade => hdeclsSize ▸ hmade.knows hleads ?_
      rw [hadds.values]
    · rw [hbound] at hv
      cases hv
  · obtain ⟨value, hv⟩ := Arena.exists_get?_of_lt (h.valuesSize ▸ Arena.lt_size_of_get? hv')
    obtain ⟨owner, hv'', howner⟩ := h.values hv
    obtain rfl : value' = { value with owner } := Option.mem_unique hv' hv''
    have heq : r.retarget owner = r.retarget value.owner := by
      rcases howner with rfl | rfl
      · rfl
      · exact retarget_retarget hfixed value.owner
    have hget : ∀ x, (p.setValue v { value with owner := r.retarget value.owner }).values.get? x
        = if x = v then some { value with owner := r.retarget value.owner }
        else p.values.get? x := by
      intro x
      show (p.values.set v _).get? x = _
      rw [Arena.get?_set]
      simp only [Arena.lt_size_of_get? hv', and_true]
    show Sweep l r q b done (p.setValue v { value with owner := r.retarget owner }) ∧ _
    rw [show (⟨l, r, c⟩ : Retarget).relocation = r from rfl, heq]
    refine ⟨{ h with valuesSize := ?_, closed := fun hsafe => ?_, nodes := ?_,
                     values := ?_, bound := ?_ }, ?_⟩
    · exact (Arena.size_set _ _ _).trans h.valuesSize
    · exact (h.closed hsafe).setValue
        ((hsafe.leads hrecords).retarget_lt (hsafe.closed.values hv).1)
        ((h.closed hsafe).values hv').2
    · intro e c node hdone he
      obtain ⟨node', hnode', hto⟩ := h.nodes hdone he
      have hkeeps : KeepsAdded q p (p.setValue v { value with owner := r.retarget value.owner }) :=
        fun _ hx => hx
      exact ⟨node', hnode', hto.mono hkeeps⟩
    · intro x value' hx
      rw [hget]
      split
      next hxv =>
        obtain rfl : value = value' := Option.mem_unique hv (hxv ▸ hx)
        exact ⟨_, rfl, .inr rfl⟩
      next => exact h.values hx
    · intro e c node x value' hdone he hx hx'
      rw [hget]
      split
      next hxv =>
        obtain rfl : value = value' := Option.mem_unique hv (hxv ▸ hx')
        rfl
      next => exact h.bound hdone he hx hx'
    · intro x value' hx hx'
      obtain rfl : v = x := Option.mem_unique hbound hx
      obtain rfl : value = value' := Option.mem_unique hv hx'
      rw [hget, if_pos rfl]

/-- Replacements take what they took. -/
theorem sameParams (h : Sweep l r q b done p) : SameParams p q := by
  intro d content hd
  have hlt : d.index < q.decls.size := h.declsSize ▸ h.decls ▸ Arena.lt_size_of_get? hd
  obtain ⟨content', hd'⟩ := Arena.exists_get?_of_lt hlt
  obtain ⟨content'', hb, hfilled⟩ := h.filled hd'
  obtain rfl : content = content'' := Option.mem_unique hd (h.decls ▸ hb)
  exact ⟨content', hd', hfilled.params.symm⟩

/-- What blocks a node blocked it from the beginning. -/
theorem blocks (h : Sweep l r q b done p) {t : Retarget} {f : Fault} (hblocks : t.Blocks p node f) :
    t.Blocks q node f := by
  have hvalue : ∀ {v}, p.values.get? v = none → q.values.get? v = none := by
    intro v hnone
    rw [Arena.get?_eq_none_iff] at hnone ⊢
    exact h.valuesSize ▸ hnone
  cases hblocks with
  | value hv hnone => exact .value hv (hvalue hnone)
  | decl hnew hd hnone =>
    refine .decl hnew hd ?_
    rw [Arena.get?_eq_none_iff] at hnone ⊢
    exact h.declsSize ▸ h.decls ▸ hnone
  | refused hrefuses hf => exact .refused hrefuses hf
  | unlifted hlifted hf => exact .unlifted hlifted hf
  | unpassed hnew hold hcontent hparam hnot hf =>
    obtain ⟨old', hold', hparams⟩ := h.sameParams hold
    obtain ⟨content', hcontent', hparams'⟩ := h.sameParams hcontent
    exact .unpassed hnew hold' hcontent' (hparams' ▸ hparam) (hparams ▸ hnot) (hf.imp_right hvalue)

end Sweep

/-! ## §3. One expression. -/

variable {l : Locals} {r : Relocation} {c : Option Context} {b : Program} {w : Work}
  {done : ExprId → Option Context → Prop} {err : Fault → Prop}

/-- **One expression** with everything in it: exactly its tree is done, or one of its nodes is
blocked.  The induction is on how deep the tree goes; operands are done from left to right, and no
two of them overlap. -/
theorem exprUpTo_sweeps (hexprs : q.exprs = P.exprs)
    (hfixed : ∀ d x, r.get? d = some x → r.get? x = none) (hrecords : r.Records c)
    {levels fuel : Nat} (hshallow : P.Shallow levels e) (hfuel : levels ≤ fuel)
    (hapart : P.Treelike e) (hnew : ∀ x, P.Inside e x → ∀ c', ¬ done x c') (hblocks : ∀ {x node f},
      P.Inside e x → q.exprs.get? x = some node → Blocks ⟨l, r, c⟩ q node f → err f)
    (h : Sweep l r q b done w.program) :
    (exprUpTo ⟨l, r, c⟩ fuel e).Ends w
      (fun _ w' => Sweep l r q b (fun x c' => done x c' ∨ P.Inside e x ∧ c' = c) w'.program)
        err := by
  induction levels generalizing e fuel w done with
  | zero => exact hshallow.elim
  | succ levels ih =>
    cases fuel with
    | zero => exact absurd hfuel (Nat.not_succ_le_zero levels)
    | succ fuel =>
      obtain ⟨node, hnode, hinner⟩ := id hshallow
      have hnode' : q.exprs.get? e = some node := hexprs ▸ hnode
      have hold : w.program.exprs.get? e = some node :=
        (h.kept (hnew e .refl) (Arena.lt_size_of_get? hnode')).trans hnode'
      have hoperand : ∀ x ∈ node.operands, P.Operand e x := fun x hx => ⟨node, hnode, hx⟩
      unfold exprUpTo
      refine .step (Step.expr_eq hold) (.bind ((Step.Yields.forM (fun seen w' => Sweep l r q b
        (fun x c' => done x c' ∨ (∃ a ∈ seen, P.Inside a x) ∧ c' = c) w'.program) ?_
        (h.congr (by simp))).mono ?_))
      · rintro seen a rest w' hsplit h'
        have ha : a ∈ node.operands := by simp [hsplit]
        have hin : ∀ {x}, P.Inside a x → P.Inside e x := fun hx => .head (hoperand a ha) hx
        have hpairs := hapart e node .refl hnode
        rw [hsplit, List.pairwise_append] at hpairs
        refine (ih (hinner a ha) (Nat.le_of_succ_le_succ hfuel)
          (fun x node' hx => hapart x node' (hin hx))
          (fun x hx c' => ?_) (fun hx => hblocks (hin hx)) h').mono fun _ w'' h'' =>
          h''.congr fun x c' => ?_
        · rintro (hdone | ⟨⟨b, hb, hxb⟩, -⟩)
          · exact hnew x (hin hx) c' hdone
          · exact hpairs.2.2 b hb a List.mem_cons_self x hxb hx
        · simp only [List.mem_append, List.mem_singleton]
          grind
      · intro _ w₁ h₁
        refine .bind
          (((node_yields node).weaken fun f _ hf => hblocks .refl hnode' (h₁.blocks hf)).mono ?_)
        rintro node' w₂ ⟨hturns, hto⟩
        obtain ⟨h₂, hbound⟩ := h₁.turns hfixed hrecords hturns
        have hto' : NodeTo ⟨l, r, c⟩ q w₂.program node node' :=
          hto.shift h₁.exprsSize h₁.sameParams (KeepsAdded.refl _ _)
        have hundone : ∀ c', ¬ (done e c' ∨ (∃ a ∈ node.operands, P.Inside a e) ∧ c' = c) := by
          rintro c' (hdone | ⟨⟨a, ha, hin⟩, -⟩)
          · exact hnew e .refl c' hdone
          · exact hshallow.not_inside (hoperand a ha) hin
        have hknows : Safe l r q → w₂.program.Knows q.decls.size node' := fun hsafe =>
          hto'.knows (hsafe.leads hrecords) h₂.valuesSize (hsafe.closed.exprs hnode') h₂.exprsSize
        refine .of_eq Step.setExpr_eq
          ((h₂.setExpr hundone hnode' hto' hknows hbound).congr fun x c' => ?_)
        rw [Program.inside_iff hnode]
        grind

/-! ## §4. The code of a root. -/

/-- The nodes of the code that was gone through, each in its context. -/
def doneBy (P : Program) (done : List Chore) (x : ExprId) (c : Option Context) : Prop :=
  ∃ e, .expr c e ∈ done ∧ P.Inside e x

end Retarget

namespace Program

/-- The code of a declaration. -/
def codeAt (p : Program) (d : DeclId) : Option ExprId := (p.decls.get? d).bind (·.code)

/-- The declarations whose code the members of a class bring. -/
def classCodes (p : Program) (k : DeclId) : List DeclId := (p.membersOf k).flatMap p.memberCodes

/-- The declarations whose code is retargeted, as often as the code is met. -/
def retargeted (P : Program) (root : DeclId) (l : Locals) : List DeclId :=
  l.functions.keys ++ l.constructors.toList ++ l.classes.keys.flatMap P.classCodes ++ [root]

end Program

namespace Retarget

section

variable {r : Relocation} {site : Site} {c : Option Context} (hraised : Raised P site r q)

theorem filterMap_codePlan (x : DeclId) :
    (codePlan q c x).filterMap Chore.code? = (q.codeAt x).toList := by
  unfold codePlan Program.codeAt
  cases (q.decls.get? x).bind (·.code) <;> rfl

theorem sublist_flatMap {α β : Type} {f g : α → List β} (h : ∀ a, (f a).Sublist (g a))
    (as : List α) : (as.flatMap f).Sublist (as.flatMap g) := by
  induction as with
  | nil => exact .refl _
  | cons a as ih => exact (h a).append ih

include hraised

/-- A replacement has the code of what it replaces. -/
theorem codeAt_image (hx : r.get? d = some x) : q.codeAt x = P.codeAt d := by
  obtain ⟨-, old, new, ⟨hold, -⟩, hnew, hmirrors⟩ := hraised.images hx
  unfold Program.codeAt
  rw [hold, hnew]
  exact hmirrors.code_eq

theorem callablePlan_codes (d : DeclId) :
    ((callablePlan r q d).filterMap Chore.code?).Sublist (P.codeAt d).toList := by
  unfold callablePlan
  cases hx : r.get? d with
  | none => simp
  | some x => simp [filterMap_codePlan, codeAt_image hraised hx]

/-- The parts of a property bring the code of the parts that they replace. -/
theorem part_codes {kind : Declaration → Prop} {old? x? : Option DeclId}
    (hparts : Parts P kind old? x? r) :
    (x?.toList.flatMap fun x => (q.codeAt x).toList).Sublist
      (old?.toList.flatMap fun d => (P.codeAt d).toList) := by
  cases x? with
  | none => simp
  | some x =>
    obtain ⟨a, -, rfl, -, -, hax⟩ := hparts x (by simp)
    simp [codeAt_image hraised hax]

theorem memberPlan_codes (m : DeclId) :
    ((memberPlan r q c m).filterMap Chore.code?).Sublist
      ((P.memberCodes m).flatMap fun d => (P.codeAt d).toList) := by
  unfold memberPlan
  cases hy : r.get? m with
  | none => simp
  | some y =>
    obtain ⟨-, old, new, ⟨hold, -⟩, hnew, hmirrors⟩ := hraised.images hy
    simp only [Option.toList_some, List.flatMap_cons, List.flatMap_nil, List.append_nil,
      List.filterMap_flatMap, filterMap_codePlan]
    unfold Program.memberCodes
    rw [hold, hnew]
    cases old with
    | property z =>
      cases new with
      | property z' =>
        obtain ⟨hgetter, hsetter, hbacking⟩ := hmirrors
        simp only [List.flatMap_append]
        exact ((part_codes hraised hgetter).append (part_codes hraised hsetter)).append
          (part_codes hraised hbacking)
      | _ => exact hmirrors.elim
    | _ =>
      cases new <;> first | exact hmirrors.elim | simp [codeAt_image hraised hy]

/-- Code is gone through as often as it is met, and in that order. -/
theorem plan_codes :
    ((plan P site r q).filterMap Chore.code?).Sublist
      ((P.retargeted site.root site.locals).filterMap P.codeAt) := by
  rw [List.filterMap_eq_flatMap_toList P.codeAt]
  unfold plan Program.retargeted
  simp only [List.filterMap_append, List.filterMap_flatMap, List.flatMap_append, List.flatMap_assoc]
  refine (((sublist_flatMap (callablePlan_codes hraised) _).append
    (sublist_flatMap (callablePlan_codes hraised) _)).append
    (sublist_flatMap (fun k => ?_) _)).append ?_
  · unfold classPlan Program.classCodes
    have hcaptures :
        ((r.fieldsOf k).map fun x => Chore.capture k x.1 x.2).filterMap Chore.code? = [] := by
      simp [Chore.code?]
    have hfill : ∀ members,
        ((r.get? k).toList.map fun x => Chore.fill k x members).filterMap Chore.code? = [] := by
      simp [Chore.code?]
    rw [List.filterMap_append, List.filterMap_append, hcaptures, hfill, List.append_nil,
      List.append_nil, List.filterMap_flatMap, List.flatMap_assoc]
    exact sublist_flatMap (memberPlan_codes hraised) _
  · cases hroot : P.decls.get? site.root with
    | none => simp
    | some content =>
      have hbody : content.body.toList.Sublist content.code.toList := by
        cases content <;> simp [Declaration.body, Declaration.code]
      simpa [Program.codeAt, hroot, List.filterMap_map, Function.comp_def, Chore.code?] using hbody

/-- **Trees that are gone through do not overlap**, where declarations that are met have no code in
common. -/
theorem plan_apart (hapart : ((P.retargeted site.root site.locals).filterMap P.codeAt).Pairwise
      fun e e' => ∀ x, P.Inside e x → ¬ P.Inside e' x) {before rest : List Chore}
    (hplan : plan P site r q = before ++ .expr c e :: rest) {a : ExprId} (hin : P.Inside e a)
    (c' : Option Context) : ¬ doneBy P before a c' := by
  have hplanned := hapart.sublist (plan_codes hraised)
  rw [hplan, List.filterMap_append, List.pairwise_append] at hplanned
  rintro ⟨e', hmem, hin'⟩
  exact hplanned.2.2 e' (List.mem_filterMap.2 ⟨_, hmem, rfl⟩) e (by simp [Chore.code?]) a hin' hin

/-! ## §5. One chore after the other. -/

/-- The field of a captured value is initialized from a parameter of the primary constructor. -/
def CapturedInit (q p : Program) (context : Context) (v : ValueId) (f : DeclId) : Prop :=
  ∃ x field e, context.carrier? v = some (.param x) ∧ q.decls.get? f = some (.field field)
    ∧ p.decls.get? f = some (.field { field with init := some e }) ∧ q.exprs.size ≤ e.index
    ∧ p.exprs.get? e = some (.get x)

/-- The fields that were dealt with have got their initializers.  If a field was dealt with twice,
the last time counts. -/
def Initialized (P : Program) (r : Relocation) (q : Program) (done : List Chore)
    (p : Program) : Prop :=
  ∀ {k v field}, .capture k v field ∈ done → ∃ k' v' primary context, .capture k' v' field ∈ done
    ∧ Finds P r q k' (some primary) ∧ r.contexts.get? primary = some context
    ∧ CapturedInit q p context v' field

omit hraised in
/-- An initializer stays if the field does. -/
theorem CapturedInit.mono {context : Context} {f : DeclId} {p' : Program}
    (h : CapturedInit q p context v f) (hdecl : p'.decls.get? f = p.decls.get? f)
    (hkeeps : KeepsAdded q p p') : CapturedInit q p' context v f := by
  obtain ⟨x, field, e, hcarrier, hq, hp, hlow, he⟩ := h
  exact ⟨x, field, e, hcarrier, hq, hdecl.trans hp, hlow, hkeeps hlow he⟩

/-- **Everything below one root**, where trees do not overlap: every chore does its work, unless a
node of its code is blocked or something that is looked for is not there. -/
theorem sweeps_works {err : Fault → Prop} (hcollects : P.Collects site.root)
    (hapart : ((P.retargeted site.root site.locals).filterMap P.codeAt).Pairwise
      fun e e' => ∀ x, P.Inside e x → ¬ P.Inside e' x)
    (hcode : ∀ {c e}, .expr c e ∈ plan P site r q → P.Treelike e)
    (hblocks : ∀ {c e x node f}, .expr c e ∈ plan P site r q → P.Inside e x →
      P.exprs.get? x = some node →
      Blocks ⟨site.locals, r, c⟩ q node f → err f)
    (hlost : ∀ {done p f}, Framed P r q done p → Lost P site r q p f → err f) :
    Works P site r q (fun done w => Sweep site.locals r q w.program (doneBy P done) w.program
      ∧ Initialized P r q done w.program) fun f _ => err f := by
  have hexprs : q.exprs = P.exprs := hraised.grown.exprs
  have hexpr : ∀ {before rest : List Chore} {c : Option Context} {e : ExprId} {w : Work},
      plan P site r q = before ++ .expr c e :: rest →
      Sweep site.locals r q w.program (doneBy P before) w.program →
      (expr ⟨site.locals, r, c⟩ e).Ends w
        (fun _ w' => Sweep site.locals r q w.program (doneBy P (before ++ [.expr c e])) w'.program)
        err := by
    intro before rest c e w hplan h
    have hmem : .expr c e ∈ plan P site r q := by simp [hplan]
    have hshallow := (hcollects.ends.bounded (below_of_mem_plan hraised hmem)).shallow.within_size
    have hsize : P.exprs.size ≤ w.program.exprs.size := hexprs ▸ h.exprsSize
    refine .step Step.program_eq
      ((exprUpTo_sweeps hexprs hraised.fixed (code_of_mem_plan hraised hmem).1
      hshallow ?_ (hcode hmem) (fun x hx => plan_apart hraised hapart hplan hx)
      (fun hin hnode => hblocks hmem hin (hexprs ▸ hnode)) h).mono fun _ w' h' =>
      h'.congr fun x c' => ?_)
    · omega
    · simp only [doneBy, List.mem_append, List.mem_singleton, Chore.expr.injEq,
        or_and_right, exists_or]
      grind
  refine ⟨fun {before rest c e w w'} hplan hw hrun => ?_, fun hplan hw hrun => ?_,
    fun {before rest k field primary v param w context f} hplan hw hfinds hcontext hparam hf => ?_,
    fun {before rest k x members w c} hplan hw hx => ?_, fun hw hlost' => hlost hw.1 hlost'⟩
  · have h' := (hexpr hplan hw.2.1).ok_of hrun
    refine ⟨h'.rebase, fun {k v field} hmem => ?_⟩
    obtain ⟨k', v', primary, context, hmem', hfinds, hcontext, hinit⟩ :=
      hw.2.2 (by simpa using hmem)
    exact ⟨k', v', primary, context, List.mem_append_left _ hmem', hfinds, hcontext,
      hinit.mono (by rw [h'.decls]) h'.added⟩
  · exact (hexpr hplan hw.2.1).error_of hrun
  · obtain ⟨-, hmem⟩ := capture_mem_plan.1 (hplan ▸ List.mem_append_right _ List.mem_cons_self)
    obtain ⟨this, captured, hk, hmem⟩ := Relocation.mem_fieldsOf.1 hmem
    obtain ⟨-, -, f₀, hq⟩ := hraised.fields hk field (List.mem_map.2 ⟨_, hmem, rfl⟩)
    obtain ⟨content, hf', hfilled⟩ := hw.1.filled hq
    obtain rfl : .field f = content := Option.mem_unique hf hf'
    have hinit : { f with init := some w.program.exprs.next }
        = { f₀ with init := some w.program.exprs.next } := by
      cases hfilled <;> rfl
    have hlt : Safe site.locals r q → param.index < w.program.values.size := fun hsafe =>
      hw.2.1.valuesSize ▸ (hsafe.leads (c := some context)
        (by rintro _ ⟨⟩; exact ⟨primary, hcontext⟩)).carriers hparam
    have hadded : Sweep site.locals r q w.program (doneBy P before)
        (w.program.allocExpr (.get param)).2 := by
      refine hw.2.1.extend rfl rfl rfl (Arena.keeps_alloc _ _) fun hsafe =>
        (hw.2.1.closed hsafe).allocExpr ?_
      simpa [Program.Knows, Expr.namedDecls, Expr.namedValues, Expr.used?, Expr.bound?,
        Expr.operands] using hlt hsafe
    have hfills : Filled (.field f) (.field { f with init := some w.program.exprs.next }) := .field
    have hset := hadded.setDecl hf hfills fun hsafe => ?_
    · refine ⟨hset.congr (by simp [doneBy]), fun {k' v' field'} hmem' => ?_⟩
      have hget : ∀ x, ((w.program.allocExpr (.get param)).2.setDecl field
          (.field { f with init := some w.program.exprs.next })).decls.get? x
          = if x = field then some (.field { f with init := some w.program.exprs.next })
          else w.program.decls.get? x :=
        Program.get?_setDecl hf _
      by_cases heq : field' = field
      · subst heq
        refine ⟨k, v, primary, context, by simp, hfinds, hcontext, param, f₀, w.program.exprs.next,
          hparam, hq, ?_, hw.2.1.exprsSize, Arena.get?_alloc_next _ _⟩
        rw [hget, if_pos rfl, hinit]
      · have hdone : .capture k' v' field' ∈ before := by
          rcases List.mem_append.1 hmem' with hmem' | hmem'
          · exact hmem'
          · cases List.mem_singleton.1 hmem'
            exact absurd rfl heq
        obtain ⟨k₁, v₁, primary₁, context₁, hmem₁, hfinds₁, hcontext₁, hinit₁⟩ := hw.2.2 hdone
        refine ⟨k₁, v₁, primary₁, context₁, List.mem_append_left _ hmem₁, hfinds₁, hcontext₁,
          hinit₁.mono (by rw [hget, if_neg heq]) fun _ hx => Arena.get?_alloc_of_some _ hx⟩
    · obtain ⟨hdecls, hvalues, -⟩ := (hadded.closed hsafe).decls hf
      refine ⟨hdecls, hvalues, fun e he => ?_⟩
      obtain rfl : w.program.exprs.next = e := Option.some.inj he
      show w.program.exprs.size < (w.program.allocExpr (.get param)).2.exprs.size
      rw [Program.size_allocExpr]
      exact Nat.lt_succ_self _
  · have hmem : .fill k x members ∈ plan P site r q := by simp [hplan]
    have hfills : Filled (.cls c) (.cls { c with members }) := .cls
    have hset := hw.2.1.setDecl hx hfills fun hsafe => ?_
    · refine ⟨hset.congr (by simp [doneBy]), fun {k' v' field'} hmem' => ?_⟩
      obtain ⟨k₁, v₁, primary₁, context₁, hmem₁, hfinds₁, hcontext₁, hinit₁⟩ :=
        hw.2.2 (by simpa using hmem')
      refine ⟨k₁, v₁, primary₁, context₁, List.mem_append_left _ hmem₁, hfinds₁, hcontext₁,
        hinit₁.mono ?_ fun _ hx => hx⟩
      rw [Program.get?_setDecl hx, if_neg]
      rintro rfl
      obtain ⟨_, _, _, -, -, hfield, -⟩ := hinit₁
      cases hx.symm.trans hfield
    · obtain ⟨hdecls, hvalues, hcode'⟩ := (hw.2.1.closed hsafe).decls hx
      refine ⟨fun y hy => ?_, hvalues, hcode'⟩
      simp only [Declaration.namedDecls, Declaration.parent, List.mem_append] at hy hdecls
      rcases hy with hy | ((hy | hy) | hy) | hy
      · exact hdecls y (.inl hy)
      · exact hdecls y (.inr (.inl (.inl (.inl hy))))
      · obtain ⟨d, -, ⟨c, m, -, -, hm⟩ | ⟨this, captured, hk, hy⟩⟩ := lists_of_mem_plan hmem hy
        · obtain ⟨-, _, _, -, hnew, -⟩ := hraised.images hm
          exact Arena.lt_size_of_get? hnew
        · obtain ⟨-, -, _, hfield⟩ := hraised.fields hk y hy
          exact Arena.lt_size_of_get? hfield
      · exact hdecls y (.inr (.inl (.inr hy)))
      · exact hdecls y (.inr (.inr hy))

end

end Retarget

end LambdaLift
