/-
  LambdaLift.Proofs.Followed
  **ON A CLOSED PROGRAM BODIES ARE RETARGETED, OR A REPORT SAYS WHY NOT.**

  Code may be shared, so an expression may be retargeted more than once,
  in different contexts.  Still no handle leads nowhere, and the depth
  that is allowed suffices.  The code that was there is ranked, operands
  below the node they belong to.  What is added is a read, or a read of a
  field whose receiver is read in turn; and a receiver is a new value,
  which nothing carries and which has no counterpart, so retargeting
  leaves its read alone (`Program.Steady`).  Code that is added is
  therefore at most two levels deep, whatever happens to it later.

  Main results:
    * `Retarget.node_follows` — one node;
    * `Retarget.exprUpTo_follows` — one expression, to a depth that suffices;
    * `Retarget.all_follows` — everything below one root.
-/
import Mathlib
import LambdaLift.Proofs.Answers
import LambdaLift.Proofs.Chores

namespace LambdaLift

variable {p₀ q : Program} {d old : DeclId} {dest : Option DeclId} {e x : ExprId} {v : ValueId}
  {c : ClassDecl} {node : Expr} {r : Relocation}

/-! ## §1. Code that is added. -/

namespace Program

/-- The expression was added and reads a new value. -/
def Steady (p₀ p : Program) (x : ExprId) : Prop :=
  p₀.exprs.size ≤ x.index ∧ ∃ v, p.exprs.get? x = some (.get v) ∧ p₀.values.size ≤ v.index

/-- What an added expression is: a read of a value, or of a field of a steady receiver. -/
def Light (p₀ p : Program) (node : Expr) : Prop :=
  (∃ v, node = .get v) ∨ ∃ f x, node = .getField f (some x) ∧ Steady p₀ p x

variable {p₀ p p' : Program}

theorem Steady.mono (h : Steady p₀ p x) (hkeeps : p.exprs.Keeps p'.exprs) : Steady p₀ p' x := by
  obtain ⟨hlow, v, hv, hnew⟩ := h
  exact ⟨hlow, v, hkeeps _ _ hv, hnew⟩

theorem Light.mono (h : Light p₀ p node) (hsteady : ∀ x, Steady p₀ p x → Steady p₀ p' x) :
    Light p₀ p' node := by
  refine h.imp id ?_
  rintro ⟨f, x, hnode, hx⟩
  exact ⟨f, x, hnode, hsteady x hx⟩

end Program

/-- While the code below a root is retargeted.  `q` is the program with all signatures, and `rank`
ranks the code that was there. -/
structure Following (p₀ q : Program) (r : Relocation) (rank : ExprId → Nat)
    (p : Program) : Prop where
  declCount : p.decls.size = q.decls.size
  valueCount : p.values.size = q.values.size
  closed : p.ClosedAt q.decls.size
  kept : p₀.decls.Keeps p.decls
  grown : p₀.exprs.size ≤ p.exprs.size
  ranked : ∀ {e node}, e.index < p₀.exprs.size → p.exprs.get? e = some node → ∀ x ∈ node.operands,
    x.index < p₀.exprs.size → rank x < rank e
  light : ∀ {e node}, p₀.exprs.size ≤ e.index → p.exprs.get? e = some node → p₀.Light p node
  members : ∀ {x c}, p₀.decls.size ≤ x.index → p.decls.get? x = some (.cls c) →
    ∀ y ∈ c.members, r.Lists p₀ x y

namespace Following

variable {p₀ q p : Program} {r : Relocation} {rank : ExprId → Nat}

/-- A light node is added. -/
theorem allocExpr (h : Following p₀ q r rank p) (hlight : p₀.Light p node)
    (hknows : p.Knows q.decls.size node) : Following p₀ q r rank (p.allocExpr node).2 := by
  have hkeeps : p.exprs.Keeps (p.allocExpr node).2.exprs := Arena.keeps_alloc _ _
  have hget : ∀ e, (p.allocExpr node).2.exprs.get? e = if e = p.exprs.next then some node
      else p.exprs.get? e :=
    Arena.get?_alloc _ _
  refine { h with closed := h.closed.allocExpr hknows, grown := h.grown.trans hkeeps.size_le,
                  ranked := ?_, light := ?_ }
  · intro e node' he hnode
    rw [hget, if_neg (by rintro rfl; exact absurd (he.trans_le h.grown) (Nat.lt_irrefl _))] at hnode
    exact h.ranked he hnode
  · intro e node' he hnode
    refine Program.Light.mono (p := p) ?_ fun x hx => hx.mono hkeeps
    rw [hget] at hnode
    split at hnode
    · exact Option.some.inj hnode ▸ hlight
    · exact h.light he hnode

/-- A node is overwritten: one that was there keeps its rank, one that was added stays light. -/
theorem setExpr (h : Following p₀ q r rank p) (hknows : p.Knows q.decls.size node)
    (hrank : e.index < p₀.exprs.size →
      ∀ x ∈ node.operands, x.index < p₀.exprs.size → rank x < rank e)
    (hlight : p₀.exprs.size ≤ e.index → p₀.Light p node ∧ ¬ Program.Steady p₀ p e) :
    Following p₀ q r rank (p.setExpr e node) := by
  have hget : ∀ x, (p.setExpr e node).exprs.get? x
      = if x = e ∧ e.index < p.exprs.size then some node else p.exprs.get? x :=
    fun x => Arena.get?_set _ _ _ _
  have hsteady : ∀ x, Program.Steady p₀ p x → Program.Steady p₀ (p.setExpr e node) x := by
    rintro x ⟨hlow, v, hv, hnew⟩
    have hne : x ≠ e := by
      rintro rfl
      exact (hlight hlow).2 ⟨hlow, v, hv, hnew⟩
    exact ⟨hlow, v, by rw [hget, if_neg fun hcond => hne hcond.1]; exact hv, hnew⟩
  refine { h with
    closed := h.closed.setExpr hknows
    grown := h.grown.trans_eq (Arena.size_set _ _ _).symm
    ranked := ?_, light := ?_ }
  · intro x node' hx hnode
    rw [hget] at hnode
    split at hnode
    next hcond =>
      obtain ⟨rfl, -⟩ := hcond
      exact Option.some.inj hnode ▸ hrank hx
    next => exact h.ranked hx hnode
  · intro x node' hx hnode
    refine Program.Light.mono ?_ hsteady
    rw [hget] at hnode
    split at hnode
    next hcond =>
      obtain ⟨rfl, -⟩ := hcond
      exact Option.some.inj hnode ▸ (hlight hx).1
    next => exact h.light hx hnode

/-- A value goes to another owner. -/
theorem setOwner (h : Following p₀ q r rank p) {value : Value} {owner : DeclId}
    (hv : p.values.get? v = some value) (howner : owner.index < q.decls.size) :
    Following p₀ q r rank (p.setValue v { value with owner }) :=
  { h with
    valueCount := (Arena.size_set _ _ _).trans h.valueCount
    closed := h.closed.setValue howner (h.closed.values hv).2 }

/-- A new declaration is overwritten. -/
theorem setDecl (h : Following p₀ q r rank p) {content : Declaration} (hd : p₀.decls.size ≤ d.index)
    (hdecls : ∀ x ∈ content.namedDecls, x.index < q.decls.size)
    (hvalues : ∀ v ∈ content.namedValues, v.index < p.values.size)
    (hcode : ∀ e ∈ content.code, e.index < p.exprs.size)
    (hmembers : ∀ c, content = .cls c → ∀ y ∈ c.members, r.Lists p₀ d y) :
    Following p₀ q r rank (p.setDecl d content) := by
  have hget : ∀ x, (p.setDecl d content).decls.get? x
      = if x = d ∧ d.index < p.decls.size then some content else p.decls.get? x :=
    fun x => Arena.get?_set _ _ _ _
  refine { h with
    declCount := (p.size_setDecl d content).trans h.declCount
    closed := h.closed.setDecl hdecls hvalues hcode
    kept := fun x old hx => ?_
    members := fun {x c} hx hc => ?_ }
  · have hlt := Arena.lt_size_of_get? hx
    rw [hget, if_neg (by rintro ⟨rfl, -⟩; omega)]
    exact h.kept x old hx
  · rw [hget] at hc
    split at hc
    next hcond =>
      obtain ⟨rfl, -⟩ := hcond
      exact hmembers c (Option.some.inj hc)
    next => exact h.members hx hc

end Following

/-! ## §2. One node. -/

namespace Retarget

/-- What code is retargeted by leads somewhere, and tells nothing of new values. -/
structure Guided (t : Retarget) (p₀ q : Program) : Prop where
  leads : t.Leads q
  forth : ∀ {v x}, t.relocation.values.forth? v = some x → v.index < p₀.values.size
  carriers : ∀ {v k}, t.carrier? v = some k → v.index < p₀.values.size ∧ k.Leads p₀ q

variable {p₀ q : Program} {rank : ExprId → Nat} {t : Retarget} {w : Work}

theorem guided_of_founded {n : Nat} (h : Founded p₀ dest n t.relocation q)
    (hrecords : t.relocation.Records t.context?) : t.Guided p₀ q := by
  refine ⟨leads_of_founded h hrecords, fun hv => ?_, fun {v k} hk => ?_⟩
  · obtain ⟨⟨value, hvalue, -⟩, -⟩ := h.lifting.forth hv
    exact Arena.lt_size_of_get? hvalue
  · obtain ⟨c, hc, hcarrier⟩ := Option.bind_eq_some_iff.1 hk
    obtain ⟨d, hd⟩ := hrecords c hc
    exact h.carriers hd hcarrier

variable (ht : t.Guided p₀ q)
include ht

/-- A new value is read as it is. -/
theorem Guided.read_new (hv : p₀.values.size ≤ v.index) : t.read v = pure (.get v) := by
  have hcarrier : t.carrier? v = none := by
    cases hk : t.carrier? v with
    | none => rfl
    | some k => exact absurd (ht.carriers hk).1 (Nat.not_lt.2 hv)
  have hforth : t.relocation.values.forth? v = none := by
    cases hx : t.relocation.values.forth? v with
    | none => rfl
    | some x => exact absurd (ht.forth hx) (Nat.not_lt.2 hv)
  simp only [read, hcarrier, counterpart, hforth, Option.getD_none]

/-- A read is light: a receiver is new. -/
theorem ReadsAs.light {p p' : Program} (h : ReadsAs t p p' v node)
    (hsize : p₀.exprs.size ≤ p.exprs.size) : p₀.Light p' node := by
  cases h with
  | counterpart => exact .inl ⟨_, rfl⟩
  | param => exact .inl ⟨_, rfl⟩
  | @field f this receiver hcarrier hnew hreceiver =>
    exact .inr ⟨f, receiver, rfl, hsize.trans hnew, this, hreceiver, (ht.carriers hcarrier).2.2.1⟩

/-- Reads are added, and a value may follow its owner. -/
theorem Turns.following {p p' : Program} (hturns : t.Turns p p' node)
    (h : Following p₀ q t.relocation rank p) : Following p₀ q t.relocation rank p' := by
  rcases hturns with ⟨-, hadds⟩ | ⟨v, value, -, hv, rfl⟩
  · have hleads := ht.leads.congr h.declCount h.valueCount
    have hold : ∀ {e node}, e.index < p.exprs.size → p'.exprs.get? e = some node →
        p.exprs.get? e = some node := by
      intro e node hlt he
      obtain ⟨node', hnode'⟩ := Arena.exists_get?_of_lt hlt
      rwa [← hadds.exprs _ _ hnode', he] at hnode'
    refine { h with
      declCount := hadds.decls ▸ h.declCount
      valueCount := hadds.values ▸ h.valueCount
      closed := hadds.closedAt h.closed fun node hmade => h.declCount ▸ hmade.knows hleads
        (by rw [hadds.values])
      kept := hadds.decls ▸ h.kept
      grown := h.grown.trans hadds.exprs.size_le
      ranked := fun hlt he => h.ranked hlt (hold (hlt.trans_le h.grown) he)
      light := fun {e node} hlow he => ?_
      members := fun hlow hc => h.members hlow (hadds.decls ▸ hc) }
    by_cases hlt : e.index < p.exprs.size
    · exact (h.light hlow (hold hlt he)).mono fun x hx => hx.mono hadds.exprs
    · cases hadds.reads (Nat.le_of_not_lt hlt) he with
      | read _ hreads => exact hreads.light ht h.grown
      | receiver => exact .inl ⟨_, rfl⟩
  · exact h.setOwner hv (ht.leads.retarget_lt (h.closed.values hv).1)

/-- **A node** is retargeted, or a report says why not. -/
theorem node_follows (h : Following p₀ q t.relocation rank w.program)
    (hnode : w.program.Knows q.decls.size node) :
    (t.node node).Ends w (fun new w' => Following p₀ q t.relocation rank w'.program
      ∧ w.program.exprs.Keeps w'.program.exprs ∧ w'.program.Knows q.decls.size new
      ∧ NodeTo t w.program w'.program node new) Fault.Reports := by
  obtain ⟨hdecls, hvalues, -⟩ := id hnode
  refine ((node_yields node).mono ?_).weaken fun f _ hblocks => ?_
  · rintro new w' ⟨hturns, hto⟩
    have h' := hturns.following ht h
    refine ⟨h', hturns.exprs, ?_, hto⟩
    exact h.declCount ▸ hto.knows (ht.leads.congr h.declCount h.valueCount)
      (h'.valueCount.trans h.valueCount.symm)
      (h.declCount.symm ▸ hnode) hturns.exprs.size_le
  · -- on a closed program no handle leads nowhere
    have hvalue : ∀ {v}, v.index < w.program.values.size →
        w.program.values.get? v ≠ none := fun hlt hnone =>
      Nat.not_lt.2 ((Arena.get?_eq_none_iff _ _).1 hnone) hlt
    cases hblocks with
    | value hv hnone => exact absurd hnone (hvalue (hvalues _ hv))
    | @decl form a new d _ hnew hd hnone =>
      have hlt : d.index < w.program.decls.size := by
        rw [h.declCount]
        rcases hd with rfl | rfl
        · exact hdecls _ (by simp [Expr.namedDecls])
        · exact ht.leads.moved hnew
      exact absurd ((Arena.get?_eq_none_iff _ _).1 hnone) (Nat.not_le.2 hlt)
    | refused _ hf => exact hf
    | unlifted _ hf => exact hf
    | unpassed _ _ hcontent hparam _ hf =>
      exact hf.resolve_right
        (hvalue ((h.closed.decls hcontent).2.1 _ (by simp [Declaration.namedValues, hparam])))

/-! ## §3. One expression. -/

/-- A steady expression is left as it is. -/
theorem exprUpTo_steady (hx : Program.Steady p₀ w.program x) (fuel : Nat) :
    t.exprUpTo (fuel + 1) x w = .ok () w := by
  obtain ⟨-, v, hv, hnew⟩ := hx
  have hset : w.program.setExpr x (.get v) = w.program := by
    unfold Program.setExpr
    rw [Arena.set_eq_self hv]
  rw [exprUpTo, Step.bind_eq (Step.expr_eq hv)]
  show (t.read v >>= Step.setExpr x) w = _
  rw [ht.read_new hnew, pure_bind, Step.setExpr_eq, hset]

/-- What retargeting an expression leaves behind. -/
def Passes (p₀ q : Program) (r : Relocation) (rank : ExprId → Nat) (w : Work)
    (x : Step Unit) : Prop :=
  x.Ends w (fun _ w' => Following p₀ q r rank w'.program
    ∧ w.program.exprs.size ≤ w'.program.exprs.size) Fault.Reports

/-- **An expression that was added** is retargeted. -/
theorem exprUpTo_light (h : Following p₀ q t.relocation rank w.program)
    (hlow : p₀.exprs.size ≤ e.index) (he : e.index < w.program.exprs.size) (fuel : Nat) :
    Passes p₀ q t.relocation rank w (t.exprUpTo (fuel + 2) e) := by
  obtain ⟨node, hnode⟩ := Arena.exists_get?_of_lt he
  obtain ⟨hdecls, hvalues, hoperands⟩ := h.closed.exprs hnode
  unfold Passes
  by_cases hsteady : Program.Steady p₀ w.program e
  · exact .of_eq (exprUpTo_steady ht hsteady (fuel + 1)) ⟨h, le_rfl⟩
  have hsize : ∀ {p : Program} {node : Expr}, p.exprs.size ≤ (p.setExpr e node).exprs.size :=
    fun {p node} =>
    (Arena.size_set p.exprs e node).ge
  rcases h.light hlow hnode with ⟨v, rfl⟩ | ⟨f, x, rfl, hx⟩
  · refine .step (Step.expr_eq hnode)
      (.bind (.pure (.bind ((node_follows ht h ⟨hdecls, hvalues, hoperands⟩).mono ?_))))
    rintro new w' ⟨h', hkeeps, hknows, hto⟩
    cases hto with
    | get hreads =>
      refine .of_eq Step.setExpr_eq ⟨h'.setExpr hknows (fun hlt => absurd hlt (Nat.not_lt.2 hlow))
        fun _ => ⟨hreads.light ht h.grown, ?_⟩, hkeeps.size_le.trans hsize⟩
      rintro ⟨-, u, hu, hnew⟩
      obtain rfl : v = u := Expr.get.inj (Option.some.inj ((hkeeps _ _ hnode).symm.trans hu))
      exact hsteady ⟨hlow, v, hnode, hnew⟩
  · refine .step (Step.expr_eq hnode)
      (.bind (.bind (.of_eq (exprUpTo_steady ht hx fuel) (.pure ?_))))
    refine .bind (.pure (.of_eq Step.setExpr_eq ⟨h.setExpr ⟨?_, hvalues, hoperands⟩
      (fun hlt => absurd hlt (Nat.not_lt.2 hlow)) fun _ => ⟨.inr ⟨_, x, rfl, hx⟩, hsteady⟩, hsize⟩))
    simpa [Expr.namedDecls] using ht.leads.retarget_lt (hdecls f (by simp [Expr.namedDecls]))

/-- **An expression** is retargeted with everything below it.  The depth allows for the rank of what
was there, and for two levels of what was added. -/
theorem exprUpTo_follows (h : Following p₀ q t.relocation rank w.program)
    (he : e.index < w.program.exprs.size) {fuel : Nat} (hfuel : 2 ≤ fuel)
    (hrank : e.index < p₀.exprs.size → rank e + 3 ≤ fuel) :
    Passes p₀ q t.relocation rank w (t.exprUpTo fuel e) := by
  induction fuel generalizing e w with
  | zero => omega
  | succ fuel ih =>
    by_cases hlow : p₀.exprs.size ≤ e.index
    · obtain ⟨k, rfl⟩ : ∃ k, fuel = k + 1 := ⟨fuel - 1, by omega⟩
      exact exprUpTo_light ht h hlow he k
    have hlt : e.index < p₀.exprs.size := Nat.lt_of_not_le hlow
    have hfuel' := hrank hlt
    obtain ⟨old, hold⟩ := Arena.exists_get?_of_lt he
    obtain ⟨hdecls, hvalues, hoperands⟩ := h.closed.exprs hold
    unfold Passes
    refine .step (Step.expr_eq hold)
      (.bind ((Step.Yields.forM (fun _ w' => Following p₀ q t.relocation rank w'.program
        ∧ w.program.exprs.size ≤ w'.program.exprs.size) ?_ ⟨h, le_rfl⟩).mono ?_))
    · rintro done x rest w₁ hsplit ⟨h₁, hsize₁⟩
      have hx : x ∈ old.operands := by simp [hsplit]
      refine Step.Yields.mono
        (ih h₁ ((hoperands x hx).trans_le hsize₁) (by omega) fun hxlt => ?_) ?_
      · have := h.ranked hlt hold x hx hxlt
        omega
      · rintro _ w₂ ⟨h₂, hsize₂⟩
        exact ⟨h₂, hsize₁.trans hsize₂⟩
    rintro _ w₁ ⟨h₁, hsize₁⟩
    refine .bind
      ((node_follows ht h₁ ⟨hdecls, fun v hv => h₁.valueCount ▸ h.valueCount ▸ hvalues v hv,
      fun x hx => (hoperands x hx).trans_le hsize₁⟩).mono ?_)
    rintro new w₂ ⟨h₂, hkeeps, hknows, hto⟩
    refine .of_eq Step.setExpr_eq
      ⟨h₂.setExpr hknows (fun _ x hx hxlt => ?_) fun hge => absurd hlt (Nat.not_lt.2 hge), ?_⟩
    · rcases hto.operands hx with hx | hge
      · exact h.ranked hlt hold x hx hxlt
      · exact absurd (hxlt.trans_le h₁.grown) (Nat.not_lt.2 hge)
    · exact (hsize₁.trans hkeeps.size_le).trans (Arena.size_set _ _ _).ge

variable (hrank : ∀ e, rank e ≤ p₀.exprs.size)
include hrank

/-- **An expression** is retargeted. -/
theorem expr_follows (h : Following p₀ q t.relocation rank w.program)
    (he : e.index < w.program.exprs.size) : Passes p₀ q t.relocation rank w (t.expr e) := by
  have hlevels : 3 ≤ addedLevels := by decide
  have hgrown := h.grown
  refine .step Step.program_eq (exprUpTo_follows ht h he (by omega) fun _ => ?_)
  have := hrank e
  omega

/-! ## §4. Everything below one root. -/

omit ht

variable {site : Site} (hfounded : Founded p₀ dest q.decls.size r q) (hraised : Raised p₀ site r q)
include hfounded hraised

/-- The code of a replacement is retargeted. -/
theorem chore_follows {context? : Option Context} (hmem : .expr context? e ∈ plan p₀ site r q)
    (hsize : q.exprs.size ≤ w.program.exprs.size) (h : Following p₀ q r rank w.program) :
    Passes p₀ q r rank w (Retarget.expr ⟨site.locals, r, context?⟩ e) := by
  obtain ⟨hcontext, hcode⟩ := code_of_mem_plan hraised hmem
  refine expr_follows (guided_of_founded hfounded hcontext) hrank h (Nat.lt_of_lt_of_le ?_ hsize)
  rcases hcode with ⟨-, x, content, -, hx, hcode⟩ | ⟨content, hroot, hbody⟩
  · exact (hfounded.lifting.closed.decls hx).2.2 e hcode
  · refine (hfounded.lifting.closed.decls (hfounded.lifting.decls _ _ hroot)).2.2 e ?_
    cases content <;> first | exact hbody | cases hbody

/-- **Every chore** leaves a program on which the others can be done, or a report says why not. -/
theorem follows_works (hclosed : p₀.Closed) :
    Works p₀ site r q (fun _ w => Following p₀ q r rank w.program) fun f _ => f.Reports where
  expr hplan hw hrun :=
    ((chore_follows hrank hfounded hraised (by simp [hplan]) hw.1.size hw.2).ok_of hrun).1
  fault hplan hw hrun :=
    (chore_follows hrank hfounded hraised (by simp [hplan]) hw.1.size hw.2).error_of hrun
  capture {_ _ k field primary v param w context f} hplan hw _ hcontext hparam hfield := by
    obtain ⟨-, hmem⟩ := capture_mem_plan.1 (hplan ▸ List.mem_append_right _ List.mem_cons_self)
    obtain ⟨this, captured, hk, hmem⟩ := Relocation.mem_fieldsOf.1 hmem
    obtain ⟨hlow, -⟩ := hfounded.lifting.fields hk field (List.mem_map.2 ⟨_, hmem, rfl⟩)
    have hlt : param.index < w.program.values.size :=
      hw.2.valueCount ▸ (hfounded.carriers hcontext hparam).2
    have h₁ : Following p₀ q r rank (w.program.allocExpr (.get param)).2 :=
      hw.2.allocExpr (.inl ⟨param, rfl⟩) (by
      simpa [Program.Knows, Expr.namedDecls, Expr.namedValues, Expr.used?, Expr.bound?,
        Expr.operands] using hlt)
    obtain ⟨hdecls, hvalues, -⟩ := h₁.closed.decls hfield
    refine h₁.setDecl hlow hdecls hvalues (fun e he => ?_) (by rintro c ⟨⟩)
    obtain rfl : w.program.exprs.next = e := Option.some.inj he
    show w.program.exprs.size < (w.program.allocExpr (.get param)).2.exprs.size
    rw [Program.size_allocExpr]
    exact Nat.lt_succ_self _
  fill {_ _ k x members w c} hplan hw hx := by
    have hmem : .fill k x members ∈ plan p₀ site r q := by simp [hplan]
    obtain ⟨-, hnew, -⟩ := fill_mem_plan.1 hmem
    obtain ⟨-, hlow, -⟩ := hfounded.lifting.moved hnew
    obtain ⟨hdecls, hvalues, hcode⟩ := hw.2.closed.decls hx
    refine hw.2.setDecl hlow (fun y hy => ?_) hvalues hcode ?_
    · simp only [Declaration.namedDecls, Declaration.parent, List.mem_append] at hy hdecls
      rcases hy with hy | ((hy | hy) | hy) | hy
      · exact hdecls y (.inl hy)
      · exact hdecls y (.inr (.inl (.inl (.inl hy))))
      · obtain ⟨d, -, ⟨c, m, -, -, hm⟩ | ⟨this, captured, hk, hy⟩⟩ := lists_of_mem_plan hmem hy
        · exact (hfounded.lifting.moved hm).2.2
        · exact (hfounded.lifting.fields hk y hy).2.1
      · exact hdecls y (.inr (.inl (.inr hy)))
      · exact hdecls y (.inr (.inr hy))
    · rintro _ ⟨⟩ y hy
      exact lists_of_mem_plan hmem hy
  lost hw hf := by
    rcases hf.reports with hf | ⟨k, c, hk, hf⟩
    · exact hf
    · cases (hw.1.primaryConstructor?_eq hraised hclosed hk).symm.trans hf

/-- **All code below a root** is retargeted. -/
theorem all_follows (hsite : site.Sound p₀) (hw : w.program = q) (h : Following p₀ q r rank q) :
    (all site.locals r site.root).Ends w
      (fun _ w' => Following p₀ q r rank w'.program) Fault.Reports := by
  obtain ⟨content, hroot⟩ := hsite.root
  exact ((follows_works hrank hfounded hraised hsite.closed).all hraised hsite.sorted hroot
    ⟨hw ▸ .start p₀ r q, hw ▸ h⟩).mono fun _ _ hw' => hw'.2.2.2

end Retarget

/-- When all signatures are built, nothing is retargeted yet. -/
theorem Following.start {site : Site} {rank : ExprId → Nat}
    (hfounded : Founded p₀ dest q.decls.size r q) (hraised : Raised p₀ site r q)
    (hrank : ∀ {e node}, p₀.exprs.get? e = some node → ∀ x ∈ node.operands, rank x < rank e) :
    Following p₀ q r rank q where
  declCount := rfl
  valueCount := rfl
  closed := hfounded.lifting.closed
  kept := hfounded.lifting.decls
  grown := by rw [hfounded.lifting.exprs]
  ranked _ he x hx _ := hrank (hfounded.lifting.exprs ▸ he) x hx
  light hlow he := absurd (Arena.lt_size_of_get? he) (Nat.not_lt.2 (hfounded.lifting.exprs ▸ hlow))
  members {x c} hlow hc y hy := by
    rcases hfounded.origins hlow hc with ⟨d, hd⟩ | hparts
    · obtain ⟨-, old, new, -, hnew, hmirrors⟩ := hraised.images hd
      obtain rfl : new = .cls c := Option.mem_unique hnew hc
      cases old with
      | cls c₀ =>
        rw [hmirrors.1] at hy
        cases hy
      | _ => exact hmirrors.elim
    · rw [List.map_eq_nil_iff.1 hparts] at hy
      cases hy

end LambdaLift
