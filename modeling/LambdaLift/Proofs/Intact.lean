/-
  LambdaLift.Proofs.Intact
  **A ROOT THAT NOTHING HAS HAPPENED TO.**

  Roots are lowered one after the other, and a root that has not come yet
  is still as it was: its declarations, the expressions below it and the
  values of its functions.  Such a root has the same shape as before, the
  same code, and its functions capture the same values.

  Main results:
    * `Intact.occurs_iff` — the same stands below the root;
    * `Intact.wellShaped` — and it is as well placed as before;
    * `Intact.captured_iff` — the same is captured.
-/
import Mathlib
import LambdaLift.Proofs.Agreement
import LambdaLift.Proofs.Nesting

namespace LambdaLift

variable {d : DeclId} {ds : List DeclId} {e : ExprId} {v : ValueId} {place : Place}

/-! ## §1. Below and nested. -/

section

variable {p : Program} {root : DeclId} {place : Place}

theorem Occurs.nests (h : Occurs p root ds place) : p.Nests root place := by
  induction h with
  | part hroot hplace => exact .single ⟨_, Program.label?_eq_decl.2 ⟨rfl, hroot⟩, hplace⟩
  | inner _ hlabel hplace ih => exact ih.tail ⟨_, hlabel, hplace⟩

theorem Program.Nests.exists_scopes (h : p.Nests root place) : ∃ ds, Occurs p root ds place := by
  induction h with
  | single hinner =>
    obtain ⟨label, hlabel, hplace⟩ := hinner
    obtain ⟨content, hroot, rfl⟩ := Option.map_eq_some_iff.1 hlabel
    exact ⟨[], .part hroot hplace⟩
  | tail _ hinner ih =>
    obtain ⟨label, hlabel, hplace⟩ := hinner
    obtain ⟨ds, hocc⟩ := ih
    exact ⟨_, .inner hocc hlabel hplace⟩

end

/-! ## §2. The same root. -/

namespace Program

/-- A root is as it was: all declarations are there, the expressions below the root, and the values
of its functions. -/
structure Intact (P p : Program) (root : DeclId) : Prop where
  decls : P.decls.Keeps p.decls
  exprs : ∀ {ds e node}, Occurs P root ds (.expr e) → P.exprs.get? e = some node →
    p.exprs.get? e = some node
  values : ∀ {v value}, P.values.get? v = some value → P.FunctionOf root value.owner →
    p.values.get? v = some value
  valueCount : P.values.size ≤ p.values.size

theorem Intact.refl (P : Program) (root : DeclId) : P.Intact P root :=
  ⟨.refl _, fun _ => id, fun h _ => h, le_rfl⟩

namespace Intact

variable {P p : Program} {root : DeclId} (hi : P.Intact p root) (h : P.Nest root)
include hi h

theorem agreesIn : P.AgreesIn p root where
  decls := hi.decls
  exprs hnests hnode := by
    obtain ⟨ds, hocc⟩ := hnests.exists_scopes
    exact hi.exprs hocc hnode
  values := by
    rintro v value ⟨e, node, hnests, hnode, hused⟩ hvalue
    obtain ⟨ds, hocc⟩ := hnests.exists_scopes
    obtain ⟨o, ho, hintroduces⟩ := h.introduced_of_used hocc hnode hused
    have hfunction := h.functionOf_of_mem hocc ho
    obtain ⟨value', hvalue', rfl⟩ := h.owns_of_introduces hfunction hintroduces
    cases hvalue.symm.trans hvalue'
    exact hi.values hvalue hfunction
  valueCount := hi.valueCount

/-- **The same stands below the root.** -/
theorem occurs_iff : Occurs p root ds place ↔ Occurs P root ds place := by
  have hlabels : ∀ {ds place label}, Occurs P root ds place → P.label? place = some label →
      p.label? place = some label := fun hocc => (hi.agreesIn h).label hocc.nests
  constructor
  · intro hocc
    induction hocc with
    | part hroot hplace =>
      obtain ⟨f, hf, -⟩ := h.outermost
      cases hroot.symm.trans (hi.decls _ _ hf)
      exact .part hf hplace
    | inner _ hlabel hplace ih =>
      obtain ⟨label, hlabel'⟩ := h.shaped.exists_label ih
      obtain rfl := Option.some.inj (hlabel.symm.trans (hlabels ih hlabel'))
      exact .inner ih hlabel' hplace
  · intro hocc
    induction hocc with
    | part hroot hplace => exact .part (hi.decls _ _ hroot) hplace
    | inner hocc hlabel hplace ih => exact .inner ih (hlabels hocc hlabel) hplace

theorem expr_iff {node : Expr} (hocc : Occurs P root ds (.expr e)) :
    p.exprs.get? e = some node ↔ P.exprs.get? e = some node := by
  refine ⟨fun hnode => ?_, hi.exprs hocc⟩
  obtain ⟨label, hlabel⟩ := h.shaped.exists_label hocc
  obtain ⟨node', hnode', -⟩ := Option.map_eq_some_iff.1 hlabel
  cases hnode.symm.trans (hi.exprs hocc hnode')
  exact hnode'

theorem placed_iff : p.Placed root d ↔ P.Placed root d := by
  constructor
  · rintro ⟨ds, e, hocc, he⟩
    have hocc := (hi.occurs_iff h).1 hocc
    exact ⟨ds, e, hocc, (hi.expr_iff h hocc).1 he⟩
  · rintro ⟨ds, e, hocc, he⟩
    exact ⟨ds, e, (hi.occurs_iff h).2 hocc, hi.exprs hocc he⟩

/-- The code of a function is the same. -/
theorem codeOf_iff (hd : P.FunctionOf root d) : CodeOf p d e ↔ CodeOf P d e := by
  obtain ⟨ds, howner, -⟩ := h.exists_scopes hd
  obtain ⟨f, hf, -⟩ := h.exists_function hd
  constructor
  · intro he
    induction he with
    | code ho hcode =>
      cases ho.symm.trans (hi.decls _ _ hf)
      exact .code hf hcode
    | operand _ hnode hx ih => exact .operand ih ((hi.expr_iff h (howner.occurs ih)).1 hnode) hx
  · intro he
    induction he with
    | code ho hcode => exact .code (hi.decls _ _ ho) hcode
    | operand he hnode hx ih => exact .operand ih (hi.exprs (howner.occurs he) hnode) hx

omit h in
theorem valueIs {kind : ValueKind} (hd : P.FunctionOf root d) (hv : P.ValueIs v d kind) :
    p.ValueIs v d kind := by
  obtain ⟨value, hvalue, rfl, hkind⟩ := hv
  exact ⟨value, hi.values hvalue hd, rfl, hkind⟩

omit h in
theorem owns (hd : P.FunctionOf root d) (hv : P.Owns d v) : p.Owns d v := by
  obtain ⟨value, hvalue, rfl⟩ := hv
  exact ⟨value, hi.values hvalue hd, rfl⟩

/-! ## §3. The same shape, and the same captures. -/

theorem unfold_eq : p.unfold .nested (.decl root) = P.unfold .nested (.decl root) := by
  refine unfold_of_reads
    ((reads_unfoldUpTo h.shaped.complete).transfer fun {place label} hplace hlabel => ?_)
  rcases Relation.reflTransGen_iff_eq_or_transGen.1 hplace with rfl | hnests
  · obtain ⟨content, hroot, rfl⟩ := Option.map_eq_some_iff.1 hlabel
    exact label?_eq_decl.2 ⟨rfl, hi.decls _ _ hroot⟩
  · exact (hi.agreesIn h).label hnests hlabel

theorem occurrencesBelow_eq : p.occurrencesBelow root = P.occurrencesBelow root := by
  unfold occurrencesBelow below
  rw [hi.unfold_eq h]

theorem enclosing_eq (hocc : Occurs P root ds place) :
    p.enclosing root ds = P.enclosing root ds := by
  unfold enclosing
  rw [List.find?_congr fun d hd => ?_]
  obtain ⟨f, hf, -⟩ := h.exists_function (.inr (h.placed_of_mem hocc hd))
  rw [hf, hi.decls _ _ hf]

/-- What stands below the root is as well placed as before. -/
theorem wellPlaced {label : Label} (hocc : Occurs P root ds place)
    (hlabel : P.label? place = some label) : p.WellPlaced root ds label := by
  have hplaced := h.shaped.wellPlaced hocc hlabel
  obtain ⟨e, node, rfl, hnode, hscoped⟩ | ⟨d, f, rfl, hf⟩ := h.place_cases hocc
  · obtain rfl := Option.some.inj (hlabel.symm.trans (label?_eq_expr.2 ⟨rfl, hnode⟩))
    cases node with
    | decl d =>
      obtain ⟨content, hd, hin⟩ := hplaced
      refine ⟨content, hi.decls _ _ hd, ?_⟩
      rw [hi.enclosing_eq h hocc]
      exact hin
    | classRef k => exact hscoped.elim
    | _ => exact trivial
  · obtain rfl := Option.some.inj (hlabel.symm.trans (label?_eq_decl.2 ⟨rfl, hf⟩))
    have hd : P.FunctionOf root d := .inr (h.placed_of_entry hocc rfl)
    exact ⟨fun x hx => hi.valueIs hd (hplaced.1 x hx), fun v hv => hi.valueIs hd (hplaced.2 v hv)⟩

/-- **The root is still well-shaped**, if handles still lead somewhere and chains of parents end. -/
theorem wellShaped (hclosed : p.Closed) (hchains : p.ChainsEnd) : p.WellShaped root where
  closed := hclosed
  chains := hchains
  callable := by
    obtain ⟨f, hf, -⟩ := h.outermost
    exact ⟨_, hi.decls _ _ hf, rfl⟩
  complete := by
    rw [hi.unfold_eq h]
    exact h.shaped.complete
  once := by
    rw [hi.occurrencesBelow_eq h]
    exact h.shaped.once
  placed := by
    rintro ⟨ds, label⟩ hmem
    rw [hi.occurrencesBelow_eq h] at hmem
    obtain ⟨place, hocc, hlabel⟩ := h.shaped.mem_iff.2 hmem
    exact hi.wellPlaced h hocc hlabel

/-- **The same is captured**: closure analysis answers alike, and with what is captured. -/
theorem captured_iff (hclosed : p.Closed) (hchains : p.ChainsEnd) :
    Captured p root d v ↔ Captured P root d v := by
  obtain ⟨f, hf, -⟩ := h.outermost
  obtain ⟨cl, events, hcl, -, hholds⟩ := h.shaped.closures h.shaped.isLocal_of_opens
  have hshaped := hi.wellShaped h hclosed hchains
  obtain ⟨cl', events', hcl', -, hholds'⟩ := hshaped.closures hshaped.isLocal_of_opens
  have halike :=
    closures_alike h.shaped.closed h.shaped.chains hf (acyclicAt_of_complete h.shaped.complete)
    (hi.agreesIn h)
  obtain ⟨rfl, -⟩ := Prod.mk.inj (Except.ok.inj (hcl.symm.trans (halike.eq.trans hcl')))
  rw [← hholds', ← hholds]

end Intact

end Program

end LambdaLift
