/-
  LambdaLift.Proofs.Codes
  **EVERY EXPRESSION BELOW A ROOT BELONGS TO ONE PIECE OF CODE.**

  The code of a declaration is its body or its initializer, without the
  declarations placed in it.  Below a well-shaped root the pieces of code do
  not overlap, and together they are all expressions there.

  Main results:
    * `Occurs.exists_owner`, `OwnerAt.occurs` — the expressions below a root
      are those of its pieces of code;
    * `WellShaped.owner_unique` — an expression belongs to one of them.
-/
import Mathlib
import LambdaLift.Proofs.Placement

namespace LambdaLift

variable {p : Program} {o o' : DeclId} {ds ds' : List DeclId} {e x : ExprId} {content : Declaration}
  {node : Expr} {ts : List Tree} {place : Place} {t : Tree}

/-! ## §1. Pieces of code. -/

/-- An expression of the body or the initializer of a declaration. -/
inductive CodeOf (p : Program) (o : DeclId) : ExprId → Prop
  | code {content : Declaration} {e : ExprId} : p.decls.get? o = some content →
      content.code = some e → CodeOf p o e
  | operand {e x : ExprId} {node : Expr} : CodeOf p o e →
      p.exprs.get? e = some node → x ∈ node.operands →
      CodeOf p o x

theorem CodeOf.exists_code (h : CodeOf p o e) :
    ∃ content x, p.decls.get? o = some content ∧ content.code = some x := by
  induction h with
  | code ho hcode => exact ⟨_, _, ho, hcode⟩
  | operand _ _ _ ih => exact ih

/-- A declaration whose code stands under these scopes: the root, or one below it. -/
inductive OwnerAt (p : Program) (root : DeclId) : List DeclId → DeclId → Prop
  | root : OwnerAt p root [] root
  | below {ds : List DeclId} {place : Place} {label : Label} {o : DeclId} : Occurs p root ds place →
      p.label? place = some label → label.entry = .inr o → OwnerAt p root (label.scopes ds) o

/-- The expression among the parts of a declaration is its code. -/
theorem Declaration.mem_parts_expr : .expr e ∈ content.parts ↔ content.code = some e := by
  cases content <;> simp [Declaration.parts, Declaration.code]

/-- The expressions nested in a node are its operands. -/
theorem Label.mem_places_expr {reach : Reach} :
    .expr x ∈ (Label.expr e node).places reach ↔ x ∈ node.operands := by
  cases node <;> simp [Label.places, Expr.operands]

theorem Label.scopes_expr (e : ExprId) (node : Expr) (ds : List DeclId) :
    (Label.expr e node).scopes ds = ds := rfl

section

variable {p : Program} {root : DeclId}

/-- What stands in an entry of a declaration is one of its parts. -/
theorem Program.places_of_entry {label : Label} (hlabel : p.label? place = some label)
    (hentry : label.entry = .inr o) : ∃ content, p.decls.get? o = some content
      ∧ ∀ reach, label.places reach = content.parts := by
  cases label with
  | expr e node => cases hentry
  | decl d content =>
    cases hentry
    exact ⟨content, (label?_eq_decl.1 hlabel).2, fun _ => rfl⟩
  | backing d content =>
    cases hentry
    exact ⟨content, (label?_eq_backing.1 hlabel).2, fun _ => rfl⟩

/-- Code stands below the root, under the scopes of its owner. -/
theorem OwnerAt.occurs (h : OwnerAt p root ds o) (he : CodeOf p o e) :
    Occurs p root ds (.expr e) := by
  induction he with
  | code ho hcode =>
    have hpart := Declaration.mem_parts_expr.2 hcode
    cases h with
    | root => exact .part ho hpart
    | below hocc hlabel hentry =>
      obtain ⟨content', ho', hplaces⟩ := Program.places_of_entry hlabel hentry
      obtain rfl := Option.mem_unique ho ho'
      exact .inner hocc hlabel (hplaces .nested ▸ hpart)
  | operand _ hnode hx ih =>
    exact Label.scopes_expr _ _ ds ▸ .inner ih (Program.label?_eq_expr.2 ⟨rfl, hnode⟩)
      (Label.mem_places_expr.2 hx)

/-- **Every expression below a root belongs to the code of a declaration there, or of the root.** -/
theorem Occurs.exists_owner (h : Occurs p root ds (.expr e)) :
    ∃ o, OwnerAt p root ds o ∧ CodeOf p o e := by
  generalize hplace : Place.expr e = place at h
  induction h generalizing e with
  | part hroot hpart =>
    subst hplace
    exact ⟨root, .root, .code hroot (Declaration.mem_parts_expr.1 hpart)⟩
  | @inner ds outer place label hocc hlabel hpart ih =>
    subst hplace
    cases hentry : label.entry with
    | inl e' =>
      cases label with
      | expr e'' node =>
        obtain ⟨rfl, hnode⟩ := Program.label?_eq_expr.1 hlabel
        obtain ⟨o, howner, hcode⟩ := ih rfl
        exact ⟨o, howner, .operand hcode hnode (Label.mem_places_expr.1 hpart)⟩
      | _ => cases hentry
    | inr o =>
      obtain ⟨content, ho, hplaces⟩ := Program.places_of_entry hlabel hentry
      rw [hplaces] at hpart
      exact ⟨o, .below hocc hlabel hentry, .code ho (Declaration.mem_parts_expr.1 hpart)⟩

end

/-! ## §2. One owner for each expression. -/

namespace Program.WellShaped

variable {p : Program} {root : DeclId} (h : p.WellShaped root)
include h

/-- The code of a declaration is an operand of nothing. -/
theorem code_not_operand {e' : ExprId} (howner : OwnerAt p root ds o)
    (ho : p.decls.get? o = some content) (hcode : content.code = some e)
    (hocc : Occurs p root ds' (.expr e')) (he' : p.exprs.get? e' = some node) :
    e ∉ node.operands := by
  intro hmem
  have hlabel' := label?_eq_expr.2 ⟨rfl, he'⟩
  have hplace' : Place.expr e ∈ (Label.expr e' node).places .nested := Label.mem_places_expr.2 hmem
  have hpart := Declaration.mem_parts_expr.2 hcode
  cases howner with
  | root => exact h.part_not_nested ho hpart hocc hlabel' hplace' rfl
  | below hocc₀ hlabel hentry =>
    obtain ⟨content', ho', hplaces⟩ := places_of_entry hlabel hentry
    obtain rfl := Option.mem_unique ho ho'
    rw [h.unique_outer hocc₀ hlabel (hplaces .nested ▸ hpart) hocc hlabel' hplace' rfl] at hentry
    cases hentry

/-- The code of a declaration is not that of another. -/
theorem code_unique {content' : Declaration} (howner : OwnerAt p root ds o)
    (ho : p.decls.get? o = some content) (hcode : content.code = some e)
    (howner' : OwnerAt p root ds' o') (ho' : p.decls.get? o' = some content')
    (hcode' : content'.code = some e) : o = o' := by
  have hpart := Declaration.mem_parts_expr.2 hcode
  have hpart' := Declaration.mem_parts_expr.2 hcode'
  cases howner with
  | root =>
    cases howner' with
    | root => rfl
    | below hocc hlabel hentry =>
      obtain ⟨c, hc, hplaces⟩ := places_of_entry hlabel hentry
      obtain rfl := Option.mem_unique ho' hc
      exact (h.part_not_nested ho hpart hocc hlabel (hplaces .nested ▸ hpart') rfl).elim
  | below hocc hlabel hentry =>
    obtain ⟨c, hc, hplaces⟩ := places_of_entry hlabel hentry
    obtain rfl := Option.mem_unique ho hc
    cases howner' with
    | root => exact (h.part_not_nested ho' hpart' hocc hlabel (hplaces .nested ▸ hpart) rfl).elim
    | below hocc' hlabel' hentry' =>
      obtain ⟨c', hc', hplaces'⟩ := places_of_entry hlabel' hentry'
      obtain rfl := Option.mem_unique ho' hc'
      have heq := h.unique_outer hocc hlabel (hplaces .nested ▸ hpart) hocc' hlabel'
        (hplaces' .nested ▸ hpart') rfl
      rw [heq, hentry'] at hentry
      exact (Sum.inr.inj hentry).symm

/-- **An expression belongs to the code of one declaration.** -/
theorem owner_unique (howner : OwnerAt p root ds o) (howner' : OwnerAt p root ds' o')
    (he : CodeOf p o e) (he' : CodeOf p o' e) : o = o' := by
  induction he with
  | code ho hcode =>
    cases he' with
    | code ho' hcode' => exact h.code_unique howner ho hcode howner' ho' hcode'
    | operand hin hnode hx =>
      exact (h.code_not_operand howner ho hcode (howner'.occurs hin) hnode hx).elim
  | @operand e₁ x node hin hnode hx ih =>
    cases he' with
    | code ho' hcode' =>
      exact (h.code_not_operand howner' ho' hcode' (howner.occurs hin) hnode hx).elim
    | @operand e₂ _ node' hin' hnode' hx' =>
      have heq := h.unique_outer (howner.occurs hin) (label?_eq_expr.2 ⟨rfl, hnode⟩)
        (Label.mem_places_expr.2 hx)
        (howner'.occurs hin') (label?_eq_expr.2 ⟨rfl, hnode'⟩) (Label.mem_places_expr.2 hx') rfl
      cases heq
      exact ih hin'

end Program.WellShaped

end LambdaLift
