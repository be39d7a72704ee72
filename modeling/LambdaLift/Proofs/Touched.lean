/-
  LambdaLift.Proofs.Touched
  **RETARGETING REWRITES ONLY WHAT IS REACHED.**

  Nothing is assumed of the program here.  Whether retargeting succeeds or
  faults half-way, it has rewritten only expressions that are reached from
  the root and expressions it added itself, it has moved only owners of
  variables that are bound there, and it has filled only declarations that
  were added before (`Touched`).

  Where it succeeds, more is known: what it went through no longer places
  a declaration, and the nodes it added can be ranked so that operands
  rank below the node they belong to (`Tidy`).  So nothing becomes nested
  in itself.  What is bound there belongs to no declaration that has a
  replacement (`Reowned`).

  Main results:
    * `Retarget.node_leaves` — one node;
    * `Retarget.exprUpTo_leaves` — one expression with everything below it.
-/
import Mathlib
import LambdaLift.Retarget
import LambdaLift.Proofs.Raised

namespace LambdaLift

variable {p' : Program} {owner : DeclId} {e : ExprId} {v : ValueId} {content content' : Declaration}
  {a b node old : Expr} {c k k' m : Nat} {value : Value}

/-! ## §1. What may be rewritten. -/

/-- What retargeting makes of a node: operands are kept, dropped or added, and nothing is placed. -/
structure Thins (m k : Nat) (old new : Expr) : Prop where
  operands : ∀ x ∈ new.operands, x ∈ old.operands ∨ m ≤ x.index ∧ x.index < k
  bound : new.bound? = old.bound?
  placed : ∀ d, new ≠ .decl d

theorem Thins.mono (h : Thins m k a b) (hk : k ≤ k') : Thins m k' a b where
  operands x hx := (h.operands x hx).imp id fun hx => ⟨hx.1, hx.2.trans_le hk⟩
  bound := h.bound
  placed := h.placed

theorem Thins.trans {c : Expr} (h : Thins m k a b) (h' : Thins m k b c) : Thins m k a c where
  operands x hx := (h'.operands x hx).elim (h.operands x) .inr
  bound := h'.bound.trans h.bound
  placed := h'.placed

/-- What filling makes of a declaration: a field gets an initializer that was added, a class its
members. -/
inductive Refills (m k : Nat) : Declaration → Declaration → Prop
  | same (content : Declaration) : Refills m k content content
  | init {f : FieldDecl} {e : ExprId} (hlow : m ≤ e.index) (hhigh : e.index < k) :
    Refills m k (.field f) (.field { f with init := some e })
  | members {c : ClassDecl} (ms : List DeclId) :
      Refills m k (.cls c) (.cls { c with members := ms })

theorem Refills.trans {a b c : Declaration} (h : Refills m k a b)
    (h' : Refills m k' b c) (hk : k ≤ k') : Refills m k' a c := by
  cases h with
  | same => exact h'
  | init hlow hhigh =>
    cases h' with
    | same => exact .init hlow (hhigh.trans_le hk)
    | init hlow' hhigh' => exact .init hlow' hhigh'
  | members ms =>
    cases h' with
    | same => exact .members ms
    | members ms' => exact .members ms'

theorem Refills.parent (h : Refills m k content content') : content'.parent = content.parent := by
  cases h <;> rfl

/-- A reached node brings the value into scope. -/
def Program.Binds (q : Program) (B : ExprId → Prop) (v : ValueId) : Prop :=
  ∃ e node, B e ∧ q.exprs.get? e = some node ∧ node.bound? = some v

/-- Only the expressions in `B`, the owners of what they bind and the declarations from `n` on were
touched; the expressions that were added have no operands but each other. -/
structure Touched (q : Program) (n : Nat) (B : ExprId → Prop) (r : Relocation)
    (p : Program) : Prop where
  top : p.top = q.top
  declCount : p.decls.size = q.decls.size
  decls : ∀ d, d.index < n → p.decls.get? d = q.decls.get? d
  refills : ∀ {d content}, q.decls.get? d = some content →
    ∃ content', p.decls.get? d = some content' ∧ Refills q.exprs.size p.exprs.size content content'
  valueCount : p.values.size = q.values.size
  values : ∀ {v value}, q.values.get? v = some value → p.values.get? v = some value
    ∨ ∃ owner, q.Binds B v ∧ r.get? value.owner = some owner
    ∧ p.values.get? v = some { value with owner }
  grown : q.exprs.size ≤ p.exprs.size
  exprs : ∀ {e node}, q.exprs.get? e = some node → p.exprs.get? e = some node
    ∨ B e ∧ ∃ node', p.exprs.get? e = some node' ∧ Thins q.exprs.size p.exprs.size node node'
  fresh : ∀ {e node}, q.exprs.size ≤ e.index → p.exprs.get? e = some node →
    node.bound? = none ∧ ∀ x ∈ node.operands, q.exprs.size ≤ x.index

namespace Touched

variable {q p : Program} {n : Nat} {B : ExprId → Prop} {r : Relocation}

theorem refl (q : Program) (n : Nat) (B : ExprId → Prop) (r : Relocation) : Touched q n B r q where
  top := rfl
  declCount := rfl
  decls _ _ := rfl
  refills h := ⟨_, h, .same _⟩
  valueCount := rfl
  values := .inl
  grown := le_rfl
  exprs := .inl
  fresh hlow he := absurd (Arena.lt_size_of_get? he) (Nat.not_lt.2 hlow)

theorem allocExpr (h : Touched q n B r p) (hbound : node.bound? = none)
    (hoperands : ∀ x ∈ node.operands, q.exprs.size ≤ x.index) :
    Touched q n B r (p.allocExpr node).2 := by
  have hsize := p.size_allocExpr node
  refine ⟨h.top, h.declCount, h.decls, fun hd => ?_, h.valueCount, h.values,
    by rw [hsize]; exact h.grown.trans (Nat.le_succ _), fun he => ?_, fun {e node'} hlow he => ?_⟩
  · obtain ⟨content', hd', hrefills⟩ := h.refills hd
    exact ⟨content', hd', hrefills.trans (.same _) (by rw [hsize]; exact Nat.le_succ _)⟩
  · rcases h.exprs he with he' | ⟨hB, node', he', hthins⟩
    · exact .inl (Arena.get?_alloc_of_some _ he')
    · exact .inr ⟨hB, node', Arena.get?_alloc_of_some _ he',
        hthins.mono (by rw [hsize]; exact Nat.le_succ _)⟩
  · by_cases heq : e = p.exprs.next
    · subst heq
      obtain rfl : node = node' := Option.some.inj ((Arena.get?_alloc_next _ _).symm.trans he)
      exact ⟨hbound, hoperands⟩
    · have he' : p.exprs.get? e = some node' := by
        rw [← he]
        show _ = (p.exprs.alloc node).2.get? e
        rw [Arena.get?_alloc, if_neg heq]
      exact h.fresh hlow he'

theorem setValue (h : Touched q n B r p) (hr : ∀ d x, r.get? d = some x → r.get? x = none)
    (hbinds : q.Binds B v) (hv : p.values.get? v = some value)
    (howner : r.get? value.owner = some owner) :
    Touched q n B r (p.setValue v { value with owner }) := by
  refine ⟨h.top, h.declCount, h.decls, h.refills, ?_, fun {v' value'} hv' => ?_,
    h.grown, h.exprs, h.fresh⟩
  · exact (Arena.size_set _ _ _).trans h.valueCount
  · show (p.values.set v { value with owner }).get? v' = some value' ∨ ∃ owner', q.Binds B v'
        ∧ r.get? value'.owner = some owner'
        ∧ (p.values.set v { value with owner }).get? v' = some { value' with owner := owner' }
    rw [Arena.get?_set]
    by_cases heq : v' = v
    · subst heq
      rw [if_pos ⟨rfl, Arena.lt_size_of_get? hv⟩]
      rcases h.values hv' with hsame | ⟨owner', -, howner', hmoved⟩
      · obtain rfl : value = value' := Option.mem_unique hv hsame
        exact .inr ⟨owner, hbinds, howner, rfl⟩
      · -- a value that has moved belongs to a replacement, which moves no further
        obtain rfl : value = { value' with owner := owner' } := Option.mem_unique hv hmoved
        rw [hr _ _ howner'] at howner
        cases howner
    · rw [if_neg fun hcond => heq hcond.1]
      exact h.values hv'

theorem setDecl (h : Touched q n B r p) {x : DeclId} (hlow : n ≤ x.index)
    (hx : p.decls.get? x = some content)
    (hrefills : Refills q.exprs.size p.exprs.size content content') :
    Touched q n B r (p.setDecl x content') := by
  have hget : ∀ y, (p.setDecl x content').decls.get? y = if y = x then some content'
      else p.decls.get? y := by
    intro y
    show (p.decls.set x content').get? y = _
    rw [Arena.get?_set]
    have := Arena.lt_size_of_get? hx
    by_cases hy : y = x <;> simp [hy, this]
  refine ⟨h.top, (p.size_setDecl x content').trans h.declCount, fun d hd => ?_, fun {d c} hd => ?_,
    h.valueCount, h.values, h.grown, h.exprs, h.fresh⟩
  · rw [hget, if_neg (by rintro rfl; omega)]
    exact h.decls d hd
  · obtain ⟨c', hc', hrefills'⟩ := h.refills hd
    rw [hget]
    split
    next heq =>
      subst heq
      obtain rfl : c' = content := Option.mem_unique hc' hx
      exact ⟨content', rfl, hrefills'.trans hrefills le_rfl⟩
    next => exact ⟨c', hc', hrefills'⟩

/-- An expression that retargeting may go through. -/
def Open (q : Program) (B : ExprId → Prop) (e : ExprId) : Prop := B e ∨ q.exprs.size ≤ e.index

variable (hB : ∀ {e node}, q.exprs.get? e = some node → B e → ∀ x ∈ node.operands, B x)

include hB in
/-- The operands of an open expression are open. -/
theorem open_operands (h : Touched q n B r p) (he : Open q B e) (hold : p.exprs.get? e = some old) :
    ∀ x ∈ old.operands, Open q B x := by
  intro x hx
  by_cases hlow : q.exprs.size ≤ e.index
  · exact .inr ((h.fresh hlow hold).2 x hx)
  · have hBe : B e := he.resolve_right hlow
    obtain ⟨node, hnode⟩ := Arena.exists_get?_of_lt (Nat.lt_of_not_le hlow)
    rcases h.exprs hnode with hsame | ⟨-, node', hnode', hthins⟩
    · obtain rfl : node = old := Option.mem_unique hsame hold
      exact .inl (hB hnode hBe x hx)
    · obtain rfl : node' = old := Option.mem_unique hnode' hold
      exact (hthins.operands x hx).imp (hB hnode hBe x) And.left

/-- What an open expression binds is bound by a reached node. -/
theorem binds_of_bound (h : Touched q n B r p) (he : Open q B e) (hold : p.exprs.get? e = some old)
    (hv : old.bound? = some v) : q.Binds B v := by
  by_cases hlow : q.exprs.size ≤ e.index
  · rw [(h.fresh hlow hold).1] at hv
    cases hv
  · obtain ⟨node, hnode⟩ := Arena.exists_get?_of_lt (Nat.lt_of_not_le hlow)
    refine ⟨e, node, he.resolve_right hlow, hnode, ?_⟩
    rcases h.exprs hnode with hsame | ⟨-, node', hnode', hthins⟩
    · obtain rfl : node = old := Option.mem_unique hsame hold
      exact hv
    · obtain rfl : node' = old := Option.mem_unique hnode' hold
      rw [← hthins.bound]
      exact hv

/-- Writing back what retargeting made of the node that an open expression had at some time. -/
theorem setExpr (h : Touched q n B r p) {new : Expr} (he : Open q B e)
    (hold : p.exprs.get? e = some old) (h' : Touched q n B r p')
    (hgrown : p.exprs.size ≤ p'.exprs.size) (hthins : Thins q.exprs.size p'.exprs.size old new) :
    Touched q n B r (p'.setExpr e new) := by
  have hsize : (p'.setExpr e new).exprs.size = p'.exprs.size := Arena.size_set _ _ _
  have hget : ∀ x, (p'.setExpr e new).exprs.get? x = if x = e ∧ e.index < p'.exprs.size
      then some new else p'.exprs.get? x :=
    fun x => Arena.get?_set _ _ _ _
  refine ⟨h'.top, h'.declCount, h'.decls, fun hd => by rw [hsize]; exact h'.refills hd,
    h'.valueCount, h'.values, by rw [hsize]; exact h'.grown, fun {x node} hx => ?_,
    fun {x node} hlow hx => ?_⟩
  · rw [hget, hsize]
    split
    next hcond =>
      obtain ⟨rfl, -⟩ := hcond
      have hlow : ¬ q.exprs.size ≤ x.index := Nat.not_le.2 (Arena.lt_size_of_get? hx)
      refine .inr ⟨he.resolve_right hlow, new, rfl, ?_⟩
      rcases h.exprs hx with hsame | ⟨-, node', hnode', hthins'⟩
      · obtain rfl : node = old := Option.mem_unique hsame hold
        exact hthins
      · obtain rfl : node' = old := Option.mem_unique hnode' hold
        exact (hthins'.mono hgrown).trans hthins
    next => exact h'.exprs hx
  · rw [hget] at hx
    split at hx
    next hcond =>
      obtain ⟨rfl, -⟩ := hcond
      cases hx
      obtain ⟨hbound, hoperands⟩ := h.fresh hlow hold
      exact ⟨hthins.bound.trans hbound,
        fun y hy => (hthins.operands y hy).elim (hoperands y) And.left⟩
    next => exact h'.fresh hlow hx

end Touched

/-! ## §2. What is rewritten is tidy. -/

/-- The expression has been gone through, or was added. -/
def Clean (m : Nat) (S : Set ExprId) (p : Program) (e : ExprId) : Prop :=
  e ∈ S ∨ m ≤ e.index ∧ e.index < p.exprs.size

/-- What has been gone through places no declaration and has nothing else below it; and the
expressions that were added are ranked, operands below the node they belong to. -/
structure Tidy (m : Nat) (S : Set ExprId) (rank : ExprId → Nat) (p : Program) : Prop where
  swept : ∀ {e}, e ∈ S → ∃ node, p.exprs.get? e = some node ∧ (∀ d, node ≠ .decl d)
    ∧ ∀ x ∈ node.operands, Clean m S p x
  ranked : ∀ {e node}, m ≤ e.index → p.exprs.get? e = some node →
    rank e + m < p.exprs.size ∧ (∀ d, node ≠ .decl d)
    ∧ ∀ x ∈ node.operands, m ≤ x.index ∧ x.index < p.exprs.size ∧ rank x < rank e

/-- Expressions were added, ranked below all that were there. -/
structure Appends (rank : ExprId → Nat) (p : Program) (rank' : ExprId → Nat)
    (p' : Program) : Prop where
  decls : p'.decls = p.decls
  exprs : p.exprs.Keeps p'.exprs
  order : ∀ {x e : ExprId}, x.index < p.exprs.size → e.index < p.exprs.size →
    rank x < rank e → rank' x < rank' e
  below : ∀ {x e : ExprId}, p.exprs.size ≤ x.index → x.index < p'.exprs.size →
    e.index < p.exprs.size → rank' x < rank' e

namespace Appends

variable {rank rank' rank'' : ExprId → Nat} {p p' p'' : Program}

theorem refl (rank : ExprId → Nat) (p : Program) : Appends rank p rank p :=
  ⟨rfl, .refl _, fun _ _ h => h, fun hlow hhigh => absurd hhigh (Nat.not_lt.2 hlow)⟩

theorem trans (h : Appends rank p rank' p') (h' : Appends rank' p' rank'' p'') :
    Appends rank p rank'' p'' where
  decls := h'.decls.trans h.decls
  exprs := h.exprs.trans h'.exprs
  order hx he hlt :=
    h'.order (hx.trans_le h.exprs.size_le) (he.trans_le h.exprs.size_le) (h.order hx he hlt)
  below {x e} hlow hhigh he := by
    by_cases hx : x.index < p'.exprs.size
    · exact h'.order hx (he.trans_le h.exprs.size_le) (h.below hlow hx he)
    · exact h'.below (Nat.le_of_not_lt hx) hhigh (he.trans_le h.exprs.size_le)

end Appends

namespace Tidy

variable {m : Nat} {S : Set ExprId} {rank : ExprId → Nat} {p : Program}

theorem clean_mono {S' : Set ExprId} (h : Clean m S p e) (hS : S ⊆ S')
    (hsize : p.exprs.size ≤ p'.exprs.size) : Clean m S' p' e :=
  h.imp (fun he => hS he) fun he => ⟨he.1, he.2.trans_le hsize⟩

/-- Tidiness is a matter of expressions alone. -/
theorem congr (h : Tidy m S rank p) (hexprs : p'.exprs = p.exprs) : Tidy m S rank p' := by
  refine ⟨fun {e} he => ?_, fun {e node} hlow he => ?_⟩
  · obtain ⟨node, hnode, hplaced, hoperands⟩ := h.swept he
    exact ⟨node, by rw [hexprs]; exact hnode, hplaced,
      fun x hx => clean_mono (hoperands x hx) (le_refl S) (by rw [hexprs])⟩
  · rw [hexprs] at he ⊢
    exact h.ranked hlow he

/-- An expression is added whose operands were added before it, all of them ranked below `c`. -/
theorem allocExpr (h : Tidy m S rank p) (c : Nat) (hplaced : ∀ d, node ≠ .decl d)
    (hc : c + m ≤ p.exprs.size)
    (hoperands : ∀ x ∈ node.operands, m ≤ x.index ∧ x.index < p.exprs.size ∧ rank x < c) :
    Tidy m S (fun e => if e = p.exprs.next then c else if rank e < c then rank e else rank e + 1)
      (p.allocExpr node).2 := by
  have hsize := p.size_allocExpr node
  have hne : ∀ {e : ExprId}, e.index < p.exprs.size → e ≠ p.exprs.next := by
    rintro e he rfl
    exact absurd he (Nat.lt_irrefl _)
  refine ⟨fun {e} he => ?_, fun {e node'} hlow he => ?_⟩
  · obtain ⟨node', hnode', hplaced', hoperands'⟩ := h.swept he
    refine ⟨node', Arena.get?_alloc_of_some _ hnode', hplaced',
      fun x hx => clean_mono (hoperands' x hx) (le_refl S) ?_⟩
    rw [hsize]
    exact Nat.le_succ _
  · rw [hsize]
    by_cases heq : e = p.exprs.next
    · subst heq
      obtain rfl : node = node' := Option.some.inj ((Arena.get?_alloc_next _ _).symm.trans he)
      rw [if_pos rfl]
      refine ⟨by omega, hplaced, fun x hx => ?_⟩
      obtain ⟨hlow', hhigh, hrank⟩ := hoperands x hx
      rw [if_neg (hne hhigh), if_pos hrank]
      exact ⟨hlow', by omega, hrank⟩
    · have he' : p.exprs.get? e = some node' := by
        rw [← he]
        show _ = (p.exprs.alloc node).2.get? e
        rw [Arena.get?_alloc, if_neg heq]
      obtain ⟨hrank, hplaced', hoperands'⟩ := h.ranked hlow he'
      rw [if_neg heq]
      refine ⟨by split <;> omega, hplaced', fun x hx => ?_⟩
      obtain ⟨hlow', hhigh, hlt⟩ := hoperands' x hx
      rw [if_neg (hne hhigh)]
      exact ⟨hlow', by omega, by split <;> split <;> omega⟩

/-- Writing back a node whose operands are clean. -/
theorem setExpr (h : Tidy m S rank p) (he : e.index < p.exprs.size) (hplaced : ∀ d, node ≠ .decl d)
    (hoperands : ∀ x ∈ node.operands, Clean m S p x)
    (hranked : m ≤ e.index → ∀ x ∈ node.operands, m ≤ x.index ∧ x.index < p.exprs.size
      ∧ rank x < rank e) :
    Tidy m (insert e S) rank (p.setExpr e node) := by
  have hsize : (p.setExpr e node).exprs.size = p.exprs.size := Arena.size_set _ _ _
  have hget : ∀ x, (p.setExpr e node).exprs.get? x = if x = e then some node
      else p.exprs.get? x := by
    intro x
    show (p.exprs.set e node).get? x = _
    rw [Arena.get?_set]
    simp [he]
  have hclean : ∀ {x}, Clean m S p x → Clean m (insert e S) (p.setExpr e node) x := fun hx =>
    clean_mono hx (Set.subset_insert e S) (by rw [hsize])
  refine ⟨fun {x} hx => ?_, fun {x node'} hlow hx => ?_⟩
  · rw [hget]
    split
    next => exact ⟨node, rfl, hplaced, fun y hy => hclean (hoperands y hy)⟩
    next hne =>
      obtain ⟨node', hnode', hplaced', hoperands'⟩ := h.swept (hx.resolve_left hne)
      exact ⟨node', hnode', hplaced', fun y hy => hclean (hoperands' y hy)⟩
  · rw [hget] at hx
    rw [hsize]
    split at hx
    next heq =>
      subst heq
      cases hx
      obtain ⟨node₀, hnode₀⟩ := Arena.exists_get?_of_lt he
      exact ⟨(h.ranked hlow hnode₀).1, hplaced, hranked hlow⟩
    next => exact h.ranked hlow hx

end Tidy

/-- What the nodes that have been gone through bind belongs to nothing that has a replacement. -/
def Reowned (r : Relocation) (S : Set ExprId) (p : Program) : Prop :=
  ∀ e ∈ S, ∀ node v, p.exprs.get? e = some node → node.bound? = some v →
    ∃ value, p.values.get? v = some value ∧ r.get? value.owner = none

namespace Reowned

variable {r : Relocation} {S : Set ExprId} {p : Program}

theorem allocExpr {rank : ExprId → Nat} (h : Reowned r S p)
    (htidy : Tidy m S rank p) (node : Expr) : Reowned r S (p.allocExpr node).2 := by
  intro e he node' v hnode' hv
  obtain ⟨node₀, hnode₀, -⟩ := htidy.swept he
  obtain rfl : node₀ = node' :=
    Option.some.inj ((Arena.get?_alloc_of_some _ hnode₀).symm.trans hnode')
  exact h e he node₀ v hnode₀ hv

/-- A value moves to a replacement.  Nothing that has been gone through binds it, or it would not
move. -/
theorem setValue (h : Reowned r S p) (hv : p.values.get? v = some value)
    (howner : r.get? value.owner = some owner) :
    Reowned r S (p.setValue v { value with owner }) := by
  intro e he node v' hnode hv'
  obtain ⟨value', hvalue', hnone⟩ := h e he node v' hnode hv'
  refine ⟨value', ?_, hnone⟩
  show (p.values.set v { value with owner }).get? v' = some value'
  rw [Arena.get?_set, if_neg]
  · exact hvalue'
  · rintro ⟨rfl, -⟩
    obtain rfl : value = value' := Option.mem_unique hv hvalue'
    cases hnone.symm.trans howner

theorem setExpr (h : Reowned r S p)
    (hnode : ∀ v, node.bound? = some v → ∃ value, p.values.get? v = some value
      ∧ r.get? value.owner = none) :
    Reowned r (insert e S) (p.setExpr e node) := by
  intro x hx node' v hnode' hv
  have hget : (p.setExpr e node).exprs.get? x = if x = e ∧ e.index < p.exprs.size then some node
      else p.exprs.get? x :=
    Arena.get?_set _ _ _ _
  rw [hget] at hnode'
  split at hnode'
  next =>
    cases hnode'
    exact hnode v hv
  next hne =>
    rcases hx with rfl | hx
    · exact absurd ⟨rfl, Arena.lt_size_of_get? hnode'⟩ hne
    · exact h x hx node' v hnode' hv

end Reowned

/-- Adding an expression ranked at `c`, when all that count as old are ranked at `c` or above. -/
theorem Appends.allocExpr {rank₀ rank : ExprId → Nat} {p₀ p : Program} (h : Appends rank₀ p₀ rank p)
    (hc : ∀ {e : ExprId}, e.index < p₀.exprs.size → c ≤ rank e) (node : Expr) :
    Appends rank₀ p₀
      (fun e => if e = p.exprs.next then c else if rank e < c then rank e else rank e + 1)
        (p.allocExpr node).2 := by
  have hsize := p.size_allocExpr node
  have hne : ∀ {e : ExprId}, e.index < p₀.exprs.size → e ≠ p.exprs.next := by
    rintro e he rfl
    exact absurd (he.trans_le h.exprs.size_le) (Nat.lt_irrefl _)
  refine ⟨h.decls, h.exprs.trans (Arena.keeps_alloc _ _), fun {x e} hx he hlt => ?_,
    fun {x e} hlow hhigh he => ?_⟩
  · rw [if_neg (hne hx), if_neg (hne he)]
    have := h.order hx he hlt
    split <;> split <;> omega
  · rw [if_neg (hne he)]
    have hce := hc he
    by_cases heq : x = p.exprs.next
    · rw [if_pos heq, if_neg (by omega)]
      omega
    · have hx : x.index < p.exprs.size := by
        rw [hsize] at hhigh
        refine Nat.lt_of_le_of_ne (Nat.le_of_lt_succ hhigh) fun hx => heq ?_
        cases x
        exact congrArg Handle.mk hx
      have := h.below hlow hx he
      rw [if_neg heq]
      split <;> split <;> omega

/-! ## §3. One node. -/

/-- The state while a node is made, since `p₀` with its ranks `rank₀`. -/
structure Making (q : Program) (n : Nat) (B : ExprId → Prop) (r : Relocation) (S : Set ExprId)
    (rank₀ : ExprId → Nat) (p₀ : Program) (rank : ExprId → Nat) (p : Program) : Prop where
  touched : Touched q n B r p
  tidy : Tidy q.exprs.size S rank p
  reowned : Reowned r S p
  appends : Appends rank₀ p₀ rank p

namespace Making

variable {q p₀ p p' : Program} {n : Nat} {B : ExprId → Prop} {r : Relocation} {S : Set ExprId}
  {rank₀ rank rank' : ExprId → Nat}

theorem restart (h : Making q n B r S rank₀ p₀ rank p) : Making q n B r S rank p rank p :=
  ⟨h.touched, h.tidy, h.reowned, .refl _ _⟩

theorem trans (h : Making q n B r S rank₀ p₀ rank p) (h' : Making q n B r S rank p rank' p') :
    Making q n B r S rank₀ p₀ rank' p' :=
  ⟨h'.touched, h'.tidy, h'.reowned, h.appends.trans h'.appends⟩

end Making

/-- The expression was added since. -/
def Program.Added (p₀ p : Program) (x : ExprId) : Prop :=
  p₀.exprs.size ≤ x.index ∧ x.index < p.exprs.size

namespace Retarget

variable {q p₀ : Program} {n : Nat} {B : ExprId → Prop} {S : Set ExprId} {rank₀ rank : ExprId → Nat}
  {t : Retarget} {w : Work}

/-- Adding a node keeps the state, if its operands were added since and rank below all that was
there. -/
theorem making_allocExpr (node : Expr) (h : Making q n B t.relocation S rank₀ p₀ rank w.program)
    (hp₀ : q.exprs.size ≤ p₀.exprs.size) (hplaced : ∀ d, node ≠ .decl d)
    (hbound : node.bound? = none) (hc : c + q.exprs.size ≤ w.program.exprs.size)
    (hrank : ∀ {e : ExprId}, e.index < p₀.exprs.size → c ≤ rank e)
    (hoperands : ∀ x ∈ node.operands, p₀.Added w.program x ∧ rank x < c) :
    Making q n B t.relocation S rank₀ p₀
      (fun e => if e = w.program.exprs.next then c else if rank e < c then rank e else rank e + 1)
      (w.program.allocExpr node).2 where
  touched := h.touched.allocExpr hbound fun x hx => hp₀.trans (hoperands x hx).1.1
  tidy := h.tidy.allocExpr c hplaced hc fun x hx =>
    ⟨hp₀.trans (hoperands x hx).1.1, (hoperands x hx).1.2, (hoperands x hx).2⟩
  reowned := h.reowned.allocExpr h.tidy node
  appends := h.appends.allocExpr hrank node

/-- **A read** is made.  A read from a field adds its receiver. -/
theorem read_leaves (h : Making q n B t.relocation S rank₀ p₀ rank w.program)
    (hp₀ : q.exprs.size ≤ p₀.exprs.size) (v : ValueId) {ok : Expr → Work → Prop} {err : Work → Prop}
    (hok : ∀ node w' rank' c, Making q n B t.relocation S rank₀ p₀ rank' w'.program →
      (∀ d, node ≠ .decl d) →
      node.bound? = none → c + q.exprs.size ≤ w'.program.exprs.size →
      (∀ {e : ExprId}, e.index < p₀.exprs.size → c ≤ rank' e) →
      (∀ x ∈ node.operands, p₀.Added w'.program x ∧ rank' x < c) → ok node w') :
    (t.read v).Leaves w ok err := by
  have hgrown := h.touched.grown
  unfold Retarget.read
  cases t.carrier? v with
  | none =>
    exact hok _ w rank 0 h (by rintro d ⟨⟩) rfl (by omega) (fun _ => Nat.zero_le _)
      (by simp [Expr.operands])
  | some carrier =>
    cases carrier with
    | param x =>
      exact hok _ w rank 0 h (by rintro d ⟨⟩) rfl (by omega) (fun _ => Nat.zero_le _)
        (by simp [Expr.operands])
    | field f this =>
      have hsize := w.program.size_allocExpr (.get this)
      have hmade := making_allocExpr (c := 0) (.get this) h hp₀ (by rintro d ⟨⟩) rfl (by omega)
        (fun _ => Nat.zero_le _) (by simp [Expr.operands])
      refine hok _ { w with program := (w.program.allocExpr (.get this)).2 } _ 1 hmade
        (by rintro d ⟨⟩) rfl ?_
        (fun {e} he => ?_) fun x hx => ?_
      · show 1 + q.exprs.size ≤ (w.program.allocExpr (.get this)).2.exprs.size
        omega
      · have hne : e ≠ w.program.exprs.next := by
          rintro rfl
          exact absurd (he.trans_le h.appends.exprs.size_le) (Nat.lt_irrefl _)
        simp [hne]
      · obtain rfl : x = w.program.exprs.next := by simpa [Expr.operands] using hx
        refine ⟨⟨h.appends.exprs.size_le, ?_⟩, by simp⟩
        show w.program.exprs.size < (w.program.allocExpr (.get this)).2.exprs.size
        omega

/-- What is left of the making of a part: the operands it names are those of before or were added
since. -/
def Made (q : Program) (n : Nat) (B : ExprId → Prop) (r : Relocation) (S : Set ExprId)
    (rank₀ : ExprId → Nat) (p₀ p : Program) (old new : List ExprId) : Prop :=
  ∃ rank, Making q n B r S rank₀ p₀ rank p ∧ ∀ x ∈ new, x ∈ old ∨ p₀.Added p x

/-- **An argument** is sorted into its place or made. -/
theorem argument_leaves (h : Making q n B t.relocation S rank₀ p₀ rank w.program)
    (hp₀ : q.exprs.size ≤ p₀.exprs.size) (callee new : DeclId) (oldParams : List ValueId)
    (args : List (Option ExprId)) (param : ValueId) :
    (t.argument callee new oldParams args param).Leaves w
      (fun x? w' => Made q n B t.relocation S rank₀ p₀ w'.program (args.filterMap id) x?.toList)
      fun w' => Touched q n B t.relocation w'.program := by
  unfold argument
  split
  · split
    next position _ =>
      refine .pure ⟨rank, h, fun x hx => .inl ?_⟩
      rw [Option.mem_toList, Option.join_eq_some_iff] at hx
      exact List.mem_filterMap.2 ⟨some x, List.mem_of_getElem? hx, rfl⟩
    next => exact .throw h.touched
  next captured _ _ =>
    refine .bind
      (read_leaves h hp₀ captured fun node w' rank' c h' hplaced hbound hc hrank hoperands => ?_)
    refine .bind (.addExpr
      (.pure ⟨_, making_allocExpr _ h' hp₀ hplaced hbound hc hrank hoperands, fun x hx => .inr ?_⟩))
    obtain rfl : x = w'.program.exprs.next := by simpa using hx
    refine ⟨h'.appends.exprs.size_le, ?_⟩
    show w'.program.exprs.size < (w'.program.allocExpr node).2.exprs.size
    rw [Program.size_allocExpr]
    exact Nat.lt_succ_self _
  · exact .bind (.value (fun _ _ => .throw h.touched) h.touched)

/-- **An access** goes to the replacement of its callee. -/
theorem access_leaves (h : Making q n B t.relocation S rank₀ p₀ rank w.program) (a : Access) :
    (t.access a).Leaves w
      (fun a' w' => Made q n B t.relocation S rank₀ p₀ w'.program a.operands a'.operands)
      fun w' => Touched q n B t.relocation w'.program := by
  unfold access
  split
  · exact .pure ⟨rank, h, fun x hx => .inl hx⟩
  next new _ =>
    refine .bind
      (.decl (fun oldContent _ => .bind (.decl (fun newContent _ => .bind ?_) h.touched)) h.touched)
    refine (Step.Yields.mapM
      (fun _ args w' => Made q n B t.relocation S rank₀ p₀ w'.program (a.args.filterMap id)
      (args.filterMap id)) ?_ ⟨rank, h, by simp⟩).mono ?_
    · rintro seen param rest args w' - ⟨rank', h', hargs⟩
      refine (argument_leaves h'.restart h'.touched.grown a.callee new _ a.args param).mono ?_
      rintro x? w'' ⟨rank'', h'', hx?⟩
      have hsize := h''.appends.exprs.size_le
      refine ⟨rank'', h'.trans h'', fun x hx => ?_⟩
      rw [List.filterMap_append, List.mem_append] at hx
      rcases hx with hx | hx
      · exact (hargs x hx).imp id fun hadded => ⟨hadded.1, hadded.2.trans_le hsize⟩
      · refine (hx? x (by cases x? <;> simp_all)).imp id fun hadded => ⟨?_, hadded.2⟩
        exact h'.appends.exprs.size_le.trans hadded.1
    · rintro args w' ⟨rank', h', hargs⟩
      refine .pure ⟨rank', h', fun x hx => ?_⟩
      simp only [Access.operands, List.mem_append] at hx ⊢
      rcases hx with hx | hx
      · exact .inl (.inl hx)
      · exact (hargs x hx).imp .inr id

/-- **A variable** follows its owner. -/
theorem reown_leaves (h : Making q n B t.relocation S rank₀ p₀ rank w.program)
    (hr : ∀ d x, t.relocation.get? d = some x → t.relocation.get? x = none) (hbinds : q.Binds B v) :
    (t.reown v).Leaves w (fun _ w' => Making q n B t.relocation S rank₀ p₀ rank w'.program
        ∧ ∃ value, w'.program.values.get? v = some value ∧ t.relocation.get? value.owner = none)
      fun w' => Touched q n B t.relocation w'.program := by
  unfold reown
  refine .bind (.value (fun value hvalue => ?_) h.touched)
  split
  next owner howner =>
    refine .modifyValue (fun value' hvalue' => ?_) h.touched
    obtain rfl : value = value' := Option.mem_unique hvalue hvalue'
    refine ⟨⟨h.touched.setValue hr hbinds hvalue howner, h.tidy.congr rfl,
      h.reowned.setValue hvalue howner, ⟨h.appends.decls, h.appends.exprs, h.appends.order,
      h.appends.below⟩⟩, { value with owner }, ?_, hr _ _ howner⟩
    show (w.program.values.set v { value with owner }).get? v = _
    rw [Arena.get?_set, if_pos ⟨rfl, Arena.lt_size_of_get? hvalue⟩]
  next hnone => exact .pure ⟨h, value, hvalue, Option.eq_none_iff_forall_ne_some.2 hnone⟩

/-- **A node** is retargeted: it binds what it did, which has moved if it had to, places nothing,
and has no operands but those of before and those that were added. -/
theorem node_leaves (h : Making q n B t.relocation S rank₀ p₀ rank w.program)
    (hr : ∀ d x, t.relocation.get? d = some x → t.relocation.get? x = none)
    (hp₀ : q.exprs.size ≤ p₀.exprs.size) (hbinds : ∀ v, old.bound? = some v → q.Binds B v) :
    (t.node old).Leaves w (fun new w' => new.bound? = old.bound? ∧ (∀ d, new ≠ .decl d)
        ∧ (∀ v, old.bound? = some v → ∃ value, w'.program.values.get? v = some value
          ∧ t.relocation.get? value.owner = none)
        ∧ Made q n B t.relocation S rank₀ p₀ w'.program old.operands new.operands)
      fun w' => Touched q n B t.relocation w'.program := by
  have same : ∀ {new : Expr} {w' : Work}, Making q n B t.relocation S rank₀ p₀ rank w'.program →
      new.operands = old.operands →
      Made q n B t.relocation S rank₀ p₀ w'.program old.operands new.operands :=
    fun h' heq => ⟨rank, h', fun x hx => .inl (heq ▸ hx)⟩
  cases old with
  | get v =>
    refine read_leaves h hp₀ v fun node w' rank' c h' hplaced hbound _ _ hoperands => ?_
    exact ⟨hbound, hplaced, by rintro v ⟨⟩, rank', h', fun x hx => .inr (hoperands x hx).1⟩
  | set v source =>
    simp only [node]
    split
    · exact .bind (.value (fun _ _ => .throw h.touched) h.touched)
    · exact .pure ⟨rfl, by rintro d ⟨⟩, by rintro v ⟨⟩, same h rfl⟩
  | var v init =>
    refine .bind ((reown_leaves h hr (hbinds v rfl)).mono fun _ w' h' => .pure ?_)
    exact ⟨rfl, by rintro d ⟨⟩, by rintro _ ⟨⟩; exact h'.2, same h'.1 rfl⟩
  | decl d =>
    simp only [node]
    split
    · exact .pure ⟨rfl, by rintro d ⟨⟩, by rintro v ⟨⟩, same h rfl⟩
    · exact .throw h.touched
  | access form a =>
    refine .bind ((access_leaves h a).mono fun a' w' h' => .pure ?_)
    exact ⟨rfl, by rintro d ⟨⟩, by rintro v ⟨⟩, h'⟩
  | delegated v delegate accessors =>
    refine .bind ((reown_leaves h hr (hbinds v rfl)).mono fun _ w' h' => .pure ?_)
    exact ⟨rfl, by rintro d ⟨⟩, by rintro _ ⟨⟩; exact h'.2, same h'.1 rfl⟩
  | classRef cls =>
    simp only [node]
    split
    · exact .throw h.touched
    · exact .pure ⟨rfl, by rintro d ⟨⟩, by rintro v ⟨⟩, same h rfl⟩
  | getField field receiver => exact .pure ⟨rfl, by rintro d ⟨⟩, by rintro v ⟨⟩, same h rfl⟩
  | setField field receiver value => exact .pure ⟨rfl, by rintro d ⟨⟩, by rintro v ⟨⟩, same h rfl⟩
  | ret target value => exact .pure ⟨rfl, by rintro d ⟨⟩, by rintro v ⟨⟩, same h rfl⟩
  | lit _ => exact .pure ⟨rfl, by rintro d ⟨⟩, by rintro v ⟨⟩, same h rfl⟩
  | block _ => exact .pure ⟨rfl, by rintro d ⟨⟩, by rintro v ⟨⟩, same h rfl⟩
  | branch _ _ _ => exact .pure ⟨rfl, by rintro d ⟨⟩, by rintro v ⟨⟩, same h rfl⟩
  | loop _ _ => exact .pure ⟨rfl, by rintro d ⟨⟩, by rintro v ⟨⟩, same h rfl⟩
  | binary _ _ _ => exact .pure ⟨rfl, by rintro d ⟨⟩, by rintro v ⟨⟩, same h rfl⟩

/-! ## §4. One expression. -/

/-- What an expression that was gone through leaves behind: it is clean, what was clean still is,
what is bound there has moved, ranks are in the same order, and no declaration has changed. -/
def Sweeps (q : Program) (n : Nat) (B : ExprId → Prop) (r : Relocation) (S : Set ExprId)
    (rank : ExprId → Nat) (p p' : Program) (es : List ExprId) : Prop :=
  ∃ S' rank', Touched q n B r p' ∧ Tidy q.exprs.size S' rank' p' ∧ Reowned r S' p' ∧ S ⊆ S'
    ∧ p.exprs.size ≤ p'.exprs.size
    ∧ p'.decls = p.decls ∧ (∀ e ∈ S', e ∈ S ∨ Touched.Open q B e)
    ∧ (∀ {x e : ExprId}, x.index < p.exprs.size → e.index < p.exprs.size →
    rank x < rank e → rank' x < rank' e)
    ∧ ∀ e ∈ es, Clean q.exprs.size S' p' e

/-- **An expression** is retargeted with everything below it. -/
theorem exprUpTo_leaves (hr : ∀ d x, t.relocation.get? d = some x → t.relocation.get? x = none)
    (hB : ∀ {e node}, q.exprs.get? e = some node → B e → ∀ x ∈ node.operands, B x) (fuel : Nat)
    (he : Touched.Open q B e) (h : Touched q n B t.relocation w.program)
    (htidy : Tidy q.exprs.size S rank w.program) (hreowned : Reowned t.relocation S w.program) :
    (t.exprUpTo fuel e).Leaves w
      (fun _ w' => Sweeps q n B t.relocation S rank w.program w'.program [e])
      fun w' => Touched q n B t.relocation w'.program := by
  induction fuel generalizing e S rank w with
  | zero => exact .throw h
  | succ fuel ih =>
    refine .bind (.expr (fun old hold => .bind ?_) h)
    have hopen := h.open_operands hB he hold
    refine (Step.Yields.forM
      (fun done w' => Sweeps q n B t.relocation S rank w.program w'.program done) ?_
      ⟨S, rank, h, htidy, hreowned, le_refl S, le_rfl, rfl, fun _ => .inl,
      fun _ _ hlt => hlt, by simp⟩).mono ?_
    · rintro done x rest w' hsplit
        ⟨S', rank', h', htidy', hreowned', hS, hsize, hdecls, hopened, horder, hdone⟩
      refine (ih (hopen x (by simp [hsplit])) h' htidy' hreowned').mono ?_
      rintro _ w'' ⟨S'', rank'', h'', htidy'', hreowned'', hS', hsize', hdecls',
        hopened', horder', hx⟩
      refine ⟨S'', rank'', h'', htidy'', hreowned'', hS.trans hS', hsize.trans hsize',
        hdecls'.trans hdecls, fun y hy => ?_, fun hx he hlt => ?_, fun y hy => ?_⟩
      · exact (hopened' y hy).elim (hopened y) .inr
      · exact horder' (hx.trans_le hsize) (he.trans_le hsize) (horder hx he hlt)
      · rcases List.mem_append.1 hy with hy | hy
        · exact Tidy.clean_mono (hdone y hy) hS' hsize'
        · exact hx y hy
    rintro _ w₁ ⟨S₁, rank₁, h₁, htidy₁, hreowned₁, hS₁, hsize₁, hdecls₁, hopened₁, horder₁, hclean₁⟩
    have hmaking : Making q n B t.relocation S₁ rank₁ w₁.program rank₁ w₁.program :=
      ⟨h₁, htidy₁, hreowned₁, .refl _ _⟩
    refine .bind ((node_leaves hmaking hr h₁.grown fun v hv => h.binds_of_bound he hold hv).mono ?_)
    rintro new w₂ ⟨hbound, hplaced, hmoved, rank₂, h₂, hoperands⟩
    have hlt : e.index < w.program.exprs.size := Arena.lt_size_of_get? hold
    have hsize₂ := h₂.appends.exprs.size_le
    have hthins : Thins q.exprs.size w₂.program.exprs.size old new :=
      ⟨fun x hx => (hoperands x hx).imp id fun hadded => ⟨h₁.grown.trans hadded.1, hadded.2⟩,
        hbound, hplaced⟩
    have hclean : ∀ x ∈ new.operands, Clean q.exprs.size S₁ w₂.program x := by
      intro x hx
      rcases hoperands x hx with hx | hadded
      · exact Tidy.clean_mono (hclean₁ x hx) (le_refl S₁) hsize₂
      · exact .inr ⟨h₁.grown.trans hadded.1, hadded.2⟩
    have hranked : q.exprs.size ≤ e.index → ∀ x ∈ new.operands, q.exprs.size ≤ x.index
        ∧ x.index < w₂.program.exprs.size ∧ rank₂ x < rank₂ e := by
      intro hlow x hx
      rcases hoperands x hx with hx | hadded
      · obtain ⟨hlow', hhigh, hrank⟩ := (htidy.ranked hlow hold).2.2 x hx
        refine ⟨hlow', (hhigh.trans_le hsize₁).trans_le hsize₂, ?_⟩
        exact h₂.appends.order (hhigh.trans_le hsize₁) (hlt.trans_le hsize₁)
          (horder₁ hhigh hlt hrank)
      · exact ⟨h₁.grown.trans hadded.1, hadded.2,
          h₂.appends.below hadded.1 hadded.2 (hlt.trans_le hsize₁)⟩
    have hsize : (w₂.program.setExpr e new).exprs.size = w₂.program.exprs.size :=
      Arena.size_set _ _ _
    refine .setExpr ⟨insert e S₁, rank₂, h.setExpr he hold h₂.touched (hsize₁.trans hsize₂) hthins,
      h₂.tidy.setExpr ((hlt.trans_le hsize₁).trans_le hsize₂) hplaced hclean hranked,
      h₂.reowned.setExpr fun v hv => hmoved v (hbound ▸ hv), hS₁.trans (Set.subset_insert e S₁), ?_,
      h₂.appends.decls.trans hdecls₁, fun y hy => ?_, fun hx he hlt => ?_, fun y hy => ?_⟩
    · exact (hsize₁.trans hsize₂).trans_eq hsize.symm
    · rcases hy with rfl | hy
      · exact .inr he
      · exact hopened₁ y hy
    · exact h₂.appends.order (hx.trans_le hsize₁) (he.trans_le hsize₁) (horder₁ hx he hlt)
    · obtain rfl := List.mem_singleton.1 hy
      exact .inl (Set.mem_insert y S₁)

end Retarget

end LambdaLift
