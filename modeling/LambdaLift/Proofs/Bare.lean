/-
  LambdaLift.Proofs.Bare
  **A ROOT WITHOUT LOCAL DECLARATIONS STAYS WITHOUT THEM.**

  A root is bare if there is nothing to lift below it: everything declared
  there stands directly in a class.  A root that was lowered is bare, and
  so is everything that was lifted out of it.  Lowering one root keeps the
  others bare: where they share code with it, placed declarations only go
  away, and what is added nests no deeper than there are entries.  Listing
  the siblings keeps them bare too, because a bare root does not reach the
  container of a root that is not.

  Main results:
    * `Program.bare_iff_locals` — bare roots are those with empty tables;
    * `Lowered.plain_root`, `Lowered.plain_sibling` — what was lowered is bare;
    * `Lowered.bare_listed` — what is bare stays bare.
-/
import Mathlib
import LambdaLift.Proofs.Confined

namespace LambdaLift

variable {child d k root s x : DeclId} {e : ExprId} {b : Bool} {label : Label} {levels m : Nat}
  {inner place start : Place}

namespace Program

variable {p p' : Program} {root : DeclId}

/-! ## §1. Bare roots. -/

/-- There is nothing to lift below the root: the nesting ends, and each declaration there stands
directly in a class. -/
def Bare (p : Program) (root : DeclId) : Prop :=
  ∃ content, p.decls.get? root = some content ∧ ∀ part ∈ content.parts, p.Bounded p.depth part
    ∧ ∀ d content', Relation.ReflTransGen p.Follows part (.decl d) →
    p.decls.get? d = some content' →
      p.isMember d = .ok true ∧ ∀ c, content' = .cls c → c.isInner = true

/-- Nothing at all is declared below the root. -/
def Plain (p : Program) (root : DeclId) : Prop := p.Bare root ∧ ∀ d, ¬ p.Below root (.decl d)

/-- **Bare roots are those with empty tables.** -/
theorem bare_iff_locals : p.Bare root ↔ ∃ l, p.locals root = .ok l ∧ l.isEmpty = true := by
  constructor
  · rintro ⟨content, hroot, hparts⟩
    have hends : p.Ends root := ⟨content, hroot, fun part hpart => (hparts part hpart).1⟩
    have hcollects : p.Collects root := by
      refine ⟨hends, fun {d} hbelow => ?_⟩
      obtain ⟨label, hlabel⟩ := (hends.bounded hbelow).exists_label
      obtain ⟨content', hd, -⟩ := Option.map_eq_some_iff.1 hlabel
      obtain ⟨content₁, hroot₁, part, hpart, hreach⟩ := hbelow
      obtain rfl : content = content₁ := Option.mem_unique hroot hroot₁
      obtain ⟨hmember, hinner⟩ := (hparts part hpart).2 d content' hreach hd
      rw [table?_eq hd hmember]
      cases content' <;> simp_all [Declaration.table?]
    obtain ⟨l, hl⟩ := exists_locals hcollects
    obtain ⟨hsorted, -⟩ := locals_spec hl
    have hmember : ∀ d, p.Below root (.decl d) → (∃ content', p.decls.get? d = some content') →
        p.isMember d = .ok true := by
      rintro d ⟨content₁, hroot₁, part, hpart, hreach⟩ ⟨content', hd⟩
      obtain rfl : content = content₁ := Option.mem_unique hroot hroot₁
      exact ((hparts part hpart).2 d content' hreach hd).1
    refine ⟨l, hl, ?_⟩
    have hfunctions : l.functions.entries = [] := by
      refine List.eq_nil_iff_forall_not_mem.2 fun a ha => ?_
      obtain ⟨hbelow, hfalse, f, hf⟩ := (hsorted.functions a.1).1 (List.mem_map_of_mem ha)
      rw [hmember a.1 hbelow ⟨_, hf⟩] at hfalse
      cases hfalse
    have hclasses : l.classes.entries = [] := by
      refine List.eq_nil_iff_forall_not_mem.2 fun a ha => ?_
      obtain ⟨hbelow, hfalse, c, hc⟩ := (hsorted.classes a.1).1 (List.mem_map_of_mem ha)
      rw [hmember a.1 hbelow ⟨_, hc⟩] at hfalse
      cases hfalse
    simp [Locals.isEmpty, OrderedMap.isEmpty, hfunctions, hclasses]
  · rintro ⟨l, hl, hempty⟩
    obtain ⟨hsorted, hcollects⟩ := locals_spec hl
    obtain ⟨content, hroot, hbounded⟩ := hcollects.ends
    refine ⟨content, hroot, fun part hpart => ⟨hbounded part hpart, fun d content' hreach hd => ?_⟩⟩
    have hbelow : p.Below root (.decl d) := ⟨content, hroot, part, hpart, hreach⟩
    simp only [Locals.isEmpty, OrderedMap.isEmpty, Bool.and_eq_true, List.isEmpty_iff] at hempty
    have hmember : p.isMember d = .ok true := by
      rcases hcollects.isMember hsorted hbelow with hkey | hkey | hmember
      · simp [OrderedMap.keys, hempty.1] at hkey
      · simp [OrderedMap.keys, hempty.2] at hkey
      · exact hmember
    refine ⟨hmember, ?_⟩
    rintro c rfl
    have hsome := hcollects.sorts hbelow
    rw [table?_eq hd hmember] at hsome
    simpa [Declaration.table?] using hsome

/-- Whether a declaration stands directly in a class is a matter of its parent. -/
theorem isMember_eq_ok : p.isMember d = .ok b ↔ ∃ content, p.decls.get? d = some content
    ∧ (content.parent = none ∧ b = false
      ∨ ∃ k outer, content.parent = some k ∧ p.decls.get? k = some outer ∧ b = outer.isClass) := by
  cases hd : p.decls.get? d with
  | none => simp [isMember, parent, decl, Arena.lookup, hd, bind, Except.bind]
  | some content =>
    cases hparent : content.parent with
    | none =>
      have : p.isMember d = .ok false := by
        simp [isMember, parent, decl, Arena.lookup, hd, bind, Except.bind, pure,
          Except.pure, hparent]
      rw [this]
      simp [hparent, eq_comm]
    | some k =>
      cases hk : p.decls.get? k with
      | none =>
        have : p.isMember d = .error .dangling := by
          simp [isMember, isClass, parent, decl, Arena.lookup, hd, hk, bind, Except.bind, pure,
            Except.pure, hparent]
        rw [this]
        simp [hparent, hk]
      | some outer =>
        have : p.isMember d = .ok outer.isClass := by
          simp [isMember, isClass, parent, decl, Arena.lookup, hd, hk, bind, Except.bind, pure,
            Except.pure, hparent]
        rw [this]
        simp [hparent, hk, eq_comm]

/-- Declarations are kept up to the members of classes. -/
def Relists (p p' : Program) : Prop :=
  ∀ d content, p.decls.get? d = some content → ∃ content', p'.decls.get? d = some content'
    ∧ (content' = content ∨ ∃ c ms, content = .cls c ∧ content' = .cls { c with members := ms })

/-- What stands directly in a class stays there. -/
theorem Relists.isMember (h : p.Relists p') (hd : p.isMember d = .ok b) :
    p'.isMember d = .ok b := by
  obtain ⟨content, hcontent, hparent⟩ := isMember_eq_ok.1 hd
  obtain ⟨content', hcontent', hsame⟩ := h _ _ hcontent
  have hparent' : content'.parent = content.parent := by
    rcases hsame with rfl | ⟨c, ms, rfl, rfl⟩ <;> rfl
  refine isMember_eq_ok.2 ⟨content', hcontent', ?_⟩
  rw [hparent']
  refine hparent.imp id ?_
  rintro ⟨k, outer, hk, houter, rfl⟩
  obtain ⟨outer', houter', hsame'⟩ := h _ _ houter
  refine ⟨k, outer', hk, houter', ?_⟩
  rcases hsame' with rfl | ⟨c, ms, rfl, rfl⟩ <;> rfl

theorem relists_of_keeps (h : p.decls.Keeps p'.decls) : p.Relists p' :=
  fun _ _ hd => ⟨_, h _ _ hd, .inl rfl⟩

end Program

/-! ## §2. What lowering another root does to what is reached. -/

namespace Lowering.Lowered

open Program

variable {settings : Settings} {root : DeclId} {p p' q : Program} {siblings : List DeclId}
  {site : Site} {r : Relocation} {S : Set ExprId}

/-- What was added nests no deeper than there are new entries. -/
theorem bounded_fresh {rank : ExprId → Nat} (h : Tidy m S rank p') (hlow : m ≤ e.index)
    (hhigh : e.index < p'.exprs.size) : p'.Bounded (rank e + 1) (.expr e) := by
  induction hrank : rank e using Nat.strong_induction_on generalizing e with
  | _ k ih =>
    obtain ⟨node, hnode⟩ := Arena.exists_get?_of_lt hhigh
    obtain ⟨-, hplaced, hoperands⟩ := h.ranked hlow hnode
    refine ⟨.expr e node, label?_eq_expr.2 ⟨rfl, hnode⟩, fun inner hinner => ?_⟩
    obtain ⟨x, hx, rfl⟩ : ∃ x ∈ node.operands, inner = .expr x := by
      cases node with
      | decl d => exact absurd rfl (hplaced d)
      | _ => simpa [Label.followed, Label.places, eq_comm] using hinner
    obtain ⟨hlow', hhigh', hlt⟩ := hoperands x hx
    exact (ih (rank x) (hrank ▸ hlt) hlow' hhigh' rfl).mono (by omega)

/-- An expression that was there leads to what it led to, or to what was added. -/
theorem follows_expr (h : Lowered settings root p siblings site r q S p') {node : Expr}
    (hnode : p.exprs.get? e = some node) (hstep : p'.Follows (.expr e) inner) :
    p.Follows (.expr e) inner ∨ ∃ x, inner = .expr x ∧ p.Added p' x := by
  obtain ⟨label, hlabel, hinner⟩ := hstep
  have hexprs := h.raised.grown.exprs
  have hq : q.exprs.get? e = some node := by rw [hexprs]; exact hnode
  rcases h.filled.touched.exprs hq with hsame | ⟨-, node', hnode', hthins⟩
  · obtain rfl : label = .expr e node := by
      rw [(label?_eq_expr.2 ⟨rfl, hsame⟩ : p'.label? (.expr e) = _)] at hlabel
      exact (Option.some.inj hlabel).symm
    exact .inl ⟨.expr e node, label?_eq_expr.2 ⟨rfl, hnode⟩, hinner⟩
  · obtain rfl : label = .expr e node' := by
      rw [(label?_eq_expr.2 ⟨rfl, hnode'⟩ : p'.label? (.expr e) = _)] at hlabel
      exact (Option.some.inj hlabel).symm
    obtain ⟨x, hx, rfl⟩ : ∃ x ∈ node'.operands, inner = .expr x := by
      cases node' with
      | decl d => exact absurd rfl (hthins.placed d)
      | _ => simpa [Label.followed, Label.places, eq_comm] using hinner
    rcases hthins.operands x hx with hx | hfresh
    · refine .inl ⟨.expr e node, label?_eq_expr.2 ⟨rfl, hnode⟩, ?_⟩
      cases node <;> simp_all [Label.followed, Label.places, Expr.operands]
    · exact .inr ⟨x, rfl, by rw [← hexprs]; exact hfresh.1, hfresh.2⟩

/-- A place that was there leads to what it led to, or to what was added. -/
theorem follows (h : Lowered settings root p siblings site r q S p') {outer : Place}
    (hlabel : p.label? outer = some label) (hstep : p'.Follows outer inner) :
    p.Follows outer inner ∨ ∃ x, inner = .expr x ∧ p.Added p' x := by
  have hdecls := h.confined.decls
  cases label with
  | expr e node =>
    obtain ⟨rfl, hnode⟩ := label?_eq_expr.1 hlabel
    exact h.follows_expr hnode hstep
  | decl d content =>
    obtain ⟨rfl, hd⟩ := label?_eq_decl.1 hlabel
    obtain ⟨label', hlabel', hinner⟩ := hstep
    rw [(label?_eq_decl.2 ⟨rfl, hdecls _ _ hd⟩ : p'.label? (.decl d) = _)] at hlabel'
    cases hlabel'
    exact .inl ⟨_, hlabel, hinner⟩
  | backing d content =>
    obtain ⟨rfl, hd⟩ := label?_eq_backing.1 hlabel
    obtain ⟨label', hlabel', hinner⟩ := hstep
    rw [(label?_eq_backing.2 ⟨rfl, hdecls _ _ hd⟩ : p'.label? (.backing d) = _)] at hlabel'
    cases hlabel'
    exact .inl ⟨_, hlabel, hinner⟩

/-- A place that was there is still there. -/
theorem exists_label (h : Lowered settings root p siblings site r q S p')
    (hlabel : p.label? place = some label) : ∃ label', p'.label? place = some label' := by
  have hconfined := h.confined
  cases label with
  | expr e node =>
    obtain ⟨rfl, hnode⟩ := label?_eq_expr.1 hlabel
    obtain ⟨node', hnode'⟩ :=
      Arena.exists_get?_of_lt ((Arena.lt_size_of_get? hnode).trans_le hconfined.exprs_grow)
    exact ⟨.expr e node', label?_eq_expr.2 ⟨rfl, hnode'⟩⟩
  | decl d content =>
    obtain ⟨rfl, hd⟩ := label?_eq_decl.1 hlabel
    exact ⟨.decl d content, label?_eq_decl.2 ⟨rfl, hconfined.decls _ _ hd⟩⟩
  | backing d content =>
    obtain ⟨rfl, hd⟩ := label?_eq_backing.1 hlabel
    exact ⟨.backing d content, label?_eq_backing.2 ⟨rfl, hconfined.decls _ _ hd⟩⟩

/-- **Nesting that ended still ends**, at most as many levels deeper as there are new
expressions. -/
theorem bounded (h : Lowered settings root p siblings site r q S p') (hb : p.Bounded levels place) :
    p'.Bounded (levels + (p'.exprs.size - p.exprs.size)) place := by
  obtain ⟨rank, htidy⟩ := h.filled.tidy
  rw [h.raised.grown.exprs] at htidy
  induction levels generalizing place with
  | zero => exact hb.elim
  | succ levels ih =>
    obtain ⟨label, hlabel, hinner⟩ := hb
    obtain ⟨label', hlabel'⟩ := h.exists_label hlabel
    rw [Nat.add_right_comm]
    refine ⟨label', hlabel', fun inner hmem => ?_⟩
    rcases h.follows hlabel ⟨label', hlabel', hmem⟩
      with ⟨label₁, hlabel₁, hmem₁⟩ | ⟨x, rfl, hlow, hhigh⟩
    · obtain rfl : label = label₁ := Option.mem_unique hlabel hlabel₁
      exact ih (hinner inner hmem₁)
    · obtain ⟨node, hnode⟩ := Arena.exists_get?_of_lt hhigh
      have hrank := (htidy.ranked hlow hnode).1
      exact (bounded_fresh htidy hlow hhigh).mono (by omega)

/-- **What is reached was reached before, or was added.** -/
theorem reached (h : Lowered settings root p siblings site r q S p') (hb : p.Bounded levels start)
    (hreach : Relation.ReflTransGen p'.Follows start place) :
    Relation.ReflTransGen p.Follows start place ∨ ∃ x, place = .expr x ∧ p.Added p' x := by
  obtain ⟨rank, htidy⟩ := h.filled.tidy
  rw [h.raised.grown.exprs] at htidy
  induction hreach with
  | refl => exact .inl .refl
  | tail _ hstep ih =>
    rcases ih with hold | ⟨x, rfl, hlow, hhigh⟩
    · cases levels with
      | zero => exact hb.elim
      | succ levels =>
        obtain ⟨label, hlabel, -⟩ := hb.reached hold
        exact (h.follows hlabel hstep).imp (fun hstep' => hold.tail hstep') id
    · obtain ⟨label, hlabel, hinner⟩ := hstep
      cases label with
      | expr e node =>
        obtain ⟨heq, hnode⟩ := label?_eq_expr.1 hlabel
        cases heq
        obtain ⟨-, hplaced, hoperands⟩ := htidy.ranked hlow hnode
        cases node with
        | decl d => exact absurd rfl (hplaced d)
        | _ =>
          simp only [Label.followed, Label.places, List.mem_map] at hinner
          obtain ⟨y, hy, rfl⟩ := hinner
          exact .inr ⟨y, rfl, (hoperands y hy).1, (hoperands y hy).2.1⟩
      | decl d content => cases (label?_eq_decl.1 hlabel).1
      | backing d content => cases (label?_eq_backing.1 hlabel).1

theorem depth_le (h : Lowered settings root p siblings site r q S p') :
    p.depth + (p'.exprs.size - p.exprs.size) ≤ p'.depth := by
  have hdecls := h.confined.decls.size_le
  have hexprs := h.confined.exprs_grow
  unfold depth
  omega

/-- **Lowering a root keeps the others bare.** -/
theorem bare (h : Lowered settings root p siblings site r q S p') (hx : p.Bare x) : p'.Bare x := by
  obtain ⟨content, hcontent, hparts⟩ := hx
  have hdecls := h.confined.decls
  refine ⟨content, hdecls _ _ hcontent, fun part hpart => ?_⟩
  obtain ⟨hb, hmembers⟩ := hparts part hpart
  refine ⟨(h.bounded hb).mono h.depth_le, fun d content' hreach hd => ?_⟩
  rcases h.reached hb hreach with hold | ⟨e, heq, -⟩
  · cases hdepth : p.depth with
    | zero =>
      rw [hdepth] at hb
      exact hb.elim
    | succ levels =>
      rw [hdepth] at hb
      obtain ⟨label, hlabel, -⟩ := hb.reached hold
      obtain ⟨content₁, hd₁, -⟩ := Option.map_eq_some_iff.1 hlabel
      obtain rfl : content₁ = content' := Option.some.inj ((hdecls _ _ hd₁).symm.trans hd)
      obtain ⟨hmember, hinner⟩ := hmembers d content₁ hold hd₁
      exact ⟨(relists_of_keeps hdecls).isMember hmember, hinner⟩
  · cases heq

/-! ## §3. What was lowered is bare. -/

/-- Below clean code stands clean code only. -/
theorem clean_of_reached {rank : ExprId → Nat} (htidy : Tidy m S rank p') (he : Clean m S p' e)
    (hreach : Relation.ReflTransGen p'.Follows (.expr e) place) :
    ∃ x, place = .expr x ∧ Clean m S p' x := by
  induction hreach with
  | refl => exact ⟨e, rfl, he⟩
  | tail _ hstep ih =>
    obtain ⟨x, rfl, hx⟩ := ih
    have hnode : ∃ node, p'.exprs.get? x = some node ∧ (∀ d, node ≠ .decl d)
        ∧ ∀ y ∈ node.operands, Clean m S p' y := by
      rcases hx with hx | ⟨hlow, hhigh⟩
      · exact htidy.swept hx
      · obtain ⟨node, hnode⟩ := Arena.exists_get?_of_lt hhigh
        obtain ⟨-, hplaced, hoperands⟩ := htidy.ranked hlow hnode
        exact ⟨node, hnode, hplaced, fun y hy => .inr ⟨(hoperands y hy).1, (hoperands y hy).2.1⟩⟩
    obtain ⟨node, hnode, hplaced, hoperands⟩ := hnode
    obtain ⟨label, hlabel, hinner⟩ := hstep
    rw [(label?_eq_expr.2 ⟨rfl, hnode⟩ : p'.label? (.expr x) = _)] at hlabel
    cases hlabel
    cases node with
    | decl d => exact absurd rfl (hplaced d)
    | _ =>
      simp only [Label.followed, Label.places, List.mem_map] at hinner
      obtain ⟨y, hy, rfl⟩ := hinner
      exact ⟨y, rfl, hoperands y hy⟩

/-- A callable with clean code is bare, and declares nothing at all. -/
theorem plain_of_clean (h : Lowered settings root p siblings site r q S p') {content : Declaration}
    (hx : p'.decls.get? x = some content) (hcallable : content.isCallable = true)
    (hcode : ∀ e, content.code = some e → Clean q.exprs.size S p' e) : p'.Plain x := by
  obtain ⟨rank, htidy⟩ := h.filled.tidy
  have hcodes : ∀ part ∈ content.parts, ∃ e, content.code = some e ∧ part = .expr e := by
    intro part hpart
    cases content with
    | function f => simpa [Declaration.parts, Declaration.code, eq_comm] using hpart
    | constructor c => simpa [Declaration.parts, Declaration.code, eq_comm] using hpart
    | _ => cases hcallable
  have hnone : ∀ part ∈ content.parts, ∀ d, ¬ Relation.ReflTransGen p'.Follows part (.decl d) := by
    intro part hpart d hreach
    obtain ⟨e, he, rfl⟩ := hcodes part hpart
    obtain ⟨y, hy, -⟩ := clean_of_reached htidy (hcode e he) hreach
    cases hy
  refine ⟨⟨content, hx,
    fun part hpart => ⟨?_, fun d _ hreach _ => absurd hreach (hnone part hpart d)⟩⟩, ?_⟩
  swap
  · rintro d ⟨content', hx', part, hpart, hreach⟩
    obtain rfl : content = content' := Option.mem_unique hx hx'
    exact hnone part hpart d hreach
  obtain ⟨e, he, rfl⟩ := hcodes part hpart
  have hclean := hcode e he
  have hopen : p.Below root (.expr e) ∨ q.exprs.size ≤ e.index := by
    rcases hclean with hS | hfresh
    · have := h.filled.opened e hS
      rwa [Touched.Open, h.builds.atRoot] at this
    · exact .inr hfresh.1
  rcases hopen with hbelow | hlow
  · -- what is reached from the root nested within the depth before
    obtain ⟨-, hcollects⟩ := locals_spec h.builds.locals
    exact (h.bounded (hcollects.ends.bounded hbelow)).mono h.depth_le
  · have hhigh : e.index < p'.exprs.size := by
      rcases hclean with hS | hfresh
      · obtain ⟨node, hnode, -⟩ := htidy.swept hS
        exact Arena.lt_size_of_get? hnode
      · exact hfresh.2
    obtain ⟨node, hnode⟩ := Arena.exists_get?_of_lt hhigh
    have hrank := (htidy.ranked hlow hnode).1
    refine (bounded_fresh htidy hlow hhigh).mono ?_
    have := h.depth_le
    unfold depth
    omega

/-- **A root that was lowered is bare.** -/
theorem plain_root (h : Lowered settings root p siblings site r q S p')
    (hroot : ∃ content, p.decls.get? root = some content ∧ content.isCallable = true) :
    p'.Plain root := by
  obtain ⟨content, hcontent, hcallable⟩ := hroot
  obtain ⟨content', hcontent', hclean⟩ := h.body
  obtain rfl : content' = content :=
    Option.some.inj (hcontent'.symm.trans (h.confined.decls _ _ hcontent))
  refine h.plain_of_clean hcontent' hcallable fun e he => hclean e ?_
  cases content' with
  | function f => exact he
  | constructor c => exact he
  | _ => cases hcallable

end Lowering.Lowered

namespace Program

variable {p p' : Program} {good good' : DeclId → Prop} {dest : Option DeclId}

/-- A member of a class that is no class, and whose callables are good. -/
def MemberWith (p : Program) (good : DeclId → Prop) (m : DeclId) : Prop :=
  ∃ content, p.decls.get? m = some content ∧ (∀ c, content ≠ .cls c)
    ∧ (content.isCallable = true → good m)
    ∧ ∀ x, content = .property x → ∀ a ∈ x.getter.toList ++ x.setter.toList,
      (∃ f, p.decls.get? a = some (.function f)) ∧ good a

/-- A lifted function or class that stands where it was lifted to, and whose callables are good. -/
def SiblingWith (p : Program) (good : DeclId → Prop) (dest : Option DeclId) (s : DeclId) : Prop :=
  (∃ f, p.decls.get? s = some (.function f) ∧ good s)
    ∨ ∃ c, p.decls.get? s = some (.cls c) ∧ c.parent = dest ∧ ∀ m ∈ c.members, p.MemberWith good m

theorem SiblingWith.transfer (h : p.SiblingWith good dest s)
    (hs : ∀ content, p.decls.get? s = some content → p'.decls.get? s = some content)
    (hothers : ∀ d content, p.decls.get? d = some content → (∀ c, content ≠ .cls c) →
      p'.decls.get? d = some content)
    (hgood : ∀ x, (∀ c, p.decls.get? x ≠ some (.cls c)) → good x → good' x) :
    p'.SiblingWith good' dest s := by
  rcases h with ⟨f, hf, hx⟩ | ⟨c, hc, hparent, hmembers⟩
  · refine .inl ⟨f, hs _ hf, hgood s (fun c hc => ?_) hx⟩
    rw [hf] at hc
    cases hc
  · refine .inr ⟨c, hs _ hc, hparent, fun m hm => ?_⟩
    obtain ⟨content, hcontent, hclass, hcallable, haccessors⟩ := hmembers m hm
    refine ⟨content, hothers m content hcontent hclass, hclass, fun hcall => ?_,
      fun x hx a ha => ?_⟩
    · refine hgood m (fun c' hc' => ?_) (hcallable hcall)
      rw [hcontent] at hc'
      exact hclass c' (Option.some.inj hc')
    · obtain ⟨⟨f, hf⟩, hga⟩ := haccessors x hx a ha
      refine ⟨⟨f, hothers a _ hf (by rintro c ⟨⟩)⟩, hgood a (fun c' hc' => ?_) hga⟩
      rw [hf] at hc'
      cases hc'

end Program

namespace Lowering.Lowered

open Program

variable {settings : Settings} {root : DeclId} {p p' q : Program} {siblings : List DeclId}
  {site : Site} {r : Relocation} {S : Set ExprId}

theorem memberWith_of_complete (h : Lowered settings root p siblings site r q S p') {m : DeclId}
    (hm : Complete p.decls.size q.exprs.size S p' m) : p'.MemberWith p'.Plain m := by
  obtain ⟨-, content, hcontent, hclass, hclean, haccessors⟩ := hm
  refine ⟨content, hcontent, hclass, fun hcallable => h.plain_of_clean hcontent hcallable hclean,
    fun x hx a ha => ?_⟩
  obtain ⟨⟨f, hf⟩, content', hcontent', hclean'⟩ := haccessors x hx a ha
  obtain rfl : content' = .function f := Option.mem_unique hcontent' hf
  exact ⟨⟨f, hf⟩, h.plain_of_clean hcontent' rfl hclean'⟩

/-- **What was lifted is bare**, and stands where the root stands. -/
theorem plain_sibling (h : Lowered settings root p siblings site r q S p') (hs : s ∈ siblings) :
    p.decls.size ≤ s.index ∧ p'.SiblingWith p'.Plain ((p.decls.get? root).bind (·.parent)) s := by
  obtain ⟨d, hd, hr⟩ := forall₂_left h.siblings hs
  obtain ⟨hsorted, -⟩ := locals_spec h.builds.locals
  have hdest : site.destination p = (p.decls.get? root).bind (·.parent) := by
    unfold Site.destination
    rw [h.builds.atRoot]
  obtain ⟨hlow, old, new, ⟨hold, -⟩, hnew, hmirrors⟩ := h.raised.images hr
  obtain ⟨content, hcontent, hrefills⟩ := h.filled.touched.refills hnew
  refine ⟨hlow, ?_⟩
  rcases List.mem_append.1 hd with hfunction | hclass
  · obtain ⟨-, -, f, hf⟩ := (hsorted.functions d).1 hfunction
    obtain rfl : old = .function f := Option.mem_unique hold hf
    cases new with
    | function g =>
      cases hrefills
      obtain ⟨content', hcontent', hclean⟩ := h.functions d hfunction s hr
      obtain rfl : content' = .function g := Option.mem_unique hcontent' hcontent
      exact .inl ⟨g, hcontent, h.plain_of_clean hcontent rfl hclean⟩
    | _ => exact hmirrors.elim
  · obtain ⟨-, -, c, hc⟩ := (hsorted.classes d).1 hclass
    obtain rfl : old = .cls c := Option.mem_unique hold hc
    cases new with
    | cls c' =>
      have hcls : ∃ c'', content = .cls c'' ∧ c''.parent = c'.parent := by
        cases hrefills with
        | same => exact ⟨c', rfl, rfl⟩
        | members ms => exact ⟨_, rfl, rfl⟩
      obtain ⟨c'', rfl, hparent⟩ := hcls
      refine .inr ⟨c'', hcontent, hparent.trans (hmirrors.2.trans hdest), fun m hm => ?_⟩
      exact h.memberWith_of_complete (h.filled.members hr hcontent m hm).1
    | _ => exact hmirrors.elim

/-- No two siblings are the same. -/
theorem siblings_nodup (h : Lowered settings root p siblings site r q S p') : siblings.Nodup := by
  obtain ⟨hsorted, -⟩ := locals_spec h.builds.locals
  have hlifted : site.locals.lifted.Nodup := by
    refine List.nodup_append.2 ⟨OrderedMap.keys_nodup _, OrderedMap.keys_nodup _, ?_⟩
    rintro d hd _ hd' rfl
    obtain ⟨-, -, f, hf⟩ := (hsorted.functions d).1 hd
    obtain ⟨-, -, c, hc⟩ := (hsorted.classes d).1 hd'
    cases hf.symm.trans hc
  have transfer : ∀ {ds xs : List DeclId}, List.Forall₂ (fun d x => r.get? d = some x) ds xs →
      ds.Nodup → xs.Nodup := by
    intro ds xs hrel
    induction hrel with
    | nil => exact fun _ => .nil
    | cons hx hrest ih =>
      intro hnodup
      obtain ⟨hd, hds⟩ := List.nodup_cons.1 hnodup
      refine List.nodup_cons.2 ⟨fun hmem => hd ?_, ih hds⟩
      obtain ⟨d', hd', hx'⟩ := forall₂_left hrest hmem
      rwa [h.raised.injective hx hx']
  exact transfer h.siblings hlifted

/-- A root with something in its tables is not bare. -/
theorem not_bare (h : Lowered settings root p siblings site r q S p')
    (hfull : site.locals.isEmpty = false) : ¬ p.Bare root := by
  intro hbare
  obtain ⟨l, hl, hempty⟩ := bare_iff_locals.1 hbare
  cases hl.symm.trans h.builds.locals
  exact absurd (hfull.symm.trans hempty) (by decide)

/-- A root that is not bare gets siblings. -/
theorem siblings_ne_nil (h : Lowered settings root p siblings site r q S p')
    (hroot : ¬ p.Bare root) : siblings ≠ [] := by
  rintro rfl
  have hnone : site.locals.lifted = [] := List.forall₂_nil_right_iff.1 h.siblings
  obtain ⟨hfunctions, hclasses⟩ := List.append_eq_nil_iff.1 hnone
  refine hroot (bare_iff_locals.2 ⟨_, h.builds.locals, ?_⟩)
  simp only [OrderedMap.keys, List.map_eq_nil_iff] at hfunctions hclasses
  simp [Locals.isEmpty, OrderedMap.isEmpty, hfunctions, hclasses]

end Lowering.Lowered

/-! ## §4. Listing siblings. -/

namespace Program

variable {p p' : Program}

/-- What is declared below a bare root is bare itself. -/
theorem Bare.below (hx : p.Bare x) (hd : p.Below x (.decl d)) : p.Bare d := by
  obtain ⟨content, hcontent, hparts⟩ := hx
  obtain ⟨content₁, hcontent₁, part, hpart, hreach⟩ := hd
  obtain rfl : content = content₁ := Option.mem_unique hcontent hcontent₁
  obtain ⟨hb, hmembers⟩ := hparts part hpart
  have hbd := hb.reached hreach
  cases hdepth : p.depth with
  | zero =>
    rw [hdepth] at hbd
    exact hbd.elim
  | succ levels =>
    rw [hdepth] at hbd
    obtain ⟨label, hlabel, -⟩ := hbd
    obtain ⟨inner, hinner, rfl⟩ := Option.map_eq_some_iff.1 hlabel
    refine ⟨inner, hinner, fun part' hpart' => ?_⟩
    have hstep : p.Follows (.decl d) part' := ⟨.decl d inner, hlabel, hpart'⟩
    refine ⟨hb.reached (hreach.tail hstep), fun d' content' hreach' hd' => ?_⟩
    exact hmembers d' content' ((hreach.tail hstep).trans hreach') hd'

/-- The root is one that a child of the container brings. -/
def RootIn (p : Program) (container : Option DeclId) (root : DeclId) : Prop :=
  ∃ children child rs, p.children container = .ok children ∧ child ∈ children
    ∧ p.rootsOf child = .ok rs ∧ root ∈ rs

/-- A child brings itself or its accessors. -/
theorem rootsOf_spec {rs : List DeclId} (h : p.rootsOf child = .ok rs) (hroot : root ∈ rs) :
    ∃ content, p.decls.get? child = some content ∧ (root = child ∧ content.isCallable = true
      ∨ ∃ q, content = .property q ∧ root ∈ q.getter.toList ++ q.setter.toList) := by
  cases hchild : p.decls.get? child with
  | none =>
    simp only [rootsOf, decl, Arena.lookup, hchild] at h
    cases h
  | some content =>
    simp only [rootsOf, decl, Arena.lookup, hchild] at h
    refine ⟨content, rfl, ?_⟩
    cases content with
    | function f =>
      cases h
      exact .inl ⟨List.mem_singleton.1 hroot, rfl⟩
    | constructor c =>
      cases h
      exact .inl ⟨List.mem_singleton.1 hroot, rfl⟩
    | property q =>
      cases h
      exact .inr ⟨q, rfl, hroot⟩
    | cls c =>
      cases h
      cases hroot
    | field f =>
      cases h
      cases hroot

theorem children_some {ds : List DeclId} (h : p.children (some k) = .ok ds) (hchild : child ∈ ds) :
    ∃ c, p.decls.get? k = some (.cls c) ∧ c.members = ds := by
  cases hk : p.decls.get? k with
  | none =>
    simp only [children, decl, Arena.lookup, hk] at h
    cases h
  | some content =>
    simp only [children, decl, Arena.lookup, hk] at h
    cases content with
    | cls c =>
      cases h
      exact ⟨c, rfl, rfl⟩
    | _ =>
      cases h
      cases hchild

/-- A bare root does not reach the container of a root that is not bare. -/
theorem Bare.not_below (hx : p.Bare x) (hin : p.RootIn (some k) root) (hroot : ¬ p.Bare root) :
    ¬ p.Below x (.decl k) := by
  intro hk
  obtain ⟨children, child, rs, hchildren, hchild, hrs, hmem⟩ := hin
  obtain ⟨c, hc, rfl⟩ := children_some hchildren hchild
  have hbelow : p.Below x (.decl child) := hk.part hc (List.mem_map_of_mem hchild)
  obtain ⟨content, hcontent, ⟨rfl, -⟩ | ⟨q, rfl, haccessor⟩⟩ := rootsOf_spec hrs hmem
  · exact hroot (hx.below hbelow)
  · exact hroot
      (hx.below (hbelow.part hcontent (List.mem_append_left _ (List.mem_map_of_mem haccessor))))

/-- Only the members of one class have changed. -/
structure SetsMembers (p : Program) (k : DeclId) (p' : Program) : Prop where
  exprs : p'.exprs = p.exprs
  values : p'.values = p.values
  top : p'.top = p.top
  size : p'.decls.size = p.decls.size
  others : ∀ d, d ≠ k → p'.decls.get? d = p.decls.get? d
  cls : ∃ c ms, p.decls.get? k = some (.cls c)
    ∧ p'.decls.get? k = some (.cls { c with members := ms })

namespace SetsMembers

variable {k : DeclId}

theorem relists (h : p.SetsMembers k p') : p.Relists p' := by
  intro d content hd
  by_cases hdk : d = k
  · subst hdk
    obtain ⟨c, ms, hc, hc'⟩ := h.cls
    obtain rfl : content = .cls c := Option.mem_unique hd hc
    exact ⟨_, hc', .inr ⟨c, ms, rfl, rfl⟩⟩
  · exact ⟨content, (h.others d hdk).trans hd, .inl rfl⟩

/-- Any place but the class itself leads where it led. -/
theorem label_followed (h : p.SetsMembers k p') (hplace : place ≠ .decl k)
    (hlabel : p.label? place = some label) :
    ∃ label', p'.label? place = some label' ∧ label'.followed = label.followed := by
  cases label with
  | expr e node =>
    obtain ⟨rfl, hnode⟩ := label?_eq_expr.1 hlabel
    exact ⟨.expr e node, label?_eq_expr.2 ⟨rfl, by rw [h.exprs]; exact hnode⟩, rfl⟩
  | decl d content =>
    obtain ⟨rfl, hd⟩ := label?_eq_decl.1 hlabel
    have hdk : d ≠ k := fun heq => hplace (heq ▸ rfl)
    exact ⟨.decl d content, label?_eq_decl.2 ⟨rfl, (h.others d hdk).trans hd⟩, rfl⟩
  | backing d content =>
    obtain ⟨rfl, hd⟩ := label?_eq_backing.1 hlabel
    obtain ⟨content', hd', rfl | ⟨c, ms, rfl, rfl⟩⟩ := h.relists _ _ hd
    · exact ⟨.backing d content', label?_eq_backing.2 ⟨rfl, hd'⟩, rfl⟩
    · exact ⟨_, label?_eq_backing.2 ⟨rfl, hd'⟩, rfl⟩

theorem bounded (h : p.SetsMembers k p') (hb : p.Bounded levels place)
    (hk : ¬ Relation.ReflTransGen p.Follows place (.decl k)) : p'.Bounded levels place := by
  induction levels generalizing place with
  | zero => exact hb.elim
  | succ levels ih =>
    obtain ⟨label, hlabel, hinner⟩ := hb
    obtain ⟨label', hlabel', hfollowed⟩ := h.label_followed (fun heq => hk (heq ▸ .refl)) hlabel
    refine ⟨label', hlabel', fun inner hmem => ?_⟩
    rw [hfollowed] at hmem
    exact ih (hinner inner hmem) fun hreach => hk (.head ⟨label, hlabel, hmem⟩ hreach)

theorem reached (h : p.SetsMembers k p') (hb : p.Bounded levels start)
    (hk : ¬ Relation.ReflTransGen p.Follows start (.decl k))
    (hreach : Relation.ReflTransGen p'.Follows start place) :
    Relation.ReflTransGen p.Follows start place := by
  induction hreach with
  | refl => exact .refl
  | tail _ hstep ih =>
    cases levels with
    | zero => exact hb.elim
    | succ levels =>
      obtain ⟨label, hlabel, -⟩ := hb.reached ih
      obtain ⟨label', hlabel', hfollowed⟩ := h.label_followed (fun heq => hk (heq ▸ ih)) hlabel
      obtain ⟨label₁, hlabel₁, hmem⟩ := hstep
      obtain rfl : label' = label₁ := Option.mem_unique hlabel' hlabel₁
      rw [hfollowed] at hmem
      exact ih.tail ⟨label, hlabel, hmem⟩

/-- **Listing siblings keeps bare what does not reach their container.** -/
theorem bare (h : p.SetsMembers k p') (hx : p.Bare x) (hxk : x ≠ k)
    (hk : ¬ p.Below x (.decl k)) : p'.Bare x := by
  obtain ⟨content, hcontent, hparts⟩ := hx
  refine ⟨content, (h.others x hxk).trans hcontent, fun part hpart => ?_⟩
  obtain ⟨hb, hmembers⟩ := hparts part hpart
  have hpk : ¬ Relation.ReflTransGen p.Follows part (.decl k) := fun hreach =>
    hk ⟨content, hcontent, part, hpart, hreach⟩
  have hdepth : p'.depth = p.depth := by
    unfold depth
    rw [h.size, h.exprs]
  refine ⟨hdepth ▸ h.bounded hb hpk, fun d content' hreach hd => ?_⟩
  have hreach' := h.reached hb hpk hreach
  have hdk : d ≠ k := fun heq => hpk (heq ▸ hreach')
  obtain ⟨hmember, hinner⟩ := hmembers d content' hreach' ((h.others d hdk).symm.trans hd)
  exact ⟨h.relists.isMember hmember, hinner⟩

end SetsMembers

/-- What is bare depends on declarations and expressions only. -/
theorem bare_congr (hdecls : p'.decls = p.decls) (hexprs : p'.exprs = p.exprs)
    (hx : p.Bare x) : p'.Bare x := by
  have hlabel : p'.label? = p.label? := by
    funext place
    cases place <;> simp [label?, hdecls, hexprs]
  have hfollows : p'.Follows = p.Follows := by
    funext outer inner
    simp only [Follows, hlabel]
  have hbounded : ∀ levels place, p.Bounded levels place → p'.Bounded levels place := by
    intro levels
    induction levels with
    | zero => exact fun _ h => h.elim
    | succ levels ih =>
      rintro place ⟨label, hl, hinner⟩
      exact ⟨label, by rw [hlabel]; exact hl, fun inner hmem => ih inner (hinner inner hmem)⟩
  have hdepth : p'.depth = p.depth := by
    unfold depth
    rw [hdecls, hexprs]
  obtain ⟨content, hcontent, hparts⟩ := hx
  refine ⟨content, by rw [hdecls]; exact hcontent, fun part hpart => ?_⟩
  obtain ⟨hb, hmembers⟩ := hparts part hpart
  refine ⟨hdepth ▸ hbounded _ _ hb, fun d content' hreach hd => ?_⟩
  rw [hfollows] at hreach
  rw [hdecls] at hd
  obtain ⟨hmember, hinner⟩ := hmembers d content' hreach hd
  exact ⟨(relists_of_keeps (by rw [hdecls]; exact .refl _)).isMember hmember, hinner⟩

end Program

namespace Lowering

open Program

variable {settings : Settings} {container : Option DeclId} {root : DeclId} {p p₁ p₂ q : Program}
  {siblings : List DeclId} {site : Site} {r : Relocation} {S : Set ExprId}

/-- Listing siblings changes the list of the module, or the members of one class. -/
theorem Listed.cases (h : Listed container root siblings p p₂) :
    (container = none ∧ ∃ ds, p₂ = { p with top := ds }) ∨ ∃ k, container = some k
      ∧ p.SetsMembers k p₂ := by
  obtain ⟨hlists, content, children, children', -, -, -, hset⟩ := h
  cases container with
  | none =>
    cases hset
    exact .inl ⟨rfl, children', rfl⟩
  | some k =>
    refine .inr ⟨k, rfl, ?_⟩
    cases hk : p.decls.get? k with
    | none =>
      simp only [listsChildren, isClass, decl, Arena.lookup, hk] at hlists
      cases hlists
    | some outer =>
      obtain ⟨c, rfl⟩ : ∃ c, outer = .cls c := by
        simp only [listsChildren, isClass, decl, Arena.lookup, hk] at hlists
        cases outer with
        | cls c => exact ⟨c, rfl⟩
        | _ => cases hlists
      simp only [setChildren, modifyDecl, decl, Arena.lookup, hk] at hset
      cases hset
      refine ⟨rfl, rfl, rfl, Arena.size_set _ _ _, fun d hd => Arena.get?_set_of_ne _ _ hd,
        c, children', hk, ?_⟩
      show (p.decls.set k _).get? k = _
      rw [Arena.get?_set, if_pos ⟨rfl, Arena.lt_size_of_get? hk⟩]
      rfl

/-- What declares nothing is bare after siblings are listed. -/
theorem Listed.bare_of_plain (h : Listed container root siblings p₁ p₂) (hx : p₁.Plain x)
    (hclass : ∀ c, p₁.decls.get? x ≠ some (.cls c)) : p₂.Bare x := by
  rcases h.cases with ⟨-, ds, rfl⟩ | ⟨k, rfl, hsets⟩
  · refine bare_congr (p := p₁) ?_ ?_ hx.1 <;> rfl
  · refine hsets.bare hx.1 ?_ (hx.2 k)
    rintro rfl
    obtain ⟨c, ms, hc, -⟩ := hsets.cls
    exact hclass c hc

/-- **Lowering a root and listing its siblings keeps the other roots bare.** -/
theorem Lowered.bare_listed (h : Lowered settings root p siblings site r q S p₁)
    (hroot : ¬ p.Bare root) (hin : p.RootIn container root)
    (hlisted : Listed container root siblings p₁ p₂) (hx : p.Bare x)
    (hclass : ∀ c, p.decls.get? x ≠ some (.cls c)) : p₂.Bare x := by
  have hx₁ := h.bare hx
  rcases hlisted.cases with ⟨-, ds, rfl⟩ | ⟨k, rfl, hsets⟩
  · refine bare_congr (p := p₁) ?_ ?_ hx₁ <;> rfl
  · have hxk : x ≠ k := by
      rintro rfl
      obtain ⟨children, child, -, hchildren, hchild, -⟩ := hin
      obtain ⟨c, hc, -⟩ := children_some hchildren hchild
      exact hclass c hc
    refine hsets.bare hx₁ hxk ?_
    -- what the root reaches now it reached before
    rintro ⟨content, hcontent, part, hpart, hreach⟩
    obtain ⟨content₀, hcontent₀, hparts⟩ := id hx
    obtain rfl : content = content₀ :=
      Option.some.inj (hcontent.symm.trans (h.confined.decls _ _ hcontent₀))
    rcases h.reached (hparts part hpart).1 hreach with hold | ⟨e, heq, -⟩
    · exact hx.not_below hin hroot ⟨content, hcontent₀, part, hpart, hold⟩
    · cases heq

end Lowering

end LambdaLift
