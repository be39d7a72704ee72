/-
  LambdaLift.Proofs.Safety
  **ON A CLOSED PROGRAM NO STAGE FOLLOWS A HANDLE THAT LEADS NOWHERE.**

  A program is sound if it is closed, nothing in it is nested in itself,
  and its chains of parents end.  Lowering a root of a sound program
  answers or reports, and leaves a sound program behind; so the next root
  starts where the first one did, and a whole run is safe.

  That nothing becomes nested in itself is seen from ranks.  What was
  there keeps its rank, a replacement ranks as what it replaces, and what
  is added ranks below all that.  A container ranks above its roots, a
  root above the declarations below it, and so a container above the
  siblings it gets.

  Main results:
    * `Lowering.lowerRoot_sound` — one root;
    * `Lowering.lower_sound` — a whole run;
    * `lower_safe` — no run follows a handle that leads nowhere, and a
      finished program is closed again.
-/
import Mathlib
import LambdaLift.Proofs.Followed
import LambdaLift.Proofs.FixedPoint
import LambdaLift.Proofs.Violations
import LambdaLift.Proofs.Independent

namespace LambdaLift

variable {p p₀ : Program} {d x : DeclId} {e : ExprId} {content : Declaration}
  {a part : Place} {r : Relocation}

/-! ## §1. Ranks of a lowered program. -/

/-- Handles lead somewhere, nothing is nested in itself, and chains of parents end. -/
structure Program.Sound (p : Program) : Prop where
  closed : p.Closed
  acyclic : p.Acyclic
  chains : p.ChainsEnd

/-- What is nested in something ranks below it. -/
def Program.Falls (p : Program) (rank : Place → Nat) : Prop :=
  ∀ {a b}, p.Encloses .nested a b → rank b < rank a

theorem Program.Falls.nests {rank : Place → Nat} (h : p.Falls rank) {b : Place}
    (hab : Relation.TransGen (p.Encloses .nested) a b) : rank b < rank a := by
  induction hab with
  | single hstep => exact h hstep
  | tail _ hstep ih => exact (h hstep).trans ih

open Classical in
/-- The rank of a declaration in either of its places: that of what it replaces, if it is new and
replaces something. -/
noncomputable def Relocation.declRank (r : Relocation) (p₀ : Program) (rank : Place → Nat)
    (place : DeclId → Place) (d : DeclId) : Nat :=
  if d.index < p₀.decls.size then rank (place d) + 3
  else if h : ∃ d₀, r.get? d₀ = some d then rank (place h.choose) + 3 else 2

open Classical in
/-- Ranks after retargeting. -/
noncomputable def Relocation.ranks (r : Relocation) (p₀ p : Program)
    (rank : Place → Nat) : Place → Nat
  | .expr e =>
    if e.index < p₀.exprs.size then rank (.expr e) + 3 else if Program.Steady p₀ p e then 0 else 1
  | .decl d => r.declRank p₀ rank .decl d
  | .backing d => r.declRank p₀ rank .backing d

namespace Relocation

variable {r : Relocation} {p₀ p q : Program} {rank : Place → Nat} {place : DeclId → Place}
  {d x : DeclId} {site : Site}

theorem declRank_old (hd : d.index < p₀.decls.size) :
    r.declRank p₀ rank place d = rank (place d) + 3 := if_pos hd

theorem declRank_image (hraised : Raised p₀ site r q) (hd : r.get? d = some x) :
    r.declRank p₀ rank place x = rank (place d) + 3 := by
  have hlow := (hraised.images hd).1
  have hx : ∃ d₀, r.get? d₀ = some x := ⟨d, hd⟩
  rw [declRank, if_neg (Nat.not_lt.2 hlow), dif_pos hx, hraised.injective hx.choose_spec hd]

theorem declRank_none (hlow : p₀.decls.size ≤ x.index) (hx : ∀ d, r.get? d ≠ some x) :
    r.declRank p₀ rank place x = 2 := by
  rw [declRank, if_neg (Nat.not_lt.2 hlow), dif_neg]
  rintro ⟨d, hd⟩
  exact hx d hd

theorem ranks_old_expr (he : e.index < p₀.exprs.size) :
    r.ranks p₀ p rank (.expr e) = rank (.expr e) + 3 :=
  if_pos he

theorem ranks_new_expr (he : p₀.exprs.size ≤ e.index) : r.ranks p₀ p rank (.expr e) ≤ 1 := by
  rw [ranks, if_neg (Nat.not_lt.2 he)]
  split <;> omega

end Relocation

section

variable {p₀ q p : Program} {r : Relocation} {site : Site} {dest : Option DeclId}
  {rank : Place → Nat} {exprRank : ExprId → Nat} {B : ExprId → Prop}

/-- A part of a declaration that was there keeps its rank. -/
theorem ranks_old_part (hp₀ : p₀.Closed) (hd : p₀.decls.get? d = some content)
    (hpart : part ∈ content.parts) : r.ranks p₀ p rank part = rank part + 3 := by
  obtain ⟨label, hlabel⟩ := hp₀.exists_label (.part hd hpart)
  cases part with
  | expr e => exact Relocation.ranks_old_expr (Program.hasEntry_of_label hlabel)
  | decl x => exact Relocation.declRank_old (Program.hasEntry_of_label hlabel)
  | backing x => exact Relocation.declRank_old (Program.hasEntry_of_label hlabel)

/-- **The parts of a replacement** rank below what it replaces. -/
theorem ranks_image_part (hp₀ : p₀.Closed) (hraised : Raised p₀ site r q)
    (hfollowing : Following p₀ q r exprRank p) (htouched : Touched q p₀.decls.size B r p)
    (hexprs : q.exprs = p₀.exprs) (hd : r.get? d = some x) (hx : p.decls.get? x = some content)
    (hpart : part ∈ content.parts) {bound : Nat}
    (hbound : ∀ old, p₀.decls.get? d = some old → ∀ part ∈ old.parts, rank part < bound) :
    r.ranks p₀ p rank part < bound + 3 := by
  obtain ⟨hlow, old, new, ⟨hold, -⟩, hnew, hmirrors⟩ := hraised.images hd
  obtain ⟨content', hcontent', hrefills⟩ := htouched.refills hnew
  obtain rfl : content' = content := Option.mem_unique hcontent' hx
  have hkept : ∀ {part}, part ∈ old.parts → r.ranks p₀ p rank part < bound + 3 := by
    intro part hpart
    rw [ranks_old_part hp₀ hold hpart]
    exact Nat.add_lt_add_right (hbound old hold part hpart) 3
  have hadded : ∀ {e : ExprId}, q.exprs.size ≤ e.index →
      r.ranks p₀ p rank (.expr e) < bound + 3 := by
    intro e he
    have : r.ranks p₀ p rank (.expr e) ≤ 1 := Relocation.ranks_new_expr (hexprs ▸ he)
    omega
  cases old with
  | function f =>
    cases new with
    | function g =>
      cases hrefills
      exact hkept (by simpa [Declaration.parts, show g.body = f.body from hmirrors] using hpart)
    | _ => exact hmirrors.elim
  | constructor c =>
    cases new with
    | constructor c' =>
      cases hrefills
      exact hkept (by simpa [Declaration.parts, show c'.body = c.body from hmirrors] using hpart)
    | _ => exact hmirrors.elim
  | field f =>
    cases new with
    | field g =>
      cases hrefills with
      | same =>
        exact hkept (by simpa [Declaration.parts, show g.init = f.init from hmirrors] using hpart)
      | @init _ e hlow hhigh =>
        obtain rfl : part = .expr e := by simpa [Declaration.parts] using hpart
        exact hadded hlow
    | _ => exact hmirrors.elim
  | cls c =>
    obtain ⟨c', rfl⟩ : ∃ c', content' = .cls c' := by
      cases new with
      | cls _ => cases hrefills <;> exact ⟨_, rfl⟩
      | _ => exact hmirrors.elim
    obtain ⟨y, hy, rfl⟩ := List.mem_map.1 hpart
    obtain ⟨d', hd', ⟨c₁, m, hc₁, hm, hy⟩ | ⟨this, captured, hcontext, hy⟩⟩ :=
      hfollowing.members hlow hx y hy
    · obtain rfl := hraised.injective hd' hd
      obtain rfl : c₁ = c := Declaration.cls.inj (Option.mem_unique hc₁ hold)
      show r.declRank p₀ rank .decl y < _
      rw [Relocation.declRank_image hraised hy]
      exact Nat.add_lt_add_right (hbound _ hold _ (List.mem_map_of_mem hm)) 3
    · obtain ⟨hnone, hlowField, -⟩ := hraised.fields hcontext y hy
      show r.declRank p₀ rank .decl y < _
      rw [Relocation.declRank_none hlowField hnone]
      omega
  | property a =>
    cases new with
    | property a' =>
      cases hrefills
      obtain ⟨hgetter, hsetter, hbacking⟩ := hmirrors
      rcases List.mem_append.1 hpart with hpart | hpart
      · obtain ⟨y, hy, rfl⟩ := List.mem_map.1 hpart
        obtain ⟨z, hz, hy⟩ : ∃ z, z ∈ a.getter.toList ++ a.setter.toList ∧ r.get? z = some y := by
          rcases List.mem_append.1 hy with hy | hy
          · obtain ⟨z, -, hz, -, -, hy⟩ := hgetter y hy
            exact ⟨z, by simp [hz], hy⟩
          · obtain ⟨z, -, hz, -, -, hy⟩ := hsetter y hy
            exact ⟨z, by simp [hz], hy⟩
        show r.declRank p₀ rank .decl y < _
        rw [Relocation.declRank_image hraised hy]
        refine Nat.add_lt_add_right
          (hbound _ hold _ (List.mem_append_left _ (List.mem_map_of_mem hz))) 3
      · obtain ⟨y, hy, rfl⟩ := List.mem_map.1 hpart
        obtain ⟨z, -, hz, -, -, hy⟩ := hbacking y hy
        show r.declRank p₀ rank .backing y < _
        rw [Relocation.declRank_image hraised hy]
        refine Nat.add_lt_add_right (hbound _ hold _ (List.mem_append_right _ ?_)) 3
        simp [hz]
    | _ => exact hmirrors.elim

/-- **The parts of a declaration** rank below it, in either of its places. -/
theorem ranks_part (hp₀ : p₀.Closed) (hfounded : Founded p₀ dest q.decls.size r q)
    (hraised : Raised p₀ site r q) (hfollowing : Following p₀ q r exprRank p)
    (htouched : Touched q p₀.decls.size B r p) (place : DeclId → Place)
    (hplace : ∀ {d content part}, p₀.decls.get? d = some content → part ∈ content.parts →
      rank part < rank (place d))
    (hd : p.decls.get? d = some content) (hpart : part ∈ content.parts) :
    r.ranks p₀ p rank part < r.declRank p₀ rank place d := by
  by_cases hlow : p₀.decls.size ≤ d.index
  · obtain ⟨new, hnew⟩ :=
      Arena.exists_get?_of_lt (a := q.decls) (hfollowing.declCount ▸ Arena.lt_size_of_get? hd)
    by_cases himage : ∃ d₀, r.get? d₀ = some d
    · obtain ⟨d₀, hd₀⟩ := himage
      rw [Relocation.declRank_image hraised hd₀]
      exact ranks_image_part hp₀ hraised hfollowing htouched hfounded.lifting.exprs hd₀ hd hpart
        fun old hold part hpart => hplace hold hpart
    · -- what replaces nothing has at most an initializer that was added
      have hparts : new.parts = [] := (hfounded.origins hlow hnew).resolve_left himage
      obtain ⟨content', hcontent', hrefills⟩ := htouched.refills hnew
      obtain rfl : content' = content := Option.mem_unique hcontent' hd
      rw [Relocation.declRank_none hlow fun d₀ hd₀ => himage ⟨d₀, hd₀⟩]
      cases hrefills with
      | same =>
        rw [hparts] at hpart
        cases hpart
      | @init f e hfresh _ =>
        obtain rfl : part = .expr e := by simpa [Declaration.parts] using hpart
        have : r.ranks p₀ p rank (.expr e) ≤ 1 :=
          Relocation.ranks_new_expr (hfounded.lifting.exprs ▸ hfresh)
        omega
      | members ms =>
        obtain ⟨y, hy, rfl⟩ := List.mem_map.1 hpart
        obtain ⟨d₀, hd₀, -⟩ := hfollowing.members hlow hd y hy
        exact absurd ⟨d₀, hd₀⟩ himage
  · obtain ⟨old, hold⟩ := Arena.exists_get?_of_lt (Nat.lt_of_not_le hlow)
    obtain rfl : old = content := Option.some.inj ((hfollowing.kept _ _ hold).symm.trans hd)
    rw [Relocation.declRank_old (Nat.lt_of_not_le hlow), ranks_old_part hp₀ hold hpart]
    exact Nat.add_lt_add_right (hplace hold hpart) 3

/-- **The ranks after retargeting fall.** -/
theorem ranks_falls (hp₀ : p₀.Closed) (hrank : p₀.Falls rank)
    (hfounded : Founded p₀ dest q.decls.size r q) (hraised : Raised p₀ site r q)
    (hfollowing : Following p₀ q r exprRank p) (htouched : Touched q p₀.decls.size B r p) :
    p.Falls (r.ranks p₀ p rank) := by
  rintro a b ⟨label, hlabel, hb⟩
  cases label with
  | decl d content =>
    obtain ⟨rfl, hd⟩ := Program.label?_eq_decl.1 hlabel
    refine ranks_part hp₀ hfounded hraised hfollowing htouched .decl (fun hd hpart => ?_) hd hb
    exact hrank (.part hd hpart)
  | backing d content =>
    obtain ⟨rfl, hd⟩ := Program.label?_eq_backing.1 hlabel
    refine ranks_part hp₀ hfounded hraised hfollowing htouched .backing (fun hd hpart => ?_) hd hb
    exact hrank ⟨.backing _ _, Program.label?_eq_backing.2 ⟨rfl, hd⟩, hpart⟩
  | expr e node =>
    obtain ⟨rfl, he⟩ := Program.label?_eq_expr.1 hlabel
    by_cases hlow : p₀.exprs.size ≤ e.index
    · -- an added node reads a value, or a field of a receiver that is steady
      rcases hfollowing.light hlow he with ⟨v, rfl⟩ | ⟨f, x, rfl, hx⟩
      · cases hb
      · obtain rfl : b = .expr x := by simpa [Label.places, Expr.operands] using hb
        have hne : ¬ Program.Steady p₀ p e := by
          rintro ⟨-, v, hv, -⟩
          cases hv.symm.trans he
        rw [Relocation.ranks, if_neg (Nat.not_lt.2 hx.1), if_pos hx, Relocation.ranks,
          if_neg (Nat.not_lt.2 hlow), if_neg hne]
        exact Nat.zero_lt_one
    · have hlt : e.index < p₀.exprs.size := Nat.lt_of_not_le hlow
      obtain ⟨old, hold⟩ := Arena.exists_get?_of_lt hlt
      rw [Relocation.ranks_old_expr hlt]
      have hsame :=
        htouched.exprs (show q.exprs.get? e = some old by rw [hfounded.lifting.exprs]; exact hold)
      have hoperand : ∀ x ∈ node.operands, r.ranks p₀ p rank (.expr x) < rank (.expr e) + 3 := by
        intro x hx
        by_cases hxlow : p₀.exprs.size ≤ x.index
        · have : r.ranks p₀ p rank (.expr x) ≤ 1 := Relocation.ranks_new_expr hxlow
          omega
        rw [Relocation.ranks_old_expr (Nat.lt_of_not_le hxlow)]
        refine Nat.add_lt_add_right (hrank (.operand hold ?_)) 3
        rcases hsame with hsame | ⟨-, node', hnode', hthins⟩
        · exact Option.mem_unique hsame he ▸ hx
        · obtain rfl : node' = node := Option.mem_unique hnode' he
          exact (hthins.operands x hx).resolve_right fun hge =>
            hxlow (hfounded.lifting.exprs ▸ hge.1)
      have operands : b ∈ node.operands.map Place.expr →
          r.ranks p₀ p rank b < rank (.expr e) + 3 := by
        intro hb
        obtain ⟨x, hx, rfl⟩ := List.mem_map.1 hb
        exact hoperand x hx
      cases node with
      | decl d =>
        obtain rfl : b = .decl d := by simpa [Label.places] using hb
        rcases hsame with hsame | ⟨-, node', hnode', hthins⟩
        · obtain rfl : old = .decl d := Option.mem_unique hsame he
          obtain ⟨content, hcontent⟩ :=
            hp₀.exists_decl_of_expr hold (d := d) (by simp [Expr.namedDecls])
          show r.declRank p₀ rank .decl d < _
          rw [Relocation.declRank_old (Arena.lt_size_of_get? hcontent)]
          exact Nat.add_lt_add_right (hrank (.placed hold)) 3
        · exact absurd (Option.mem_unique hnode' he) (hthins.placed d)
      | _ => exact operands hb

end

/-! ## §2. Chains of parents. -/

namespace Program

variable {p₀ p : Program}

theorem Closed.chainsEnd (hp : p.Closed)
    (hacyclic : ∀ x, ¬ Relation.TransGen p.Parent x x) : p.ChainsEnd := by
  intro i hi
  refine chain_ends (fun x hx => ?_) fun x _ => hacyclic x
  rcases Relation.ReflTransGen.cases_tail hx with rfl | ⟨y, -, content, hy, hparent⟩
  · exact Arena.exists_get?_of_lt hi
  · exact hp.exists_parent hy hparent

/-- **Chains still end** if what is new stands in the destination, or in something that does. -/
theorem ChainsEnd.of_keeps (hp₀ : p₀.Closed) (hchains : p₀.ChainsEnd) (hp : p.Closed)
    (hkept : p₀.decls.Keeps p.decls) {dest : Option DeclId}
    (hdest : ∀ y ∈ dest.toList, y.index < p₀.decls.size) (hparents : ∀ {x content},
      p₀.decls.size ≤ x.index → p.decls.get? x = some content → content.parent = dest
      ∨ ∃ y outer, content.parent = some y ∧ p.decls.get? y = some outer
      ∧ outer.parent = dest) : p.ChainsEnd := by
  have hstep : ∀ {x y}, x.index < p₀.decls.size → p.Parent x y →
      y.index < p₀.decls.size ∧ p₀.Parent x y := by
    rintro x y hx ⟨content, hcontent, hparent⟩
    obtain ⟨old, hold⟩ := Arena.exists_get?_of_lt hx
    obtain rfl : old = content := Option.some.inj ((hkept _ _ hold).symm.trans hcontent)
    obtain ⟨outer, houter⟩ := hp₀.exists_parent hold hparent
    exact ⟨Arena.lt_size_of_get? houter, old, hold, hparent⟩
  have hpath : ∀ {x y}, Relation.ReflTransGen p.Parent x y → x.index < p₀.decls.size →
      y.index < p₀.decls.size := by
    intro x y hxy hx
    induction hxy with
    | refl => exact hx
    | tail _ hyz ih => exact (hstep ih hyz).1
  have hnone : ∀ {x y : DeclId} {content : Declaration}, ¬ y.index < p₀.decls.size →
      content.parent = some y →
      content.parent ≠ dest := by
    intro x y content hy hparent hsame
    exact hy (hdest y (by rw [← hsame, hparent]; exact List.mem_singleton.2 rfl))
  refine hp.chainsEnd fun x hcycle => ?_
  by_cases hx : x.index < p₀.decls.size
  · have hlift : ∀ {y}, Relation.TransGen p.Parent x y → Relation.TransGen p₀.Parent x y
        ∧ y.index < p₀.decls.size := by
      intro y hxy
      induction hxy with
      | single hstep' => exact ⟨.single (hstep hx hstep').2, (hstep hx hstep').1⟩
      | tail _ hstep' ih => exact ⟨ih.1.tail (hstep ih.2 hstep').2, (hstep ih.2 hstep').1⟩
    exact hchains.acyclic x (hlift hcycle).1
  · -- a new declaration leads to what was there in two steps, and from there nothing leads back
    obtain ⟨y, ⟨content, hcontent, hparent⟩, hback⟩ := Relation.TransGen.head'_iff.1 hcycle
    have hy : ¬ y.index < p₀.decls.size := fun hy => hx (hpath hback hy)
    obtain ⟨y', outer, hy', houter, hdest'⟩ :=
      (hparents (Nat.le_of_not_lt hx) hcontent).resolve_left (hnone (x := x) hy hparent)
    obtain rfl : y = y' := Option.mem_unique hparent hy'
    obtain ⟨z, hz, hzx⟩ : ∃ z, outer.parent = some z ∧ Relation.ReflTransGen p.Parent z x := by
      rcases Relation.ReflTransGen.cases_head hback with rfl | ⟨z, ⟨outer', houter', hz⟩, hzx⟩
      · obtain rfl : content = outer := Option.mem_unique hcontent houter
        exact ⟨y, hparent, .refl⟩
      · obtain rfl : outer' = outer := Option.mem_unique houter' houter
        exact ⟨z, hz, hzx⟩
    exact hnone (x := y) (fun hzlt => hx (hpath hzx hzlt)) hz hdest'

end Program

/-! ## §3. One root. -/

namespace Lowering

/-- A root of a sound program was lowered: the program is sound again, and what ranked above the
root ranks above the siblings it got. -/
structure Hoisted (p : Program) (root : DeclId) (siblings : List DeclId) (p' : Program) : Prop where
  sound : p'.Sound
  there : ∀ x ∈ siblings, x.index < p'.decls.size
  ranked : ∃ rank, p'.Falls rank ∧ ∀ a, Relation.TransGen (p.Encloses .nested) a (.decl root) →
    ∀ x ∈ siblings, rank (.decl x) < rank a

variable {settings : Settings} {root : DeclId} {w : Work}

/-- What was there keeps its rank. -/
theorem ranks_of_label {rank : Place → Nat} {label : Label} (h : p₀.label? a = some label) :
    r.ranks p₀ p rank a = rank a + 3 := by
  cases a with
  | expr e => exact Relocation.ranks_old_expr (Program.hasEntry_of_label h)
  | decl d => exact Relocation.declRank_old (Program.hasEntry_of_label h)
  | backing d => exact Relocation.declRank_old (Program.hasEntry_of_label h)

/-- **A lowered program is sound.** -/
theorem sound_of_followed {q : Program} {site : Site} {exprRank : ExprId → Nat} {B : ExprId → Prop}
    (hp₀ : p₀.Sound) (hsite : site.Sound p₀)
    (hfounded : Founded p₀ (site.destination p₀) q.decls.size r q) (hraised : Raised p₀ site r q)
    (hfollowing : Following p₀ q r exprRank p)
    (htouched : Touched q p₀.decls.size B r p) {siblings : List DeclId}
    (hsiblings : ∀ x ∈ siblings, ∃ d ∈ site.locals.lifted, r.get? d = some x) :
    Hoisted p₀ site.root siblings p := by
  obtain ⟨rank, hrank⟩ := hp₀.acyclic.exists_rank hp₀.closed
  have hfalls : p.Falls (r.ranks p₀ p rank) :=
    ranks_falls hp₀.closed hrank hfounded hraised hfollowing htouched
  have hclosed : p.Closed := Program.closed_iff.2 (hfollowing.declCount.symm ▸ hfollowing.closed)
  refine ⟨⟨hclosed, .of_rank hfalls, ?_⟩, fun x hx => ?_, _, hfalls, fun a ha x hx => ?_⟩
  · refine Program.ChainsEnd.of_keeps hp₀.closed hp₀.chains hclosed hfollowing.kept
      (fun y hy => hsite.dest_lt hy) ?_
    intro x content hlow hx
    obtain ⟨new, hnew⟩ :=
      Arena.exists_get?_of_lt (a := q.decls) (hfollowing.declCount ▸ Arena.lt_size_of_get? hx)
    obtain ⟨content', hcontent', hrefills⟩ := htouched.refills hnew
    obtain rfl : content' = content := Option.mem_unique hcontent' hx
    rw [hrefills.parent]
    refine (hfounded.lifting.parents hlow hnew).imp id ?_
    rintro ⟨y, outer, hparent, houter, hdest⟩
    obtain ⟨outer', houter', hrefills'⟩ := htouched.refills houter
    exact ⟨y, outer', hparent, houter', hrefills'.parent.trans hdest⟩
  · obtain ⟨d, -, hd⟩ := hsiblings x hx
    exact hfollowing.declCount ▸ (hfounded.lifting.moved hd).2.2
  · obtain ⟨d, hmem, hd⟩ := hsiblings x hx
    have hbelow : p₀.Below site.root (.decl d) := by
      rcases List.mem_append.1 hmem with hmem | hmem
      · exact ((hsite.sorted.functions d).1 hmem).1
      · exact ((hsite.sorted.classes d).1 hmem).1
    obtain ⟨_, ⟨label, hlabel, -⟩, -⟩ := Relation.TransGen.head'_iff.1 ha
    rw [ranks_of_label hlabel]
    show r.declRank p₀ rank .decl x < _
    rw [Relocation.declRank_image hraised hd]
    have hfall : p₀.Falls rank := hrank
    exact Nat.add_lt_add_right (hfall.nests (ha.trans hbelow.nests)) 3

/-- **The stages of a root** answer or report. -/
theorem lowerLocals_sound (hw : w.program.Sound) {locals : Locals}
    (hlocals : w.program.locals root = .ok locals) :
    (lowerLocals settings root locals).Ends w
      (fun siblings w' => Hoisted w.program root siblings w'.program)
      Fault.Reports := by
  obtain ⟨hsorted, hcollects⟩ := Program.locals_spec hlocals
  obtain ⟨content, hroot, -⟩ := hcollects.ends
  obtain ⟨exprRank, hranked, hbound⟩ := hw.acyclic.exists_exprRank hw.closed
  -- the closures hold values that are used below the root
  have hclosures :=
    Program.closures_alike hw.closed hw.chains hroot (hw.acyclic.acyclicAt _ _) (.refl _ root)
  generalize hresult : w.program.closures root = result at hclosures
  cases hclosures with
  | error hbot => exact hbot.elim
  | @ok answer hholds =>
    obtain ⟨closures, events⟩ := answer
    unfold lowerLocals
    refine .step (Step.reportStage_eq hroot)
      (.step Step.program_eq (.step (Step.liftExcept_eq hresult) ?_))
    refine .step Step.report_eq (.step (Step.reportStage_eq hroot) ?_)
    have hsite : Site.Sound ⟨settings, root, locals, closures⟩ w.program := by
      refine ⟨hw.closed, hw.chains, ⟨content, hroot⟩, hsorted, fun {d c} hc v hv => ?_⟩
      obtain ⟨e, node, -, hnode, hused⟩ := hholds (d := d) (v := v) ⟨c, hc, hv⟩
      obtain ⟨value, hvalue⟩ :=
        hw.closed.exists_value_of_expr hnode (v := v) (by simp [Expr.namedValues, hused])
      exact Arena.lt_size_of_get? hvalue
    have hsignatures := fun reports =>
      (Lift.relocation_founded (w := ⟨w.program, reports⟩) hsite hcollects).and_leaves
      (Lift.relocation_leaves (w := ⟨w.program, reports⟩) hsorted hcollects)
    refine .bind ((hsignatures _).mono ?_)
    rintro r w₁ ⟨hfounded, hraised⟩
    refine .step (Step.reportStage_eq (hfounded.lifting.decls _ _ hroot)) (.bind ?_)
    have hstart : Following w.program w₁.program r exprRank w₁.program :=
      .start hfounded hraised hranked
    have hbodies := fun reports => (Retarget.all_follows
      (w := ⟨w₁.program, reports⟩) hbound hfounded hraised hsite rfl hstart).and_leaves
      (Retarget.all_leaves (w := ⟨w₁.program, reports⟩) hraised hsorted ⟨content, hroot⟩ rfl)
    refine (hbodies _).mono ?_
    rintro _ w₂ ⟨hfollowing, S, hrewritten, -⟩
    have hoisted : ∀ {siblings : List DeclId},
        (∀ x ∈ siblings, ∃ d ∈ locals.lifted, r.get? d = some x) →
        Hoisted w.program root siblings w₂.program := fun hsiblings =>
      sound_of_followed hw hsite hfounded hraised hfollowing hrewritten.touched hsiblings
    have hsound : w₂.program.Sound := (hoisted (List.forall_mem_nil _)).sound
    refine .step (Step.reportStage_eq (hfollowing.kept _ _ hroot)) ?_
    generalize w₂.events ++ [Event.stage .bodiesRetargeted content.name] = reports
    refine (Step.Yields.mapM (w := ⟨w₂.program, reports⟩)
      (fun _ siblings w' => w'.program = w₂.program
        ∧ ∀ x ∈ siblings, ∃ d ∈ locals.lifted, r.get? d = some x) ?_ ⟨rfl, by simp⟩).mono ?_
    · rintro done d rest siblings w₃ hsplit ⟨hprogram, hsiblings⟩
      refine .bind (.ask (fun x hlifted => ?_) fun _ hf => Relocation.reports_of_lifted hf)
      have hx := Relocation.get?_of_lifted hlifted
      obtain ⟨text, htext⟩ := Program.header_answers hsound.closed hsound.acyclic (d := x)
        (hfollowing.declCount ▸ (hfounded.lifting.moved hx).2.2)
      rw [← hprogram] at htext
      refine .step Step.program_eq
        (.step (Step.liftExcept_eq htext) (.step Step.report_eq (.pure ⟨hprogram, ?_⟩)))
      intro y hy
      rcases List.mem_append.1 hy with hy | hy
      · exact hsiblings y hy
      · obtain rfl := List.mem_singleton.1 hy
        exact ⟨d, by simp [hsplit], hx⟩
    · rintro siblings w₃ ⟨hprogram, hsiblings⟩
      rw [hprogram]
      exact hoisted hsiblings

/-- **Lowering a root** answers or reports. -/
theorem lowerRoot_sound (hw : w.program.Sound) (hroot : root.index < w.program.decls.size) :
    (lowerRoot settings root).Ends w (fun result w' => (result = none ∧ w = w')
      ∨ ∃ siblings, result = some siblings
      ∧ Hoisted w.program root siblings w'.program) Fault.Reports := by
  obtain ⟨content, hcontent⟩ := Arena.exists_get?_of_lt hroot
  have hlocals := Program.locals_alike hw.closed hcontent (hw.acyclic.acyclicAt _ _) (.refl _ root)
  unfold lowerRoot
  refine .step Step.program_eq (.bind (.ask (fun locals hok => ?_) fun f hf => ?_))
  · split
    · exact .pure (.inl ⟨rfl, rfl⟩)
    · exact .map ((lowerLocals_sound hw hok).mono fun siblings w' h => .inr ⟨siblings, rfl, h⟩)
  · rw [hf] at hlocals
    cases hlocals
    assumption

/-! ## §4. Listing the siblings of a root. -/

theorem mem_insertAfter {anchor : DeclId} {new as bs : List DeclId}
    (h : insertAfter anchor new as = some bs) (x : DeclId) : x ∈ bs ↔ x ∈ as ∨ x ∈ new := by
  induction as generalizing bs with
  | nil => cases h
  | cons a as ih =>
    unfold insertAfter at h
    split at h
    · cases h
      simp only [List.mem_cons, List.mem_append]
      tauto
    · obtain ⟨rest, hrest, rfl⟩ := Option.map_eq_some_iff.1 h
      simp only [List.mem_cons, ih hrest]
      tauto

end Lowering

namespace Program

variable {p : Program} {k root : DeclId}

/-- A root is nested in its container. -/
theorem RootIn.nests (h : p.RootIn (some k) root)
    (ha : ∀ {content part}, p.decls.get? k = some content → part ∈ content.parts →
      p.Encloses .nested a part) :
    Relation.TransGen (p.Encloses .nested) a (.decl root) := by
  obtain ⟨ds, child, rs, hds, hchild, hrs, hroot⟩ := h
  obtain ⟨c, hc, rfl⟩ := children_some hds hchild
  have hmember : p.Encloses .nested a (.decl child) := ha hc (List.mem_map_of_mem hchild)
  obtain ⟨content, hcontent, ⟨rfl, -⟩ | ⟨q, rfl, haccessor⟩⟩ := rootsOf_spec hrs hroot
  · exact .single hmember
  · exact .tail (.single hmember)
      (.part hcontent (List.mem_append_left _ (List.mem_map_of_mem haccessor)))

/-- A root is there. -/
theorem RootIn.lt {container : Option DeclId} (h : p.RootIn container root) (hp : p.Closed) :
    root.index < p.decls.size := by
  obtain ⟨ds, child, rs, hds, hchild, hrs, hroot⟩ := h
  obtain ⟨content, hcontent, ⟨rfl, -⟩ | ⟨q, rfl, haccessor⟩⟩ := rootsOf_spec hrs hroot
  · exact Arena.lt_size_of_get? hcontent
  · obtain ⟨accessor, haccessor⟩ := hp.exists_decl hcontent (x := root) (by
      simp only [Declaration.namedDecls, List.mem_append] at haccessor ⊢
      tauto)
    exact Arena.lt_size_of_get? haccessor

/-- A class lists other members that rank below it: the program stays sound. -/
theorem Sound.setMembers (hp : p.Sound) {c : ClassDecl} (hk : p.decls.get? k = some (.cls c))
    {ms : List DeclId} (hms : ∀ y ∈ ms, y.index < p.decls.size) {rank : Place → Nat}
    (hrank : p.Falls rank) (hdecl : ∀ y ∈ ms, rank (.decl y) < rank (.decl k))
    (hbacking : ∀ y ∈ ms, rank (.decl y) < rank (.backing k)) :
    (p.setDecl k (.cls { c with members := ms })).Sound := by
  have hget : ∀ x, (p.setDecl k (.cls { c with members := ms })).decls.get? x
      = if x = k then some (.cls { c with members := ms }) else p.decls.get? x := by
    intro x
    show (p.decls.set k _).get? x = _
    rw [Arena.get?_set]
    by_cases hx : x = k
    · rw [if_pos ⟨hx, Arena.lt_size_of_get? hk⟩, if_pos hx]
    · rw [if_neg fun hxk => hx hxk.1, if_neg hx]
  have hclosedAt := closed_iff.1 hp.closed
  obtain ⟨hdecls, hvalues, hcode⟩ := hclosedAt.decls hk
  have hclosed : (p.setDecl k (.cls { c with members := ms })).Closed := by
    refine closed_iff.2
      ((p.size_setDecl k _).symm ▸ hclosedAt.setDecl (fun y hy => ?_) hvalues hcode)
    simp only [Declaration.namedDecls, Declaration.parent, List.mem_append] at hy hdecls
    rcases hy with hy | ((hy | hy) | hy) | hy
    · exact hdecls y (.inl hy)
    · exact hdecls y (.inr (.inl (.inl (.inl hy))))
    · exact hms y hy
    · exact hdecls y (.inr (.inl (.inr hy)))
    · exact hdecls y (.inr (.inr hy))
  have hfalls : (p.setDecl k (.cls { c with members := ms })).Falls rank := by
    rintro a b ⟨label, hlabel, hb⟩
    cases label with
    | expr e node =>
      obtain ⟨rfl, he⟩ := label?_eq_expr.1 hlabel
      exact hrank ⟨.expr e node, label?_eq_expr.2 ⟨rfl, he⟩, hb⟩
    | decl d content =>
      obtain ⟨rfl, hd⟩ := label?_eq_decl.1 hlabel
      rw [hget] at hd
      split at hd
      next heq =>
        subst heq
        cases hd
        obtain ⟨y, hy, rfl⟩ := List.mem_map.1 hb
        exact hdecl y hy
      next => exact hrank (.part hd hb)
    | backing d content =>
      obtain ⟨rfl, hd⟩ := label?_eq_backing.1 hlabel
      rw [hget] at hd
      split at hd
      next heq =>
        subst heq
        cases hd
        obtain ⟨y, hy, rfl⟩ := List.mem_map.1 hb
        exact hbacking y hy
      next => exact hrank ⟨.backing d content, label?_eq_backing.2 ⟨rfl, hd⟩, hb⟩
  refine ⟨hclosed, .of_rank hfalls,
    hclosed.chainsEnd fun x hcycle => hp.chains.acyclic x (hcycle.lift id ?_)⟩
  rintro x y ⟨content, hx, hparent⟩
  rw [hget] at hx
  split at hx
  next heq =>
    subst heq
    cases hx
    exact ⟨.cls c, hk, hparent⟩
  next => exact ⟨content, hx, hparent⟩

end Program

namespace Lowering

variable {settings : Settings} {container : Option DeclId} {root : DeclId}
  {siblings : List DeclId} {w : Work}

/-- **Listing the siblings of a root** leaves a sound program. -/
theorem Listed.sound {p₁ p₂ : Program} (hoisted : Hoisted p root siblings p₁)
    (hin : p.RootIn container root)
    (hlisted : Listed container root siblings p₁ p₂) : p₂.Sound := by
  obtain ⟨hlists, content, children, children', -, hchildren, hinsert, hset⟩ := hlisted
  have hp₁ := hoisted.sound
  have hthere : ∀ y ∈ children', y.index < p₁.decls.size := by
    intro y hy
    rcases (mem_insertAfter hinsert y).1 hy with hy | hy
    · obtain ⟨outer, houter⟩ := hp₁.closed.exists_child hchildren hy
      exact Arena.lt_size_of_get? houter
    · exact hoisted.there y hy
  cases container with
  | none =>
    cases hset
    have hclosed : Program.Closed { p₁ with top := children' } :=
      ⟨hp₁.closed.1, hp₁.closed.2.1, hp₁.closed.2.2.1, hthere⟩
    exact ⟨hclosed, hp₁.acyclic, hclosed.chainsEnd fun x hcycle => hp₁.chains.acyclic x hcycle⟩
  | some k =>
    obtain ⟨c, hc⟩ : ∃ c, p₁.decls.get? k = some (.cls c) := by
      obtain ⟨outer, houter, hclass⟩ := Except.bind_eq_ok.1 hlists
      cases outer with
      | cls c => exact ⟨c, Program.decl_eq_ok.1 houter⟩
      | _ => cases hclass
    obtain rfl : c.members = children := by
      simp only [Program.children, Program.decl_eq_ok.2 hc] at hchildren
      exact Except.ok.inj hchildren
    simp only [Program.setChildren, Program.modifyDecl, Program.decl_eq_ok.2 hc] at hset
    cases hset
    obtain ⟨rank, hrank, hranked⟩ := hoisted.ranked
    refine hp₁.setMembers hc hthere hrank (fun y hy => ?_) fun y hy => ?_
    · rcases (mem_insertAfter hinsert y).1 hy with hy | hy
      · exact hrank (.part hc (List.mem_map_of_mem hy))
      · exact hranked _ (hin.nests fun hd hpart => .part hd hpart) y hy
    · rcases (mem_insertAfter hinsert y).1 hy with hy | hy
      · exact hrank ⟨.backing k _, Program.label?_eq_backing.2 ⟨rfl, hc⟩, List.mem_map_of_mem hy⟩
      · refine hranked _ (hin.nests fun {content part} hd hpart => ?_) y hy
        exact ⟨.backing k content, Program.label?_eq_backing.2 ⟨rfl, hd⟩, hpart⟩

/-- A root stays a root of its container while another one is lowered. -/
theorem rootIn_of_confined {p' : Program} (h : p.Confined settings root p')
    (hx : p.RootIn container x) : p'.RootIn container x := by
  obtain ⟨ds, child, rs, hds, hchild, hrs, hroot⟩ := hx
  exact ⟨ds, child, rs, keepsLists_of_confined h _ _ hds, hchild,
    (Program.relists_of_keeps h.decls).rootsOf hrs, hroot⟩

/-- A root stays a root of its container while siblings are listed there. -/
theorem Listed.rootIn {p' : Program} (hlisted : Listed container root siblings p p')
    (hx : p.RootIn container x) : p'.RootIn container x := by
  obtain ⟨ds, child, rs, hds, hchild, hrs, hroot⟩ := hx
  obtain ⟨content, children, children', -, hchildren, hinsert, hchildren'⟩ := hlisted.children
  cases hds.symm.trans hchildren
  exact ⟨children', child, rs, hchildren', (mem_insertAfter hinsert child).2 (.inl hchild),
    hlisted.relists.rootsOf hrs, hroot⟩

/-- **Siblings are listed**, or it is reported that they cannot be. -/
theorem splice_sound (hroot : root.index < w.program.decls.size)
    (hcontainer : container = none ∨ ∃ k c, container = some k
      ∧ w.program.decls.get? k = some (.cls c)) :
    (splice container root siblings).Ends w (fun _ _ => True) Fault.Reports := by
  obtain ⟨content, hcontent⟩ := Arena.exists_get?_of_lt hroot
  have hanchor : (anchor root).Ends w (fun _ w' => w = w') Fault.Reports := by
    refine .step (Step.decl_eq hcontent) ?_
    cases content with
    | function f =>
      obtain ⟨_, _, _, _, _, _, _, _, _, _, _, accessorOf, _⟩ := f
      cases accessorOf <;> exact .pure rfl
    | _ => exact .pure rfl
  refine .bind (hanchor.mono ?_)
  rintro anchor _ rfl
  obtain ⟨lists, hlists⟩ : ∃ lists, w.program.listsChildren container = .ok lists := by
    obtain rfl | ⟨k, c, rfl, hc⟩ := hcontainer
    · exact ⟨_, rfl⟩
    · exact ⟨_, Program.isClass_of_get? hc⟩
  obtain ⟨children, hchildren⟩ : ∃ children, w.program.children container = .ok children := by
    obtain rfl | ⟨k, c, rfl, hc⟩ := hcontainer
    · exact ⟨_, rfl⟩
    · exact ⟨c.members, by simp only [Program.children, Program.decl_eq_ok.2 hc]; rfl⟩
  refine .step Step.program_eq (.step (Step.liftExcept_eq hlists) ?_)
  split
  · exact .bind (.throw rfl)
  refine .step (Step.liftExcept_eq hchildren) ?_
  split
  next children' _ =>
    obtain ⟨p', hp'⟩ : ∃ p', w.program.setChildren children' container = .ok p' := by
      obtain rfl | ⟨k, c, rfl, hc⟩ := hcontainer
      · exact ⟨_, rfl⟩
      · exact ⟨_,
          by simp only [Program.setChildren, Program.modifyDecl, Program.decl_eq_ok.2 hc]; rfl⟩
    exact .step (Step.liftExcept_eq hp') (.of_eq rfl trivial)
  next => exact .throw rfl

/-! ## §5. A whole run. -/

/-- **A root is lowered and listed**, or it is reported why not. -/
theorem lowerListed_sound (hw : w.program.Sound) (hin : w.program.RootIn container root)
    (lifted : Lifted) :
    (lowerListed settings container lifted root).Ends w
      (fun _ w' => w'.program.Sound ∧ w.program.Relists w'.program
        ∧ ∀ x, w.program.RootIn container x → w'.program.RootIn container x) Fault.Reports := by
  have hroot := hin.lt hw.closed
  refine .bind (((lowerRoot_sound hw hroot).and_leaves (lowerRoot_frame settings root w)).mono ?_)
  rintro result w₁ ⟨⟨rfl, rfl⟩ | ⟨siblings, rfl, hoisted⟩, hconfined, -⟩
  · exact .pure ⟨hw, Program.relists_of_keeps (.refl _), fun x hx => hx⟩
  have hcontainer : container = none ∨ ∃ k c, container = some k
      ∧ w₁.program.decls.get? k = some (.cls c) := by
    obtain ⟨ds, child, rs, hds, hchild, -⟩ := hin
    cases container with
    | none => exact .inl rfl
    | some k =>
      obtain ⟨c, hc, -⟩ := Program.children_some hds hchild
      exact .inr ⟨k, c, rfl, hconfined.decls _ _ hc⟩
  have hroot₁ : root.index < w₁.program.decls.size := hroot.trans_le hconfined.decls.size_le
  refine .bind (((splice_sound hroot₁ hcontainer).and_leaves
    (splice_leaves container root siblings w₁)).mono ?_)
  rintro _ w₂ ⟨-, hlisted, -⟩
  have hsound := hlisted.sound hoisted hin
  have hroot₂ : root.index < w₂.program.decls.size := hroot₁.trans_eq hlisted.size.symm
  obtain ⟨content, hcontent⟩ := Arena.exists_get?_of_lt hroot₂
  obtain ⟨doc, hdoc⟩ := Program.declDoc_answers hsound.closed hsound.acyclic hroot₂
  refine .step (Step.reportStage_eq hcontent)
    (.step Step.program_eq (.step (Step.liftExcept_eq hdoc) ?_))
  refine .step Step.report_eq
    (.pure ⟨hsound, ?_, fun x hx => hlisted.rootIn (rootIn_of_confined hconfined hx)⟩)
  exact (Program.relists_of_keeps hconfined.decls).trans hlisted.relists

/-- **The roots of a container are lowered**, or it is reported why not. -/
theorem lowerContainer_sound (hw : w.program.Sound)
    (hcontainer : container = none ∨ ∃ k c, container = some k
      ∧ w.program.decls.get? k = some (.cls c)) (lifted : Lifted) :
    (lowerContainer settings lifted container).Ends w
      (fun _ w' => w'.program.Sound ∧ w.program.Relists w'.program)
      Fault.Reports := by
  have hrefl : w.program.Relists w.program := Program.relists_of_keeps (.refl _)
  obtain ⟨nested, hnested⟩ : ∃ nested, isNested w.program container = .ok nested := by
    obtain rfl | ⟨k, c, rfl, hc⟩ := hcontainer
    · exact ⟨_, rfl⟩
    · exact ⟨_, Program.isLocal_of_ending (hw.chains.ending hc)⟩
  obtain ⟨children, hchildren⟩ : ∃ children, w.program.children container = .ok children := by
    obtain rfl | ⟨k, c, rfl, hc⟩ := hcontainer
    · exact ⟨_, rfl⟩
    · exact ⟨c.members, by simp only [Program.children, Program.decl_eq_ok.2 hc]; rfl⟩
  obtain ⟨roots, hroots⟩ :=
    Run.exists_roots hchildren fun d hd => hw.closed.exists_child hchildren hd
  refine .step Step.program_eq (.step (Step.liftExcept_eq hnested) ?_)
  split
  · exact .pure ⟨hw, hrefl⟩
  refine .step Step.program_eq (.step (Step.liftExcept_eq hroots) ?_)
  refine (Step.Yields.foldlM (fun _ _ w' => w'.program.Sound ∧ w.program.Relists w'.program
    ∧ ∀ x ∈ roots, w'.program.RootIn container x) ?_
    ⟨hw, hrefl, fun x hx => (Program.mem_roots hroots).1 hx⟩).mono ?_
  · rintro done root rest lifted' w₁ hsplit ⟨hw₁, hrelists₁, hin₁⟩
    refine (lowerListed_sound hw₁ (hin₁ root (by simp [hsplit])) lifted').mono ?_
    rintro _ w₂ ⟨hw₂, hrelists₂, hin₂⟩
    exact ⟨hw₂, hrelists₁.trans hrelists₂, fun x hx => hin₂ x (hin₁ x hx)⟩
  · rintro _ w' ⟨hw', hrelists, -⟩
    exact ⟨hw', hrelists⟩

/-- The fault is one that says what is wrong with the program. -/
def Explains (f : Fault) : Prop := f ≠ .dangling ∧ f ≠ .endless

theorem explains_of_reports {f : Fault} (h : f.Reports) : Explains f := by
  constructor <;> rintro rfl <;> cases h

/-- **A whole run** ends in a sound program, or says what is wrong. -/
theorem lower_sound (settings : Settings) (hw : w.program.Sound) :
    (lower settings).Ends w (fun _ w' => w'.program.Sound) Explains := by
  obtain ⟨containers, hcontainers⟩ := Program.containers_answers hw.closed hw.acyclic
  refine .step Step.program_eq (.step (Step.liftExcept_eq hcontainers) (.bind ?_))
  refine (Step.Yields.foldlM (fun _ _ w' => w'.program.Sound ∧ w.program.Relists w'.program) ?_
    ⟨hw, Program.relists_of_keeps (.refl _)⟩).mono ?_
  · rintro done container rest lifted w₁ hsplit ⟨hw₁, hrelists₁⟩
    have hcontainer : container = none ∨ ∃ k c, container = some k
        ∧ w₁.program.decls.get? k = some (.cls c) := by
      refine (Program.mem_containers hcontainers
        (hsplit ▸ List.mem_append_right _ List.mem_cons_self)).imp id ?_
      rintro ⟨k, c, hk, hc⟩
      obtain ⟨content, hcontent, rfl | ⟨c', ms, -, rfl⟩⟩ := hrelists₁ _ _ hc
      · exact ⟨k, c, hk, hcontent⟩
      · exact ⟨k, _, hk, hcontent⟩
    refine ((lowerContainer_sound hw₁ hcontainer lifted).weaken
      fun f _ hf => explains_of_reports hf).mono ?_
    rintro _ w₂ ⟨hw₂, hrelists₂⟩
    exact ⟨hw₂, hrelists₁.trans hrelists₂⟩
  rintro lifted w₁ ⟨hw₁, -⟩
  split
  · obtain ⟨-, again, fss, -, -, -, hfindings⟩ :=
      Program.findings_reports (hw₁.closed.checkable hw₁.chains hw₁.acyclic)
    refine .step Step.program_eq (.bind (.ask (fun _ _ => .pure hw₁) fun f hf => ?_))
    rw [Program.check, hfindings, Except.ok_bind] at hf
    split at hf
    · cases hf
    · cases hf
      constructor <;> rintro ⟨⟩
  · exact .pure hw₁

end Lowering

open Lowering

/-- **No run follows a handle that leads nowhere.**  Whatever the settings, lowering a closed
program in which nothing is nested in itself and chains of parents end never looks up what is not
there, in any stage, in what it reports or in the final check, nor does it go round in circles; and
if it answers, the program is closed again, nothing in it is nested in itself, and its chains of
parents end. -/
theorem lower_safe (settings : Settings) (w : Work) (hclosed : w.program.Closed)
    (hacyclic : w.program.Acyclic) (hchains : w.program.ChainsEnd) :
    (∀ f w', lower settings w = .error f w' → f ≠ .dangling ∧ f ≠ .endless)
      ∧ ∀ lifted w', lower settings w = .ok lifted w' →
        w'.program.Closed ∧ w'.program.Acyclic ∧ w'.program.ChainsEnd := by
  have hends := lower_sound settings ⟨hclosed, hacyclic, hchains⟩
  unfold Step.Ends Step.Yields at hends
  constructor
  · intro f w' hfault
    rw [hfault] at hends
    exact hends
  · intro lifted w' hanswer
    rw [hanswer] at hends
    exact ⟨hends.closed, hends.acyclic, hends.chains⟩

/-- A run that lifts something out of a closed program leaves a closed program. -/
theorem lower_safe_capturing :
    Program.capturing.Closed ∧ Program.capturing.Acyclic ∧ Program.capturing.ChainsEnd
      ∧ ∃ table w, lower {} ⟨.capturing, []⟩ = .ok table w ∧ table.get? ⟨0⟩ = some
    [⟨2⟩] ∧ w.program.Closed := by
  have hclosed : Program.capturing.Closed := by decide +kernel
  have hacyclic : Program.capturing.Acyclic := Program.acyclic_of_complete (by decide +kernel)
  have hchains : Program.capturing.ChainsEnd := by decide +kernel
  have hlower : (Step.answer? (lower {}) ⟨.capturing, []⟩).map (·.get? ⟨0⟩)
      = some (some [⟨2⟩]) := by decide +kernel
  obtain ⟨table, hanswer, htable⟩ := Option.map_eq_some_iff.1 hlower
  obtain ⟨w, hw⟩ := Step.answer?_eq_some.1 hanswer
  exact ⟨hclosed, hacyclic, hchains, table, w, hw, htable,
    ((lower_safe {} ⟨.capturing, []⟩ hclosed hacyclic hchains).2 table w hw).1⟩

end LambdaLift
