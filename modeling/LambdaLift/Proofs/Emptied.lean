/-
  LambdaLift.Proofs.Emptied
  **NOTHING IS LEFT TO LIFT WHERE RETARGETING WENT.**

  Retargeting goes through the code of each replacement, class by class
  and member by member, and through the root last.  What is clean stays
  clean, so when all is done no code of the root, of a lifted function or
  of a member of a lifted class places a declaration.

  Main results:
    * `Retarget.clears_works` — one chore after the other;
    * `Retarget.all_leaves` — everything below one root.
-/
import Mathlib
import LambdaLift.Proofs.Chores
import LambdaLift.Proofs.Touched

namespace LambdaLift

variable {d x : DeclId} {e : ExprId} {content content' : Declaration}

/-! ## §1. Finished declarations. -/

/-- The code of the declaration is clean. -/
def Finished (m : Nat) (S : Set ExprId) (p : Program) (d : DeclId) : Prop :=
  ∃ content, p.decls.get? d = some content ∧ ∀ e, content.code = some e → Clean m S p e

/-- The declaration is a new member of a class, and its code and that of its accessors is clean. -/
def Complete (n m : Nat) (S : Set ExprId) (p : Program) (d : DeclId) : Prop :=
  n ≤ d.index ∧ ∃ content, p.decls.get? d = some content ∧ (∀ c, content ≠ .cls c)
    ∧ (∀ e, content.code = some e → Clean m S p e)
    ∧ ∀ x, content = .property x → ∀ a ∈ x.getter.toList ++ x.setter.toList,
      (∃ f, p.decls.get? a = some (.function f)) ∧ Finished m S p a

/-- The state while the code below one root is retargeted, and what has been gone through. -/
structure Cleared (p₀ : Program) (site : Site) (r : Relocation) (q : Program) (S : Set ExprId)
    (p : Program) : Prop where
  touched : Touched q p₀.decls.size (fun e => p₀.Below site.root (.expr e)) r p
  tidy : ∃ rank, Tidy q.exprs.size S rank p
  reowned : Reowned r S p
  opened : ∀ e ∈ S, Touched.Open q (fun e => p₀.Below site.root (.expr e)) e

/-- The members that lifted classes have got are complete, and replace members of the class or hold
what it captured. -/
structure Rewritten (p₀ : Program) (site : Site) (r : Relocation) (q : Program) (S : Set ExprId)
    (p : Program) : Prop
    extends Cleared p₀ site r q S p where
  members : ∀ {d x c}, r.get? d = some x → p.decls.get? x = some (.cls c) →
    ∀ y ∈ c.members, Complete p₀.decls.size q.exprs.size S p y ∧ r.Lists p₀ x y

namespace Retarget

variable {p₀ q : Program} {site : Site} {r : Relocation} {S : Set ExprId} {w : Work}

/-- What is known when some chores are done: the code they were about is clean. -/
def Clears (p₀ : Program) (site : Site) (r : Relocation) (q : Program) (done : List Chore)
    (w : Work) : Prop :=
  ∃ S, Cleared p₀ site r q S w.program ∧ ∀ c e, .expr c e ∈ done → Clean q.exprs.size S w.program e

variable (hraised : Raised p₀ site r q)
include hraised

/-! ## §2. One chore after the other. -/

/-- **An expression** is retargeted. -/
theorem expr_leaves {done : List Chore} {context? : Option Context}
    (hmem : .expr context? e ∈ plan p₀ site r q) (h : Clears p₀ site r q done w) :
    (Retarget.expr ⟨site.locals, r, context?⟩ e).Leaves w
      (fun _ w' => Clears p₀ site r q (done ++ [.expr context? e]) w')
      fun w' => Touched q p₀.decls.size (fun e => p₀.Below site.root (.expr e)) r w'.program := by
  obtain ⟨S, h, hdone⟩ := h
  obtain ⟨rank, htidy⟩ := h.tidy
  refine .bind (.program ?_)
  refine (exprUpTo_leaves hraised.fixed (fun {e node} hnode hbelow x hx => ?_) _
    (.inl (below_of_mem_plan hraised hmem)) h.touched htidy h.reowned).mono ?_
  · rw [hraised.grown.exprs] at hnode
    exact hbelow.operand hnode hx
  · rintro _ w' ⟨S', rank', h', htidy', hreowned', hS, hsize, -, hopened, -, hclean⟩
    refine ⟨S', ⟨h', ⟨rank', htidy'⟩, hreowned', fun e he => (hopened e he).elim (h.opened e) id⟩,
      fun c x hx => ?_⟩
    rcases List.mem_append.1 hx with hx | hx
    · exact Tidy.clean_mono (hdone c x hx) hS hsize
    · obtain ⟨-, rfl⟩ := Chore.expr.inj (List.mem_singleton.1 hx)
      exact hclean x (List.mem_singleton.2 rfl)

/-- **Every chore** keeps clean what is clean, and touches nothing else. -/
theorem clears_works : Works p₀ site r q (Clears p₀ site r q) fun _ w =>
    Touched q p₀.decls.size (fun e => p₀.Below site.root (.expr e)) r w.program where
  expr hplan hw hrun := (expr_leaves hraised (by simp [hplan]) hw.2).ok_of hrun
  fault hplan hw hrun := (expr_leaves hraised (by simp [hplan]) hw.2).error_of hrun
  capture {_ _ k field primary v param w context f} hplan hw _ _ _ hfield := by
    obtain ⟨-, hmem⟩ := capture_mem_plan.1 (hplan ▸ List.mem_append_right _ List.mem_cons_self)
    obtain ⟨this, captured, hk, hmem⟩ := Relocation.mem_fieldsOf.1 hmem
    obtain ⟨-, hlow, -⟩ := hraised.fields hk field (List.mem_map.2 ⟨_, hmem, rfl⟩)
    obtain ⟨S, h, hdone⟩ := hw.2
    obtain ⟨rank, htidy⟩ := h.tidy
    have hsize := w.program.size_allocExpr (.get param)
    have hgrown := h.touched.grown
    have htouched : Touched q p₀.decls.size _ r (w.program.allocExpr (.get param)).2 :=
      h.touched.allocExpr rfl (by simp [Expr.operands])
    have hunplaced : ∀ d, Expr.get param ≠ .decl d := by rintro d ⟨⟩
    refine ⟨S,
      ⟨htouched.setDecl hlow hfield (.init hgrown (by rw [hsize]; exact Nat.lt_succ_self _)),
      ⟨_, (htidy.allocExpr 0 hunplaced (by omega) (by simp [Expr.operands])).congr rfl⟩,
      h.reowned.allocExpr htidy _, h.opened⟩, fun c e he => ?_⟩
    refine Tidy.clean_mono (hdone c e (by simpa using he)) (le_refl S) ?_
    show w.program.exprs.size ≤ (w.program.allocExpr (.get param)).2.exprs.size
    omega
  fill {_ _ k x members w c} hplan hw hx := by
    obtain ⟨-, hk, -⟩ := fill_mem_plan.1 (hplan ▸ List.mem_append_right _ List.mem_cons_self)
    obtain ⟨S, h, hdone⟩ := hw.2
    obtain ⟨rank, htidy⟩ := h.tidy
    exact ⟨S, ⟨h.touched.setDecl (hraised.images hk).1 hx (.members _), ⟨rank, htidy.congr rfl⟩,
      h.reowned, h.opened⟩, fun c e he => hdone c e (by simpa using he)⟩
  lost hw _ := by
    obtain ⟨S, h, -⟩ := hw.2
    exact h.touched

/-! ## §3. Everything below one root. -/

/-- The accessors of a lifted property are lifted functions. -/
theorem accessors_of_property (hd : r.get? d = some x) {y : PropertyDecl}
    (hx : q.decls.get? x = some (.property y)) :
    ∀ a ∈ y.getter.toList ++ y.setter.toList, ∃ a₀ f, r.get? a₀ = some a
      ∧ q.decls.get? a = some (.function f) := by
  obtain ⟨-, old, new, -, hnew, hmirrors⟩ := hraised.images hd
  obtain rfl : new = .property y := Option.mem_unique hnew hx
  cases old with
  | property y₀ =>
    intro a ha
    obtain ⟨a₀, f₀, ha₀, hr⟩ : ∃ a₀ f₀, p₀.decls.get? a₀ = some (.function f₀)
        ∧ r.get? a₀ = some a := by
      rcases List.mem_append.1 ha with ha | ha
      · obtain ⟨a₀, -, -, ha₀, ⟨f₀, rfl⟩, hr⟩ := hmirrors.1 a ha
        exact ⟨a₀, f₀, ha₀, hr⟩
      · obtain ⟨a₀, -, -, ha₀, ⟨f₀, rfl⟩, hr⟩ := hmirrors.2.1 a ha
        exact ⟨a₀, f₀, ha₀, hr⟩
    obtain ⟨-, new, hnew, hmirrors⟩ := hraised.image hr ha₀
    cases new with
    | function f => exact ⟨a₀, f, hr, hnew⟩
    | _ => exact hmirrors.elim
  | _ => exact hmirrors.elim

variable {p : Program} (hframed : Framed p₀ r q (plan p₀ site r q) p)
  (hclean : ∀ c e, .expr c e ∈ plan p₀ site r q → Clean q.exprs.size S p e)
include hframed hclean

omit hraised in
/-- A local callable is finished. -/
theorem finished_of_callable (hd : d ∈ site.locals.functions.keys ∨ d ∈ site.locals.constructors)
    (hx : r.get? d = some x) (hcontent : q.decls.get? x = some content)
    (hclass : content.isClass = false) : Finished q.exprs.size S p x :=
  ⟨content, hframed.images hx hcontent hclass, fun e he =>
    hclean _ e (expr_mem_plan.2 (.inl ⟨d, x, hd, hx, rfl, by simp [hcontent, he]⟩))⟩

/-- The member of a class is complete. -/
theorem complete_of_member {k m y : DeclId} (hk : k ∈ site.locals.classes.keys)
    (hm : m ∈ p₀.membersOf k) (hy : r.get? m = some y) (hcontent : q.decls.get? y = some content)
    (hclass : content.isClass = false) : Complete p₀.decls.size q.exprs.size S p y := by
  obtain ⟨hlow, old, new, ⟨-, -, hctor, -⟩, hnew, hmirrors⟩ := hraised.images hy
  obtain rfl : new = content := Option.mem_unique hnew hcontent
  have code : ∀ {z content e}, z ∈ q.memberCodes y → q.decls.get? z = some content →
      content.code = some e →
      Clean q.exprs.size S p e := fun {z content e} hz hcontent he =>
    hclean _ e
      (expr_mem_plan.2 (.inr (.inl ⟨k, hk, m, hm, y, hy, z, hz, rfl, by simp [hcontent, he]⟩)))
  refine ⟨hlow, new, hframed.images hy hnew hclass, ?_, fun e he => ?_, ?_⟩
  · rintro c rfl
    cases hclass
  · cases new with
    | function f => exact code (by simp [Program.memberCodes, hnew]) hnew he
    | field f => exact code (by simp [Program.memberCodes, hnew]) hnew he
    | constructor c =>
      -- constructors were retargeted before
      cases old with
      | constructor c₀ =>
        obtain ⟨content, hp, hfinished⟩ :=
          finished_of_callable hframed hclean (.inr (hctor c₀ rfl)) hy hnew rfl
        obtain rfl : content = .constructor c := Option.mem_unique hp (hframed.images hy hnew rfl)
        exact hfinished e he
      | _ => exact hmirrors.elim
    | _ => cases he
  · rintro z rfl a ha
    obtain ⟨a₀, f, ha₀, hf⟩ := accessors_of_property hraised hy hnew a ha
    have hp := hframed.images ha₀ hf rfl
    refine ⟨⟨f, hp⟩, .function f, hp, fun e he => code ?_ hf he⟩
    simp only [Program.memberCodes, hnew]
    exact List.mem_append_left _ ha

omit hclean in
/-- The field of a captured value is complete. -/
theorem complete_of_captured {k y : DeclId} {v : ValueId} (hk : k ∈ site.locals.classes.keys)
    (hy : (v, y) ∈ r.fieldsOf k) : Complete p₀.decls.size q.exprs.size S p y := by
  obtain ⟨this, captured, hcontext, hmem⟩ := Relocation.mem_fieldsOf.1 hy
  obtain ⟨-, hlow, -⟩ := hraised.fields hcontext y (List.mem_map.2 ⟨_, hmem, rfl⟩)
  obtain ⟨f, e, hp, hinit, hfresh⟩ := hframed.fields (capture_mem_plan.2 ⟨hk, hy⟩)
  refine ⟨hlow, .field f, hp, by rintro c ⟨⟩, fun e' he' => ?_, by rintro z ⟨⟩⟩
  obtain rfl : e = e' := Option.mem_unique hinit he'
  exact .inr hfresh

/-- What classes have got is complete. -/
theorem rewritten_of_framed (hserves : Serves p₀ site r q) (h : Cleared p₀ site r q S p) :
    Rewritten p₀ site r q S p := by
  refine ⟨h, fun {d x c} hd hx y hy => ?_⟩
  obtain ⟨-, old, new, -, hnew, hmirrors⟩ := hraised.images hd
  cases new with
  | cls c' =>
    obtain ⟨members, hp, hmembers⟩ := hframed.classes hd hnew
    obtain rfl : c = { c' with members } := Declaration.cls.inj (Option.mem_unique hx hp)
    rcases hmembers with ⟨rfl, -⟩ | ⟨k, hfill⟩
    · cases old with
      | cls c₀ => exact absurd hy (by simp [hmirrors.1])
      | _ => exact hmirrors.elim
    refine ⟨?_, lists_of_mem_plan hfill hy⟩
    obtain ⟨hk, -, rfl⟩ := fill_mem_plan.1 hfill
    rcases List.mem_append.1 hy with hy | hy
    · obtain ⟨m, hm, hy⟩ := List.mem_filterMap.1 hy
      obtain ⟨y', content, hy', hcontent, hclass⟩ := (hserves.classes k hk).2.2 m hm
      obtain rfl : y = y' := Option.mem_unique hy hy'
      exact complete_of_member hraised hframed hclean hk hm hy hcontent hclass
    · obtain ⟨⟨v, f⟩, hf, rfl⟩ := List.mem_map.1 hy
      exact complete_of_captured hraised hframed hk hf
  | _ => cases Option.mem_unique hx (hframed.images hd hnew rfl)

omit hframed hclean

/-- **Everything below one root** is retargeted: where that succeeds, the code of the root, of each
lifted function and of each member of a lifted class is clean. -/
theorem all_leaves (hsorted : p₀.Sorted site.root site.locals)
    (hroot : ∃ content, p₀.decls.get? site.root = some content) (hw : w.program = q) :
    (all site.locals r site.root).Leaves w (fun _ w' => ∃ S, Rewritten p₀ site r q S w'.program
        ∧ (∀ d ∈ site.locals.functions.keys, ∀ x, r.get? d = some x →
          Finished q.exprs.size S w'.program x)
        ∧ ∃ content, w'.program.decls.get? site.root = some content
          ∧ ∀ e, content.body = some e → Clean q.exprs.size S w'.program e)
      fun w' => Touched q p₀.decls.size (fun e => p₀.Below site.root (.expr e)) r w'.program := by
  obtain ⟨content, hroot⟩ := hroot
  have hstart : Clears p₀ site r q [] w := by
    refine ⟨∅,
      ⟨hw ▸ .refl _ _ _ _, ⟨fun _ => 0, fun he => he.elim, fun hlow he => ?_⟩, fun e he => he.elim,
      fun e he => he.elim⟩, by simp⟩
    exact absurd (Arena.lt_size_of_get? he) (Nat.not_lt.2 (hw ▸ hlow))
  refine ((clears_works hraised).all hraised hsorted hroot ⟨hw ▸ .start p₀ r q, hstart⟩).mono ?_
  rintro _ w' ⟨hserves, -, hframed, S, h, hclean⟩
  refine ⟨S, rewritten_of_framed hraised hframed hclean hserves h, fun d hd x hx => ?_,
    content, ?_, fun e he => ?_⟩
  · obtain ⟨-, -, f, hf⟩ := (hsorted.functions d).1 hd
    obtain ⟨-, new, hnew, hmirrors⟩ := hraised.image hx hf
    refine finished_of_callable hframed hclean (.inl hd) hx hnew ?_
    cases new <;> first | rfl | exact hmirrors.elim
  · exact (hframed.old (Arena.lt_size_of_get? hroot)).trans (hraised.grown.decls _ _ hroot)
  · exact hclean none e (expr_mem_plan.2 (.inr (.inr ⟨rfl, by simp [hroot, he]⟩)))

end Retarget

end LambdaLift
