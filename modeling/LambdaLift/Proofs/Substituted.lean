/-
  LambdaLift.Proofs.Substituted
  **REWRITING IN PLACE REFINES A SUBSTITUTION ON TREES.**

  Bodies are shared between old and new declarations and rewritten one
  after the other, while argument and receiver nodes are added to the same
  arena.  Of the program it is assumed that its expressions form trees, and
  that no declaration is met twice: a member that two classes list is
  rewritten for the first and stays that way for the second.

  The trees do not overlap, so no later rewrite touches an earlier body
  (`sweeps_works`), and at the end every body spells the tree of the old
  body under `Retarget.subst`.

  Main results:
    * `retarget_substitutes` — everything below one root;
    * `shared_member_not_substituted` — what two classes have in common.
-/
import Mathlib
import LambdaLift.Proofs.Runs
import LambdaLift.Proofs.Terms

namespace LambdaLift

variable {p : Program} {d m x : DeclId} {e : ExprId} {context : Context}
  {content : Declaration} {t : Retarget}

/-! ## §1. The code of a root. -/

namespace Retarget

variable {r : Relocation} {P q : Program} {site : Site}

/-- **One chore after the other**, where expressions form trees and no declaration is met twice. -/
theorem works_of_treeShaped (hraised : Raised P site r q) (htree : P.TreeShaped)
    (hcollects : P.Collects site.root) (honce : (P.retargeted site.root site.locals).Nodup) :
    Works P site r q (fun done w => Sweep site.locals r q w.program (doneBy P done) w.program
      ∧ Initialized P r q done w.program) fun _ _ => True := by
  refine sweeps_works hraised hcollects ?_ (fun hmem => ?_)
    (fun _ _ _ _ => trivial) fun _ _ => trivial
  · refine List.pairwise_filterMap.2 (honce.imp fun {d d'} hne e he e' he' x hx hx' => hne ?_)
    obtain ⟨content, hd, he⟩ := Option.bind_eq_some_iff.1 he
    obtain ⟨content', hd', he'⟩ := Option.bind_eq_some_iff.1 he'
    exact htree.code_disjoint hd hd' he he' hx hx'
  · exact htree.treelike (hcollects.ends.bounded (below_of_mem_plan hraised hmem)).shallow

end Retarget

/-- The declaration stands for another, and its code spells the tree of the other's code,
retargeted. -/
def Substituted (P q : Program) (t : Retarget) (old new : DeclId) (p : Program) : Prop :=
  ∃ content content', P.decls.get? old = some content ∧ p.decls.get? new = some content'
    ∧ content'.code = content.code
    ∧ ∀ e, content.code = some e → ∃ tree, P.Spells e tree ∧ p.Spells e (t.subst q tree)

/-- All code has been retargeted as trees: that of the root, that of each local callable with its
parameters, and that of each member of a local class with the fields of the class. -/
structure SubstitutesAll (P : Program) (root : DeclId) (l : Locals) (r : Relocation)
    (q p : Program) : Prop where
  atRoot : Substituted P q ⟨l, r, none⟩ root root p
  callables : ∀ d ∈ l.functions.keys ++ l.constructors.toList, ∃ x captured, r.get? d = some x
    ∧ r.contexts.get? d = some (.params captured)
    ∧ Substituted P q ⟨l, r, some (.params captured)⟩ d x p
  members : ∀ k ∈ l.classes.keys, ∃ this captured, r.contexts.get? k = some (.fields this captured)
    ∧ ∀ m ∈ P.membersOf k, ∃ y, r.get? m = some y ∧ ∀ z ∈ p.memberCodes y, ∃ d, r.get? d = some z
      ∧ Substituted P q ⟨l, r, some (.fields this captured)⟩ d z p

namespace Retarget

section

variable {c : Option Context} {r : Relocation} {P q b : Program} {site : Site}
  (hraised : Raised P site r q) (hcollects : P.Collects site.root)
  (hframed : Framed P r q (plan P site r q) p)
  (hsweep : Sweep site.locals r q b (doneBy P (plan P site r q)) p)

include hraised hcollects hsweep in
/-- Code that was gone through spells the substituted tree. -/
theorem spells_of_mem_plan (hmem : .expr c e ∈ plan P site r q) :
    ∃ tree, P.Spells e tree ∧ p.Spells e ((⟨site.locals, r, c⟩ : Retarget).subst q tree) := by
  obtain ⟨tree, htree⟩ := (hcollects.ends.bounded (below_of_mem_plan hraised hmem)).exists_term
  refine ⟨tree, ⟨_, htree⟩, P.depth + 2, ?_⟩
  have hexprs := hraised.grown.exprs
  rw [← Program.termUpTo_congr hexprs] at htree
  refine termUpTo_subst htree fun x hx node hnode => hsweep.nodes ⟨e, hmem, ?_⟩ hnode
  unfold Program.Inside Program.Operand at hx ⊢
  rwa [hexprs] at hx

include hframed in
/-- Replacements bring the code that they brought. -/
theorem Framed.same_codes (hx : r.get? d = some x) (hnew : q.decls.get? x = some content) :
    ∃ content', p.decls.get? x = some content' ∧ content'.code = content.code
      ∧ p.memberCodes x = q.memberCodes x := by
  unfold Program.memberCodes
  cases hclass : content.isClass with
  | false =>
    exact ⟨content, hframed.images hx hnew hclass, rfl, by rw [hframed.images hx hnew hclass, hnew]⟩
  | true =>
    cases content with
    | cls k =>
      obtain ⟨members, hp, -⟩ := hframed.classes hx hnew
      exact ⟨_, hp, rfl, by rw [hp, hnew]⟩
    | _ => cases hclass

include hraised hcollects hframed hsweep

theorem substituted_of_plan (hx : r.get? d = some x)
    (hmem : ∀ e, q.codeAt x = some e → .expr c e ∈ plan P site r q) :
    Substituted P q ⟨site.locals, r, c⟩ d x p := by
  obtain ⟨-, old, new, ⟨hold, -⟩, hnew, hmirrors⟩ := hraised.images hx
  obtain ⟨content, hp, hcode, -⟩ := hframed.same_codes hx hnew
  refine ⟨old, content, hold, hp, hcode.trans hmirrors.code_eq, fun e he => ?_⟩
  refine spells_of_mem_plan hraised hcollects hsweep (hmem e ?_)
  rw [codeAt_image hraised hx]
  exact Option.bind_eq_some_iff.2 ⟨old, hold, he⟩

end

end Retarget

open Retarget in
/-- **Rewriting in place refines a substitution on trees.**  The expressions form trees, and no
declaration is met twice; then each piece of code spells the tree that the substitution makes of the
old one, in its own context. -/
theorem retarget_substitutes {P q p : Program} {root : DeclId} {settings : Settings} {l : Locals}
    {closures : Closures} {r : Relocation} {events events' reports reports' : List Event}
    (hroot : P.Callable root) (htree : P.TreeShaped) (honce : (P.retargeted root l).Nodup)
    (hlocals : P.locals root = .ok l)
    (hrelocation : Lift.relocation ⟨settings, root, l, closures⟩ ⟨P, events⟩ = .ok r ⟨q, events'⟩)
    (hall : Retarget.all l r root ⟨q, reports⟩ = .ok () ⟨p, reports'⟩) :
    SubstitutesAll P root l r q p := by
  obtain ⟨hsorted, hcollects⟩ := Program.locals_spec hlocals
  have hraised : Raised P ⟨settings, root, l, closures⟩ r q :=
    (@Lift.relocation_leaves ⟨settings, root, l, closures⟩ ⟨P, events⟩ hsorted hcollects).ok_of
      hrelocation
  obtain ⟨content, hroot, hcallable⟩ := hroot
  have hstart : Done P r q (fun done w => Sweep l r q w.program (doneBy P done) w.program
      ∧ Initialized P r q done w.program) [] ⟨q, reports⟩ :=
    ⟨.start P r q, .start (by simp [doneBy]), fun h => by cases h⟩
  obtain ⟨hserves, -, hframed, hsweep, -⟩ :=
    ((works_of_treeShaped hraised htree hcollects honce).all hraised hsorted hroot hstart).ok_of
      hall
  refine ⟨?_, fun d hd => ?_, fun k hk => ?_⟩
  · refine ⟨content, content, hroot, ?_, rfl, fun e he => ?_⟩
    · rw [hframed.old (Arena.lt_size_of_get? hroot)]
      exact hraised.grown.decls _ _ hroot
    · refine spells_of_mem_plan hraised hcollects hsweep (expr_mem_plan.2 (.inr (.inr ⟨rfl, ?_⟩)))
      rw [hroot]
      cases content <;> first | exact he | cases hcallable
  · obtain ⟨⟨x, hx⟩, context, hcontext⟩ : ServesCallable r d :=
      (List.mem_append.1 hd).elim (hserves.functions d) (hserves.constructors d)
    have hsub := substituted_of_plan hraised hcollects hframed hsweep hx fun e he =>
      expr_mem_plan.2 (.inl ⟨d, x, List.mem_append.1 hd, hx, hcontext, he⟩)
    cases context with
    | params captured => exact ⟨x, captured, hx, hcontext, hsub⟩
    | fields this captured =>
      -- only a class keeps captured values in fields
      obtain ⟨c, hc⟩ := hraised.classes hcontext
      exfalso
      rcases List.mem_append.1 hd with hd | hd
      · obtain ⟨-, -, f, hf⟩ := (hsorted.functions d).1 hd
        cases hc.symm.trans hf
      · obtain ⟨-, k, hk⟩ := (hsorted.constructors d).1 hd
        cases hc.symm.trans hk
  · obtain ⟨-, ⟨this, captured, hcontext⟩, hmembers⟩ := hserves.classes k hk
    refine ⟨this, captured, hcontext, fun m hm => ?_⟩
    obtain ⟨y, content, hy, hnew, -⟩ := hmembers m hm
    refine ⟨y, hy, fun z hz => ?_⟩
    obtain ⟨-, -, -, hcodes⟩ := hframed.same_codes hy hnew
    rw [hcodes] at hz
    obtain ⟨d, hd⟩ := exists_of_memberCodes hraised hy hz
    exact ⟨d, hd, substituted_of_plan hraised hcollects hframed hsweep hd fun e he =>
      expr_mem_plan.2 (.inr (.inl ⟨k, hk, m, hm, y, hy, z, hz, hcontext, he⟩))⟩

/-! ## §2. A member of two classes. -/

/-- The tables of a root, and the program before and after its code is retargeted. -/
structure Stages where
  locals : Locals
  closures : Closures
  relocation : Relocation
  before : Work
  after : Work

/-- The stages were run one after the other, and none faulted. -/
structure Stages.Ran (P : Program) (root : DeclId) (s : Stages) : Prop where
  locals : P.locals root = .ok s.locals
  closures : ∃ reports, P.closures root = .ok (s.closures, reports)
  relocation : Lift.relocation ⟨{}, root, s.locals, s.closures⟩ ⟨P, []⟩ = .ok s.relocation s.before
  retarget : Retarget.all s.locals s.relocation root s.before = .ok () s.after

/-- Runs the stages of a root. -/
def Program.stages? (P : Program) (root : DeclId) : Option Stages := do
  let locals ← (P.locals root).toOption
  let (closures, _) ← (P.closures root).toOption
  match Lift.relocation ⟨{}, root, locals, closures⟩ ⟨P, []⟩ with
  | .error _ _ => none
  | .ok relocation before =>
    match Retarget.all locals relocation root before with
    | .error _ _ => none
    | .ok _ after => some { locals, closures, relocation, before, after }

theorem Program.ran_of_stages? {P : Program} {root : DeclId} {s : Stages}
    (h : P.stages? root = some s) : s.Ran P root := by
  unfold stages? at h
  cases hlocals : P.locals root with
  | error f =>
    rw [hlocals] at h
    cases h
  | ok l =>
    cases hclosures : P.closures root with
    | error f =>
      rw [hlocals, hclosures] at h
      cases h
    | ok result =>
      obtain ⟨closures, reports⟩ := result
      rw [hlocals, hclosures] at h
      simp only [Except.toOption, Option.bind_eq_bind, Option.bind_some] at h
      split at h
      · cases h
      next r before hrelocation =>
        split at h
        · cases h
        next after hretarget =>
          cases h
          exact ⟨hlocals, ⟨reports, hclosures⟩, hrelocation, hretarget⟩

/-- Two local classes in a function whose parameter the member of the first reads.  What the second
lists is left open.

    fun make(n: Int) { class A { fun f() = n }; class B { … } }
-/
def Program.twoClasses (members : List DeclId) : Program where
  decls := ⟨#[.function { name := .ident "make", parent := none, visibility := .everywhere,
                          params := [⟨0⟩], ret := .int, body := some ⟨3⟩ },
    .cls { name := .ident "A", parent := some ⟨0⟩, kind := .plain, visibility := .inBody,
           this := ⟨1⟩, members := [⟨2⟩, ⟨3⟩], scope := { declared := [⟨3⟩] } },
    .constructor { parent := some ⟨1⟩, isPrimary := true, visibility := .everywhere },
    .function { name := .ident "f", parent := some ⟨1⟩, visibility := .everywhere,
                dispatchReceiver := some ⟨1⟩, ret := .int, body := some ⟨0⟩ },
    .cls { name := .ident "B", parent := some ⟨0⟩, kind := .plain, visibility := .inBody,
           this := ⟨2⟩, members },
    .constructor { parent := some ⟨4⟩, isPrimary := true, visibility := .everywhere }]⟩
  values := ⟨#[{ name := .ident "n", ty := .int, owner := ⟨0⟩, kind := .param 0 },
    { name := .this, ty := .cls ⟨1⟩, owner := ⟨1⟩, kind := .dispatchReceiver },
    { name := .this, ty := .cls ⟨4⟩, owner := ⟨4⟩, kind := .dispatchReceiver }]⟩
  exprs := ⟨#[.get ⟨0⟩, .decl ⟨1⟩, .decl ⟨4⟩, .block [⟨1⟩, ⟨2⟩]]⟩
  top := [⟨0⟩]

/-- The second class lists its constructor only, so every declaration is met once. -/
theorem retarget_substitutes_twoClasses : ∃ s : Stages, s.Ran (.twoClasses [⟨5⟩]) ⟨0⟩
    ∧ SubstitutesAll (.twoClasses [⟨5⟩])
      ⟨0⟩ s.locals s.relocation s.before.program s.after.program := by
  have hrun : ((Program.twoClasses [⟨5⟩]).stages? ⟨0⟩).any (fun s =>
      decide ((Program.retargeted (.twoClasses [⟨5⟩]) ⟨0⟩ s.locals).Nodup))
        = true := by decide +kernel
  obtain ⟨s, hs, honce⟩ := (Option.any_eq_true _ _).1 hrun
  have hran := Program.ran_of_stages? hs
  exact ⟨s, hran,
    retarget_substitutes ⟨_, rfl, rfl⟩ (by decide +kernel) (of_decide_eq_true honce) hran.locals
    hran.relocation hran.retarget⟩

/-- **The second class lists the member of the first too.**  The member is rewritten for the first
class and stays so, where the substitution for the second makes it read the second's field. -/
theorem shared_member_not_substituted : ∃ s : Stages,
    (Program.twoClasses [⟨5⟩, ⟨3⟩]).Closed ∧ (Program.twoClasses [⟨5⟩, ⟨3⟩]).Callable ⟨0⟩
    ∧ (Program.twoClasses [⟨5⟩, ⟨3⟩]).TreeShaped ∧ s.Ran (.twoClasses [⟨5⟩, ⟨3⟩]) ⟨0⟩
    ∧ ¬ SubstitutesAll (.twoClasses [⟨5⟩, ⟨3⟩])
      ⟨0⟩ s.locals s.relocation s.before.program s.after.program := by
  -- the member becomes 12; the fields of the two classes are 7 and 9, their receivers 3 and 4
  have hrun : ((Program.twoClasses [⟨5⟩, ⟨3⟩]).stages? ⟨0⟩).any (fun s =>
      decide (⟨4⟩ ∈ s.locals.classes.keys ∧ s.relocation.get? ⟨3⟩ = some ⟨12⟩
        ∧ (s.relocation.contexts.get? ⟨4⟩).bind (·.carrier? ⟨0⟩) = some (.field ⟨9⟩ ⟨4⟩)
        ∧ s.after.program.memberCodes ⟨12⟩ = [⟨12⟩]
        ∧ (s.after.program.decls.get? ⟨12⟩).bind (·.code) = some ⟨0⟩
        ∧ s.after.program.exprs.get? ⟨0⟩ = some (.getField ⟨7⟩ (some ⟨4⟩))
        ∧ s.after.program.exprs.get? ⟨4⟩ = some (.get ⟨3⟩))) = true := by decide +kernel
  obtain ⟨s, hs, hfacts⟩ := (Option.any_eq_true _ _).1 hrun
  obtain ⟨hclass, himage, hcarrier, hcodes, hcode, hnode, hreceiver⟩ := of_decide_eq_true hfacts
  refine ⟨s, by decide +kernel, ⟨_, rfl, rfl⟩, by decide +kernel,
    Program.ran_of_stages? hs, fun h => ?_⟩
  obtain ⟨this, captured, hcontext, hmembers⟩ := h.members _ hclass
  obtain ⟨y, hy, hall⟩ := hmembers ⟨3⟩ (by decide +kernel)
  obtain rfl : ⟨12⟩ = y := Option.mem_unique himage hy
  obtain ⟨d, -, content, content', -, hcontent', hsame, hspells⟩ := hall ⟨12⟩ (by simp [hcodes])
  rw [hcontent'] at hcode
  obtain ⟨tree, htree, hsubst⟩ := hspells ⟨0⟩ (hsame.symm.trans hcode)
  obtain rfl : .get ⟨0⟩ = tree := Program.Spells.unique ⟨1, rfl⟩ htree
  have hread : s.after.program.Spells ⟨0⟩ (.getField ⟨7⟩ (some (.get ⟨3⟩))) := by
    refine ⟨2, ?_⟩
    simp [Program.termUpTo, hnode, hreceiver, Expr.term?, Term.optional]
  have hcarrier' : Retarget.carrier? ⟨s.locals, s.relocation, some (.fields this captured)⟩ ⟨0⟩
      = some (.field ⟨9⟩ ⟨4⟩) := by
    rw [hcontext] at hcarrier
    exact hcarrier
  have := hread.unique hsubst
  simp [Retarget.subst, Retarget.readTerm, hcarrier'] at this

end LambdaLift
