/-
  LambdaLift.Proofs.Liftable
  **LOWERING A ROOT FAILS ON FOUR SHAPES ONLY.**

  Below a well-shaped root, four things cannot be lifted: a class in a
  class, a class without a primary constructor, a literal of a class that
  moves, and an assignment to a captured value.  If there is one of them,
  lowering the root ends in a report.  If there is none, it goes through,
  whatever else the program contains; no other fault is ever met.

  Main results:
    * `Lowering.lowerRoot_ends` — what lowering a root leaves behind;
    * `lowerRoot_fails_iff` — it fails exactly on those shapes.
-/
import Mathlib
import LambdaLift.Proofs.Answers
import LambdaLift.Proofs.Retargeted

namespace LambdaLift

variable {p : Program} {d root : DeclId} {locals : Locals}

/-! ## §1. What cannot be lifted. -/

namespace Program

/-- The code of `o` reads captured values as they come to `k`: a function that a statement places
has them itself; constructors and other members have those of their class. -/
inductive ReadsThrough (p : Program) (root : DeclId) : (o k : DeclId) → Prop
  | function {d : DeclId} {f : FunctionDecl} : p.Placed root d →
      p.decls.get? d = some (.function f) →
      ReadsThrough p root d d
  | constructor {k m : DeclId} {c : ClassDecl} {x : ConstructorDecl} : p.Placed root k →
      p.decls.get? k = some (.cls c) → m ∈ c.members → p.decls.get? m = some (.constructor x) →
      ReadsThrough p root m k
  | member {k m o : DeclId} {c : ClassDecl} : p.Placed root k → p.decls.get? k = some (.cls c) →
      m ∈ c.members → o ∈ p.memberCodes m → ReadsThrough p root o k

/-- **The shapes that lifting does not cover.** -/
inductive Unliftable (p : Program) (root : DeclId) : Prop
  /-- a class that is a member of a class -/
  | nested {k m : DeclId} {c : ClassDecl} : p.MemberBelow root k m →
      p.decls.get? m = some (.cls c) →
      Unliftable p root
  /-- a class without a primary constructor among its members -/
  | unconstructed {k : DeclId} {c : ClassDecl} : p.Placed root k → p.decls.get? k = some (.cls c) →
      (∀ m ∈ c.members, ∀ x, p.decls.get? m = some (.constructor x) → x.isPrimary = false) →
      Unliftable p root
  /-- a literal of a class that a statement places -/
  | literal {ds : List DeclId} {e : ExprId} {k : DeclId} : Occurs p root ds (.expr e) →
      p.exprs.get? e = some (.classRef k) → p.Placed root k → Unliftable p root
  /-- an assignment to a value that the code at hand has captured -/
  | write {o k : DeclId} {e source : ExprId} {v : ValueId} :
      p.ReadsThrough root o k → CodeOf p o e →
      p.exprs.get? e = some (.set v source) → Captured p root k v → Unliftable p root

/-- A function that a statement places is called on no instance. -/
theorem WellShaped.dispatch_of_placed {f : FunctionDecl} (h : p.WellShaped root)
    (hplaced : p.Placed root d) (hf : p.decls.get? d = some (.function f)) :
    f.dispatchReceiver = none := by
  obtain ⟨ds, e, hocc, he⟩ := hplaced
  obtain ⟨content, hd, hin⟩ := h.placedIn hocc he
  obtain rfl := Option.mem_unique hf hd
  exact hin.2

/-- Whatever is declared below a root stands in a placed declaration. -/
theorem exists_placed (hcallable : ∃ content ∈ p.decls.get? root, content.isCallable = true)
    {ds : List DeclId} {place : Place} (hocc : Occurs p root ds place) (hd : place.entry = .inr d) :
    ∃ x, p.Placed root x := by
  induction hocc generalizing d with
  | @part content place hroot hpart =>
    obtain ⟨content', hroot', hcallable⟩ := hcallable
    obtain rfl := Option.mem_unique hroot hroot'
    -- the one part of a callable is its body
    cases content <;> simp only [Declaration.isCallable, Bool.false_eq_true] at hcallable <;>
      simp only [Declaration.parts, List.mem_map] at hpart
      <;> obtain ⟨e, -, rfl⟩ := hpart <;> cases hd
  | @inner ds outer place label hocc hlabel hplace ih =>
    cases label with
    | decl d' content =>
      obtain ⟨rfl, -⟩ := label?_eq_decl.1 hlabel
      exact ih rfl
    | backing d' content =>
      obtain ⟨rfl, -⟩ := label?_eq_backing.1 hlabel
      exact ih rfl
    | expr e node =>
      obtain ⟨rfl, he⟩ := label?_eq_expr.1 hlabel
      by_cases hnode : ∃ x, node = .decl x
      · obtain ⟨x, rfl⟩ := hnode
        exact ⟨x, _, e, hocc, he⟩
      · -- operands are expressions
        have hplaces : (Label.expr e node).places .nested = node.operands.map .expr := by
          cases node <;> first | rfl | exact (hnode ⟨_, rfl⟩).elim
        rw [hplaces] at hplace
        obtain ⟨x, -, rfl⟩ := List.mem_map.1 hplace
        cases hd

end Program

/-! ## §2. Lowering one root. -/

/-- **What lowering a root leaves behind.**  Its local declarations have been collected, every one
of them has its replacement, and all code has been retargeted; the siblings are the replacements of
what was placed. -/
def LowersTo (p : Program) (root : DeclId) (siblings : List DeclId) (p' : Program) : Prop :=
  ∃ site dest r q, site.root = root ∧ site.Ready p dest ∧ Relocated p site dest r q
    ∧ Filling p site r q p'
    ∧ List.Forall₂ (fun d s => r.get? d = some s) site.locals.lifted siblings

namespace Program.ReadsThrough

variable {p : Program} {root o k k' : DeclId}

/-- A member of a placed class is a member below the root. -/
theorem memberBelow {m : DeclId} {c : ClassDecl} (hplaced : p.Placed root k)
    (hk : p.decls.get? k = some (.cls c)) (hm : m ∈ c.members) : p.MemberBelow root k m := by
  obtain ⟨ds, hocc⟩ := hplaced.occurs
  exact ⟨ds, c, hocc, hk, hm⟩

/-- Code reads through one declaration. -/
theorem unique (hp : p.WellShaped root) (h : p.ReadsThrough root o k)
    (h' : p.ReadsThrough root o k') : k = k' := by
  have hparent : ∀ {k k' m : DeclId}, p.MemberBelow root k m →
      p.MemberBelow root k' m → k = k' := by
    rintro k k' m ⟨ds, c, hocc, hk, hm⟩ ⟨ds', c', hocc', hk', hm'⟩
    obtain ⟨content, hcontent, hmember⟩ := hp.memberOf hocc hk hm
    obtain ⟨content', hcontent', hmember'⟩ := hp.memberOf hocc' hk' hm'
    obtain rfl := Option.mem_unique hcontent hcontent'
    exact Option.mem_unique hmember.parent hmember'.parent
  cases h with
  | function hplaced hf =>
    cases h' with
    | function => rfl
    | constructor _ _ _ hx => cases hf.symm.trans hx
    | member hplaced' hk hm ho =>
      exact absurd hplaced (hp.memberCodes_disjoint (memberBelow hplaced' hk hm) ho).1
  | constructor hplaced hk hm hx =>
    cases h' with
    | function _ hf => cases hf.symm.trans hx
    | constructor hplaced' hk' hm' =>
      exact hparent (memberBelow hplaced hk hm) (memberBelow hplaced' hk' hm')
    | member hplaced' hk' hm' ho =>
      exact absurd hx ((hp.memberCodes_disjoint (memberBelow hplaced' hk' hm') ho).2 _)
  | member hplaced hk hm ho =>
    have hbelow := memberBelow hplaced hk hm
    cases h' with
    | function hplaced' => exact absurd hplaced' (hp.memberCodes_disjoint hbelow ho).1
    | constructor _ _ _ hx => exact absurd hx ((hp.memberCodes_disjoint hbelow ho).2 _)
    | member hplaced' hk' hm' ho' =>
      have hbelow' := memberBelow hplaced' hk' hm'
      exact (hp.memberCodes_inj hbelow hbelow' ho ho').1

/-- The code of the root reads through nothing. -/
theorem ne_root (hp : p.WellShaped root) (h : p.ReadsThrough root o k) : o ≠ root := by
  rintro rfl
  cases h with
  | function hplaced => exact hp.entry_ne_root hplaced.occurs.choose_spec rfl
  | constructor hplaced hk hm =>
    exact hp.entry_ne_root (memberBelow hplaced hk hm).occurs.choose_spec rfl
  | member hplaced hk hm ho =>
    obtain ⟨ds, place, hocc, hentry⟩ :=
      WellShaped.occurs_of_memberCodes (memberBelow hplaced hk hm) ho
    exact hp.entry_ne_root hocc hentry

end Program.ReadsThrough

section

variable {p : Program} {site : Site} {dest : Option DeclId} {r : Relocation} {q p' : Program}
  (hsite : site.Ready p dest) (h : Relocated p site dest r q)
include hsite h

/-- The context of a piece of code carries what the declaration captures that the code reads
through. -/
theorem Relocated.carrier_iff {o k : DeclId} (hmem : (o, k) ∈ site.codes p) {v : ValueId} :
    (Retarget.carrier? ⟨site.locals, r, r.contexts.get? k⟩ v).isSome = true
      ↔ ∃ k', p.ReadsThrough site.root o k' ∧ Captured p site.root k' v := by
  -- it is enough to know one declaration that the code reads through
  have honly : ∀ {k'}, p.ReadsThrough site.root o k' →
      ((∃ k', p.ReadsThrough site.root o k' ∧ Captured p site.root k' v) ↔ v ∈ site.taken k') := by
    intro k' hk'
    rw [hsite.taken]
    refine ⟨?_, fun hv => ⟨k', hk', hv⟩⟩
    rintro ⟨k'', hk'', hv⟩
    exact hk'.unique hsite.shaped hk'' ▸ hv
  unfold Retarget.carrier?
  cases h.readsBy hsite hmem with
  | root hcontext =>
    simp only [hcontext, Option.bind_none, Option.isSome_none, Bool.false_eq_true, false_iff,
      not_exists, not_and]
    exact fun k' hk' => absurd rfl (hk'.ne_root hsite.shaped)
  | function hplaced hf _ hcaps hcontext =>
    rw [honly (.function hplaced hf), ← (OrderedMap.get?_ofList_zip hcaps (site.taken_nodup _)).1,
      hcontext]
    simp [Context.carrier?]
  | constructor hmember hc _ hcaps hcontext =>
    obtain ⟨ds, c', hocc, hk', hmem'⟩ := hmember
    rw [honly (.constructor ?_ hk' hmem' hc), ← (OrderedMap.get?_ofList_zip hcaps
      (site.taken_nodup _)).1, hcontext]
    · simp [Context.carrier?]
    · exact by_contra fun hnot => h.noNested (hsite.shaped.nestsClass_of_not_placed hocc hk' hnot)
  | member hplaced hk hm ho _ _ hfields hcontext =>
    rw [honly (.member hplaced hk hm ho), ← (OrderedMap.get?_ofList_zip hfields
      (site.taken_nodup _)).1, hcontext]
    simp [Context.carrier?]

/-- **What went through had none of the shapes.** -/
theorem Relocated.liftable (hfilling : Filling p site r q p') :
    ¬ p.Unliftable site.root := by
  -- a node of a piece of code has become something, so it was not refused
  have hnode : ∀ {o k e node}, (o, k) ∈ site.codes p → CodeOf p o e → p.exprs.get? e = some node →
      ¬ Retarget.Refuses ⟨site.locals, r, r.contexts.get? k⟩ node := by
    intro o k e node hmem hcode he
    rw [← h.settled.exprs] at he
    obtain ⟨node', -, hto⟩ := hfilling.sweep.nodes ⟨_, hmem, hcode, rfl⟩ he
    exact hto.not_refused
  intro hbad
  cases hbad with
  | nested hm hc => exact h.noNested ⟨_, _, _, hm, hc⟩
  | unconstructed hplaced hk hnone =>
    obtain ⟨c', _, _, _, _, _, primary, _, hk', _, _, _, _, _, hprimary, _⟩ :=
      hfilling.classes _ ((hsite.collected.classes _).2 ⟨hplaced, _, hk⟩)
    cases hk.symm.trans hk'
    obtain ⟨x, hx, hyes⟩ := Program.isPrimary_iff.1 (List.find?_some hprimary)
    rw [hnone primary (List.mem_of_find?_eq_some hprimary) x hx] at hyes
    cases hyes
  | literal hocc he hplaced =>
    obtain ⟨o, howner, hcode⟩ := hocc.exists_owner
    obtain ⟨content, x, ho, hx⟩ := hcode.exists_code
    obtain ⟨k, hmem⟩ := hsite.exists_code h.noNested howner ho hx
    refine hnode hmem hcode he ?_
    obtain ⟨content', hk, hclass⟩ :=
      hsite.shaped.wellPlaced hocc (Program.label?_eq_expr.2 ⟨rfl, he⟩)
    cases content' with
    | cls c =>
      obtain ⟨_, _, _, _, -, -, hnew, -⟩ :=
        h.class_parts hsite ((hsite.collected.classes _).2 ⟨hplaced, c, hk⟩)
      show (r.get? _).isSome = true
      rw [hnew]
      rfl
    | _ => cases hclass
  | @write o k e source v hthrough hcode he hcaptured =>
    obtain ⟨k', hmem⟩ : ∃ k', (o, k') ∈ site.codes p := by
      cases hthrough with
      | function hplaced hf =>
        exact ⟨_,
          Site.mem_codes_iff.2 (.inl ⟨(hsite.collected.functions _).2 ⟨hplaced, _, hf⟩, rfl⟩)⟩
      | constructor hplaced hk hm hx =>
        exact ⟨_, Site.mem_codes_iff.2 (.inr (.inl ⟨(hsite.collected.constructors _).2
          ⟨_, _, Program.ReadsThrough.memberBelow hplaced hk hm, hx⟩, rfl⟩))⟩
      | member hplaced hk hm ho =>
        exact ⟨_,
          Site.mem_codes_of_member ((hsite.collected.classes _).2 ⟨hplaced, _, hk⟩) hk hm ho⟩
    exact hnode hmem hcode he ((h.carrier_iff hsite hmem).2 ⟨k, hthrough, hcaptured⟩)

/-- **Only the shapes stop retargeting.** -/
theorem Relocated.allows : Allows p site r fun f => f.isReport = true ∧ p.Unliftable site.root where
  refused {o k e node} hmem hcode he f hf hrefuses := by
    refine ⟨hf, ?_⟩
    obtain ⟨scopes, howner⟩ := hsite.owner hmem
    cases node with
    | set v source =>
      obtain ⟨k', hthrough, hcaptured⟩ := (h.carrier_iff hsite hmem).1 hrefuses
      exact .write hthrough hcode he hcaptured
    | classRef k' =>
      have hocc := howner.occurs hcode
      refine .literal hocc he ?_
      obtain ⟨content, hk', hclass⟩ :=
        hsite.shaped.wellPlaced hocc (Program.label?_eq_expr.2 ⟨rfl, he⟩)
      obtain ⟨content', new, replacement, hk'', -, -, hreplaces⟩ := h.moved hrefuses
      obtain rfl := Option.some.inj (Eq.trans (Eq.symm hk') hk'')
      generalize replacement.erase = erased at hreplaces
      cases hreplaces with
      | cls hplaced => exact hplaced
      | _ => cases hclass
    | _ => exact hrefuses.elim
  primary hplaced hk hnone f hf := ⟨hf, .unconstructed hplaced hk hnone⟩

end

namespace Lowering

variable {p : Program} {root : DeclId} (h : p.WellShaped root) (settings : Settings)
  {events : List Event}
include h

/-- The collected declarations and the closures are what lifting works from. -/
theorem ready {cl : Closures} {content : Declaration} (hlocals : p.locals root = .ok locals)
    (hroot : p.decls.get? root = some content)
    (hkeys : ∀ d, d ∈ OrderedMap.keys cl ↔ Opens p root d)
    (hholds : ∀ d v, cl.Holds d v ↔ Captured p root d v) :
    Site.Ready { settings, root, locals, closures := cl } p content.parent where
  shaped := h
  locals := hlocals
  collected := by
    have hcollected := h.collected
    rwa [hlocals] at hcollected
  dest := ⟨content, hroot, rfl⟩
  closures {d} hplaced := by
    obtain ⟨ds, hocc⟩ := hplaced.occurs
    have hopens : Opens p root d := by
      rcases h.placed_kind hplaced with ⟨f, hf⟩ | ⟨c, hc⟩
      · exact ⟨ds, _, _, _, hocc, Program.label?_eq_decl.2 ⟨rfl, hf⟩, rfl⟩
      · exact ⟨ds, _, _, _, hocc, Program.label?_eq_decl.2 ⟨rfl, hc⟩, rfl⟩
    cases hc : cl.get? d with
    | none => exact absurd ((hkeys d).2 hopens) (OrderedMap.get?_eq_none_iff.1 hc)
    | some c => exact ⟨c, rfl⟩
  taken {d v} := by
    rw [← hholds]
    unfold Site.taken Closures.Holds
    cases cl.get? d <;> simp

omit h in
/-- The replacement of a placed declaration has a header. -/
theorem replaced_header {site : Site} {dest : Option DeclId} {r : Relocation} {q p' : Program}
    (hsite : site.Ready p dest) (h : Relocated p site dest r q)
    (hfilling : Filling p site r q p') (hd : d ∈ site.locals.lifted) :
    ∃ new, r.get? d = some new ∧ ∃ text, p'.header new = .ok text := by
  have hsize : q.decls.size ≤ p'.decls.size := hfilling.sweep.declsSize.ge
  have hheader : ∀ {new content}, q.decls.get? new = some content → content.field? = none →
      ∃ text, p'.header new = .ok text := by
    intro new content hnew hfield
    obtain ⟨content', hnew', hfilled⟩ := hfilling.sweep.filled hnew
    refine Program.header_answers_of_field?
      (Program.closed_iff.2 (hfilling.closed.mono hsize)) hnew' ?_
    cases hfilled with
    | same => exact hfield
    | cls => rfl
    | field => cases hfield
  rcases List.mem_append.1 hd with hd | hd
  · obtain ⟨⟨ds, e, hocc, he⟩, f, hf⟩ := (hsite.collected.functions d).1 hd
    obtain ⟨content, new, content', hd', hnew, hcontent', hreplaces⟩ :=
      h.moved_self (by simp [Locals.tables, hd]) hf
      (by simp) fun _ _ => hsite.shaped.isMember_placed hocc he
    obtain rfl := Option.mem_unique hf hd'
    refine ⟨new, hnew, hheader hcontent' ?_⟩
    generalize herase : content'.erase = erased at hreplaces
    cases hreplaces with
    | function => obtain ⟨_, rfl⟩ := Declaration.eq_function_of_erase herase; rfl
    | method => obtain ⟨_, rfl⟩ := Declaration.eq_function_of_erase herase; rfl
  · obtain ⟨_, new, _, _, -, -, hnew, hc', -⟩ := h.class_parts hsite hd
    exact ⟨new, hnew, hheader hc' rfl⟩

/-- The stages of a root below which something is placed. -/
theorem lowerLocals_ends (hlocals : p.locals root = .ok locals) :
    Step.Ends (lowerLocals settings root locals) ⟨p, events⟩
      (fun siblings w => ¬ p.Unliftable root ∧ LowersTo p root siblings w.program)
      (fun f => f.isReport = true ∧ p.Unliftable root) := by
  obtain ⟨content, hroot, -⟩ := h.exists_root
  obtain ⟨cl, reports, hclosures, hkeys, hholds⟩ := h.closures h.isLocal_of_opens
  have hsite := ready h settings hlocals hroot hkeys hholds
  unfold lowerLocals
  refine .step (Step.reportStage_eq hroot)
    (.step Step.program_eq (.step (Step.liftExcept_eq hclosures) ?_))
  refine .step Step.report_eq (.step (Step.reportStage_eq hroot) (.bind ?_))
  refine (Lift.relocation_ends (fun f hf ⟨_, _, _, hm, hc⟩ => ⟨hf, .nested hm hc⟩) hsite rfl).mono
    fun r w₁ h₁ => ?_
  have hroot₁ : w₁.program.decls.get? root = some content := h₁.settled.decls _ _ hroot
  refine .step (Step.reportStage_eq hroot₁) (.bind ?_)
  refine Step.Yields.mono (h₁.all_ends hsite (h₁.allows hsite) ?_) fun _ w₂ h₂ => ?_
  · rfl
  have hroot₂ : w₂.program.decls.get? root = some content := h₁.kept_of_old h₂.same hroot
  refine .step (Step.reportStage_eq hroot₂) ?_
  refine Step.Yields.mono (Step.Yields.mapM (fun seen siblings w => w.program = w₂.program
    ∧ List.Forall₂ (fun d s => r.get? d = some s) seen siblings) ?_ ?_) fun siblings w hw => ?_
  · intro seen d rest siblings w hsplit hw
    have hd : d ∈ locals.lifted := by simp [hsplit]
    obtain ⟨new, hnew, text, htext⟩ := replaced_header hsite h₁ h₂ hd
    refine .step (Step.liftExcept_eq (Relocation.lifted_eq hnew)) (.step Step.program_eq ?_)
    rw [hw.1]
    refine .step (Step.liftExcept_eq htext) (.step Step.report_eq (.pure ⟨hw.1, ?_⟩))
    exact List.rel_append hw.2 (.cons hnew .nil)
  · exact ⟨rfl, .nil⟩
  · refine ⟨h₁.liftable hsite h₂, _, _, r, _, rfl, hsite, h₁, ?_, hw.2⟩
    rw [hw.1]
    exact h₂

/-- **Lowering a well-shaped root** leaves it as it was if nothing is declared below it, and
otherwise lifts everything; or one of the shapes is reported. -/
theorem lowerRoot_ends : Step.Ends (lowerRoot settings root) ⟨p, events⟩
    (fun siblings? w => ¬ p.Unliftable root ∧ match siblings? with
      | none => w = ⟨p, events⟩ ∧ ∀ d, ¬ p.Placed root d
      | some siblings => LowersTo p root siblings w.program)
    (fun f => f.isReport = true ∧ p.Unliftable root) := by
  have hcollected := h.collected
  unfold lowerRoot
  refine .step Step.program_eq ?_
  cases hlocals : p.locals root with
  | error f =>
    rw [hlocals] at hcollected
    obtain ⟨k, m, c, hm, hc, rfl⟩ := hcollected
    exact .bind (.throw ⟨rfl, .nested hm hc⟩)
  | ok locals =>
    rw [hlocals] at hcollected
    replace hcollected : p.Collected root locals := hcollected
    refine .step (Step.liftExcept_eq rfl) ?_
    by_cases hempty : locals.isEmpty = true
    · rw [if_pos hempty]
      have hnone : ∀ d, ¬ p.Placed root d := by
        intro d hplaced
        simp only [Locals.isEmpty, OrderedMap.isEmpty, Bool.and_eq_true, List.isEmpty_iff] at hempty
        rcases h.placed_kind hplaced with hf | hc
        · simpa [OrderedMap.keys, hempty.1] using (hcollected.functions d).2 ⟨hplaced, hf⟩
        · simpa [OrderedMap.keys, hempty.2] using (hcollected.classes d).2 ⟨hplaced, hc⟩
      refine .pure ⟨fun hbad => ?_, rfl, hnone⟩
      cases hbad with
      | nested hm _ =>
        exact hnone _ (Program.exists_placed h.callable hm.occurs.choose_spec rfl).choose_spec
      | unconstructed hplaced => exact hnone _ hplaced
      | literal _ _ hplaced => exact hnone _ hplaced
      | write hthrough =>
        cases hthrough with
        | function hplaced => exact hnone _ hplaced
        | constructor hplaced => exact hnone _ hplaced
        | member hplaced => exact hnone _ hplaced
    · rw [if_neg hempty]
      exact .map ((lowerLocals_ends h settings hlocals).mono fun siblings w hw => hw)

end Lowering

/-- **Lowering a well-shaped root fails exactly on the shapes that lifting does not cover**, and
then it reports one: a handle that leads nowhere and nesting that never ends are not met. -/
theorem lowerRoot_fails_iff {p : Program} {root : DeclId} (h : p.WellShaped root)
    (settings : Settings) (events : List Event) :
    ((∃ f w, Lowering.lowerRoot settings root ⟨p, events⟩ = .error f w) ↔ p.Unliftable root)
      ∧ ∀ f w, Lowering.lowerRoot settings root ⟨p, events⟩ = .error f w → f.isReport = true := by
  have hends : Step.Ends (Lowering.lowerRoot settings root) ⟨p, events⟩ _ _ :=
    Lowering.lowerRoot_ends h settings
  unfold Step.Ends Step.Yields at hends
  cases hresult : Lowering.lowerRoot settings root ⟨p, events⟩ with
  | ok siblings? w =>
    rw [hresult] at hends
    exact ⟨⟨nofun, fun hbad => absurd hbad hends.1⟩, nofun⟩
  | error f w =>
    rw [hresult] at hends
    exact ⟨⟨fun _ => hends.2, fun _ => ⟨f, w, rfl⟩⟩, by rintro f' w' ⟨⟩; exact hends.1⟩

/-- A function that places an object whose method captures. -/
theorem lowerRoot_fails_iff_anonymousObject :
    (Sample.program Sample.anonymousObject).WellShaped ⟨0⟩
      ∧ ((∃ f w, Lowering.lowerRoot {} ⟨0⟩ ⟨Sample.program Sample.anonymousObject, []⟩ = .error f w)
        ↔ (Sample.program Sample.anonymousObject).Unliftable ⟨0⟩)
      ∧ ∀ f w, Lowering.lowerRoot {} ⟨0⟩ ⟨Sample.program Sample.anonymousObject, []⟩ = .error f w →
        f.isReport = true := by
  have hshaped : (Sample.program Sample.anonymousObject).WellShaped ⟨0⟩ := by decide +kernel
  exact ⟨hshaped, lowerRoot_fails_iff hshaped {} []⟩

end LambdaLift
