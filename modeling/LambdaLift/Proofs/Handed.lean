/-
  LambdaLift.Proofs.Handed
  **THE FUNCTIONS OF A LOWERED ROOT ARE HANDED WHAT THEY CAPTURED.**

  Lowering a root of nested functions gives each function below it a
  replacement that takes the captured values first.  Its code names the
  parameter that carries a captured value, the copy of a parameter of its
  own, or a variable as before.  A call hands the callee what it captured,
  and what the caller hands on it has bound itself or was handed.

  Main results:
    * `Lifts.named` — what code names for a value, and who owns that;
    * `Lifts.nodeTo` — what becomes of a node;
    * `Lifts.covers` — what becomes of a function.
-/
import Mathlib
import LambdaLift.Proofs.Intact
import LambdaLift.Proofs.Liftable

namespace LambdaLift

variable {P p : Program} {d new root : DeclId} {e : ExprId} {v x : ValueId} {node : Expr}
  {f : FunctionDecl} {caps copies old : List ValueId} {t : Retarget}

open Program

theorem eq_map_of_forall₂ {α β : Type} {R : α → β → Prop} {g : α → β} {as : List α} {bs : List β}
    (h : List.Forall₂ R as bs) (hR : ∀ a ∈ as, ∀ b, R a b → b = g a) : bs = as.map g := by
  have heq : List.Forall₂ (fun a b => g a = b) as bs :=
    forall₂_imp_mem h fun a ha b hab => (hR a ha b hab).symm
  rwa [← List.forall₂_map_left_iff, List.forall₂_eq_eq_eq, eq_comm] at heq

theorem forall₂_append_left {α β : Type} {R : α → β → Prop} {as as' : List α} {bs : List β}
    (h : List.Forall₂ R (as ++ as') bs) :
    ∃ bs₁ bs₂, bs = bs₁ ++ bs₂ ∧ List.Forall₂ R as bs₁ ∧ List.Forall₂ R as' bs₂ := by
  induction as generalizing bs with
  | nil => exact ⟨[], bs, rfl, .nil, h⟩
  | cons a as ih =>
    cases h with
    | cons hab h =>
      obtain ⟨bs₁, bs₂, rfl, h₁, h₂⟩ := ih h
      exact ⟨_ :: bs₁, bs₂, rfl, .cons hab h₁, h₂⟩

theorem eq_map_of_optionRel {α β : Type} {R : α → β → Prop} {g : α → β} {a? : Option α}
    {b? : Option β} (h : Option.Rel R a? b?)
    (hR : ∀ a ∈ a?, ∀ b, R a b → b = g a) : b? = a?.map g := by
  cases h with
  | none => rfl
  | some hab => exact congrArg some (hR _ rfl _ hab)

/-- What was put together from two lists is found again. -/
theorem OrderedMap.forall₂_get?_ofList_zip {κ α : Type} [DecidableEq κ] {ks : List κ} {as : List α}
    (hlength : ks.length = as.length) (hnodup : ks.Nodup) :
    List.Forall₂ (fun k a => (OrderedMap.ofList (ks.zip as)).get? k = some a) ks as := by
  refine List.forall₂_iff_zip.2 ⟨hlength, fun {k a} hmem => ?_⟩
  rwa [OrderedMap.get?_eq_some_iff, OrderedMap.entries_ofList_zip hnodup hlength]

/-- The value that code names for another. -/
def Retarget.seen (t : Retarget) (v : ValueId) : ValueId :=
  match t.carrier? v with
  | some (.param x) => x
  | _ => t.counterpart v

theorem Retarget.seen_eq_param (h : t.carrier? v = some (.param x)) : t.seen v = x := by
  simp [seen, h]

theorem Retarget.seen_eq_counterpart (h : t.carrier? v = none) :
    t.seen v = (t.relocation.values.forth? v).getD v := by
  simp [seen, h, counterpart]

/-- What the code of a function is retargeted by. -/
def Site.reader (site : Site) (r : Relocation) (d : DeclId) : Retarget :=
  ⟨site.locals, r, r.contexts.get? d⟩

/-! ## §1. One root is lowered. -/

/-- A root of nested functions that was as at the start has been lowered. -/
structure Lifts (P p : Program) (site : Site) (r : Relocation) (q p' : Program) : Prop where
  nest : P.Nest site.root
  intact : P.Intact p site.root
  ready : site.Ready p none
  relocated : Relocated p site none r q
  filling : Filling p site r q p'

/-- The replacement of a function: it takes captured values, then copies of what the function
took. -/
structure Replacement (site : Site) (r : Relocation) (q p' : Program) (d new : DeclId)
    (f f' : FunctionDecl) (caps copies : List ValueId) : Prop where
  moved : r.get? d = some new
  there : p'.decls.get? new = some (.function f')
  parent : f'.parent = none
  body : f'.body = f.body
  params : f'.params = caps ++ copies
  handed : List.Forall₂ (Carries r q new) (site.taken d) caps
  copied : List.Forall₂ (Copies r q new) f.params copies
  receiver : Option.Rel (Copies r q new) f.extensionReceiver f'.extensionReceiver
  context : r.contexts.get? d = some (.params (.ofList ((site.taken d).zip caps)))

namespace Lifts

variable {P p q p' : Program} {site : Site} {r : Relocation} (h : Lifts P p site r q p')
include h

theorem mem_taken_iff : v ∈ site.taken d ↔ Captured P site.root d v :=
  h.ready.taken.trans (h.intact.captured_iff h.nest h.ready.shaped.closed h.ready.shaped.chains)

theorem taken_root : site.taken site.root = [] :=
  List.eq_nil_iff_forall_not_mem.2 fun v hv => h.nest.not_captured_root v (h.mem_taken_iff.1 hv)

/-- A placed function has its replacement. -/
theorem exists_replacement (hplaced : P.Placed site.root d)
    (hf : P.decls.get? d = some (.function f)) :
    ∃ new f' caps copies, Replacement site r q p' d new f f' caps copies := by
  have hplaced := (h.intact.placed_iff h.nest).2 hplaced
  have hf := h.intact.decls _ _ hf
  have hdispatch := h.ready.shaped.dispatch_of_placed hplaced hf
  have hkey := (h.ready.collected.functions d).2 ⟨hplaced, f, hf⟩
  obtain ⟨ds, e, hocc, he⟩ := hplaced
  obtain ⟨_, new, _, -, hnew, -, -⟩ :=
    h.relocated.moved_self (by simp [Locals.tables, hkey]) hf (by simp)
    fun _ _ => h.ready.shaped.isMember_placed hocc he
  obtain ⟨content', hcontent', hreplaces⟩ :=
    h.relocated.kept_of_moved h.ready (fun _ hk => hk) h.filling.same hf
    (by simp) hnew
  generalize herase : content'.erase = erased at hreplaces
  cases hreplaces with
  | function _ _ hext hpasses =>
    obtain ⟨caps, copies, rfl, hcaps, hcopies, hcontext⟩ := hpasses
    obtain ⟨overrides, rfl⟩ := Declaration.eq_function_of_erase herase
    exact ⟨new, _, caps, copies, hnew, hcontent', rfl, rfl, rfl, hcaps, hcopies, hext, hcontext⟩
  | method _ _ _ hdispatch' => rw [hdispatch] at hdispatch'; cases hdispatch'

/-- What has a replacement is what is placed below the root. -/
theorem isSome_iff : (r.get? d).isSome ↔ P.Placed site.root d := by
  constructor
  · intro hd
    obtain ⟨ds, place, hocc, hentry⟩ := h.relocated.occurs h.ready hd
    exact h.nest.placed_of_entry ((h.intact.occurs_iff h.nest).1 hocc) hentry
  · intro hplaced
    obtain ⟨f, hf, -⟩ := h.nest.exists_function (.inr hplaced)
    obtain ⟨new, _, _, _, hreplacement⟩ := h.exists_replacement hplaced hf
    rw [hreplacement.moved]
    rfl

theorem get?_eq_none (hd : ¬ P.Placed site.root d) : r.get? d = none := by
  rwa [← Option.not_isSome_iff_eq_none, h.isSome_iff]

theorem retarget_eq (hd : ¬ P.Placed site.root d) : r.retarget d = d := by
  rw [Relocation.retarget, h.get?_eq_none hd]
  rfl

theorem not_placed_root : ¬ P.Placed site.root site.root := by
  intro hplaced
  obtain ⟨ds, hocc⟩ := hplaced.occurs
  exact h.nest.shaped.entry_ne_root hocc rfl

/-- Replacements have no replacements. -/
theorem get?_new (hnew : r.get? d = some new) : r.get? new = none := by
  refine h.get?_eq_none fun hplaced => ?_
  obtain ⟨f, hf, -⟩ := h.nest.exists_function (.inr hplaced)
  have hlt := Arena.lt_size_of_get? (h.intact.decls _ _ hf)
  have := (h.relocated.settled.moved hnew).2.1
  omega

/-- What belongs to a declaration that stays still belongs to it. -/
theorem owns {o : DeclId} (hx : q.Owns o x) (ho : r.get? o = none) : p'.Owns o x := by
  obtain ⟨value, hvalue, rfl⟩ := hx
  obtain ⟨owner, hvalue', howner⟩ := h.filling.sweep.values hvalue
  refine ⟨_, hvalue', ?_⟩
  rcases howner with rfl | rfl
  · rfl
  · rw [Relocation.retarget, ho]
    rfl

/-! ## §2. What code names. -/

/-- The pieces of code are those of the functions of the root. -/
theorem covered (hd : P.FunctionOf site.root d) (he : CodeOf P d e) :
    Covered p r (site.codes p) e (r.contexts.get? d) := by
  refine ⟨(d, d), Site.mem_codes_iff.2 ?_, (h.intact.codeOf_iff h.nest hd).2 he, rfl⟩
  rcases hd with rfl | hplaced
  · exact .inr (.inr (.inr ⟨rfl, rfl⟩))
  · obtain ⟨f, hf, -⟩ := h.nest.exists_function (.inr hplaced)
    exact .inl ⟨(h.ready.collected.functions d).2
      ⟨(h.intact.placed_iff h.nest).2 hplaced, f, h.intact.decls _ _ hf⟩, rfl⟩

/-- Code is as it was when signatures have been built. -/
theorem expr_eq (hd : P.FunctionOf site.root d) (he : CodeOf P d e)
    (hnode : P.exprs.get? e = some node) : q.exprs.get? e = some node := by
  obtain ⟨ds, howner, -⟩ := h.nest.exists_scopes hd
  rw [h.relocated.settled.exprs]
  exact h.intact.exprs (howner.occurs he) hnode

omit h in
/-- What a function captured is carried by its parameters, and nothing else is carried. -/
theorem carrier_of_replacement {f' : FunctionDecl}
    (hreplacement : Replacement site r q p' d new f f' caps copies) :
    List.Forall₂ (fun v x => (site.reader r d).carrier? v = some (.param x)) (site.taken d) caps
      ∧ ∀ v ∉ site.taken d, (site.reader r d).carrier? v = none := by
  have hcarrier : ∀ v, (site.reader r d).carrier? v
      = ((OrderedMap.ofList ((site.taken d).zip caps)).get? v).map .param := by
    intro v
    simp [Retarget.carrier?, Site.reader, hreplacement.context, Context.carrier?]
  constructor
  · refine (OrderedMap.forall₂_get?_ofList_zip hreplacement.handed.length_eq
      (site.taken_nodup d)).imp ?_
    intro v x hx
    rw [hcarrier, hx]
    rfl
  · intro v hv
    rw [← (OrderedMap.get?_ofList_zip hreplacement.handed (site.taken_nodup d)).1 v,
      Option.not_isSome_iff_eq_none] at hv
    rw [hcarrier, hv]
    rfl

/-- The code of the root captured nothing. -/
theorem carrier_root (v : ValueId) : (site.reader r site.root).carrier? v = none := by
  have hcontext : r.contexts.get? site.root = none := by
    refine Option.not_isSome_iff_eq_none.1 fun hsome => ?_
    obtain ⟨c, hc⟩ := Option.isSome_iff_exists.1 hsome
    exact h.not_placed_root (h.isSome_iff.1 (h.relocated.settled.contexts hc))
  simp [Retarget.carrier?, Site.reader, hcontext]

/-- **What carries a value in the code of a function**: a parameter if the function captured the
value, else nothing. -/
theorem carrier_cases (hd : P.FunctionOf site.root d) (v : ValueId) :
    (v ∈ site.taken d ∧ ∃ new x, r.get? d = some new
      ∧ (site.reader r d).carrier? v = some (.param x)
        ∧ Carries r q new v x)
      ∨ v ∉ site.taken d ∧ (site.reader r d).carrier? v = none := by
  rcases hd with rfl | hplaced
  · refine .inr ⟨?_, h.carrier_root v⟩
    rw [h.taken_root]
    exact List.not_mem_nil
  · obtain ⟨f, hf, -⟩ := h.nest.exists_function (.inr hplaced)
    obtain ⟨new, f', caps, copies, hreplacement⟩ := h.exists_replacement hplaced hf
    obtain ⟨hsome, hnone⟩ := carrier_of_replacement hreplacement
    by_cases hv : v ∈ site.taken d
    · have hboth : List.Forall₂ (fun v x => (site.reader r d).carrier? v = some (.param x)
          ∧ Carries r q new v x)
          (site.taken d) caps :=
        List.forall₂_iff_zip.2 ⟨hsome.length_eq, fun hmem =>
          ⟨(List.forall₂_iff_zip.1 hsome).2 hmem,
            (List.forall₂_iff_zip.1 hreplacement.handed).2 hmem⟩⟩
      obtain ⟨x, -, hx, hcarries⟩ := forall₂_right hboth hv
      exact .inl ⟨hv, new, x, hreplacement.moved, hx, hcarries⟩
    · exact .inr ⟨hv, hnone v hv⟩

/-- What code names instead of a value: the parameter that carries it, its copy, or the value
itself. -/
inductive Named (p : Program) (site : Site) (r : Relocation) (d : DeclId)
    (v : ValueId) : ValueId → Prop
  | captured {x : ValueId} : v ∈ site.taken d → r.carried.get? x = some v →
      r.values.back? x = none →
      p.values.size ≤ x.index → Named p site r d v x
  | copied {x : ValueId} : v ∉ site.taken d → r.values.back? x = some v → p.values.size ≤ x.index →
      Named p site r d v x
  | kept : v ∉ site.taken d → v.index < p.values.size → Named p site r d v v

omit h in
/-- Different values have different names. -/
theorem Named.inj {u : ValueId} (hu : Named p site r d u x)
    (hv : Named p site r d v x) : u = v := by
  cases hu with
  | captured _ hcarried hback hle =>
    cases hv with
    | captured _ hcarried' => exact Option.mem_unique hcarried hcarried'
    | copied _ hback' => cases hback.symm.trans hback'
    | kept _ hlt => omega
  | copied _ hback hle =>
    cases hv with
    | captured _ _ hback' => cases hback'.symm.trans hback
    | copied _ hback' => exact Option.mem_unique hback hback'
    | kept _ hlt => omega
  | kept _ hlt =>
    cases hv with
    | captured _ _ _ hle => omega
    | copied _ _ hle => omega
    | kept => rfl

/-- A value that is not carried and has no counterpart keeps its name. -/
theorem named_kept (hd : P.FunctionOf site.root d) (hv : P.Owns d v) (htaken : v ∉ site.taken d)
    (hforth : r.values.forth? v = none) : (site.reader r d).seen v = v ∧ Named p site r d v v := by
  have hcarrier := (h.carrier_cases hd v).resolve_left fun hcase => htaken hcase.1
  obtain ⟨value, hvalue, rfl⟩ := hv
  refine ⟨?_, .kept htaken (Arena.lt_size_of_get? (h.intact.values hvalue hd))⟩
  rw [Retarget.seen_eq_counterpart hcarrier.2]
  exact congrArg (·.getD v) hforth

/-- A value with a counterpart is named by it. -/
theorem named_copied (hd : P.FunctionOf site.root d) (htaken : v ∉ site.taken d)
    (hcopies : Copies r q new v x) : (site.reader r d).seen v = x ∧ Named p site r d v x := by
  have hcarrier := (h.carrier_cases hd v).resolve_left fun hcase => htaken hcase.1
  have hback := (h.relocated.settled.forth hcopies.1).2
  refine ⟨?_, .copied htaken hback (h.relocated.settled.back hback).2.1⟩
  rw [Retarget.seen_eq_counterpart hcarrier.2]
  exact congrArg (·.getD v) hcopies.1

/-- What a function owns it has not captured. -/
theorem not_mem_taken (hv : P.Owns d v) : v ∉ site.taken d := by
  intro htaken
  obtain ⟨-, o, ho, hintroduces, -, hne⟩ := h.nest.binder_of_captured (h.mem_taken_iff.1 htaken)
  obtain ⟨value, hvalue, howner⟩ := h.nest.owns_of_introduces ho hintroduces
  obtain ⟨value', hvalue', rfl⟩ := hv
  cases hvalue.symm.trans hvalue'
  exact hne howner.symm

/-- No value of the root has a counterpart. -/
theorem forth_root (hv : P.Owns site.root v) : r.values.forth? v = none := by
  obtain ⟨value, hvalue, howner⟩ := hv
  refine Option.not_isSome_iff_eq_none.1 fun hsome => ?_
  obtain ⟨x, hx⟩ := Option.isSome_iff_exists.1 hsome
  obtain ⟨⟨value', hvalue', hmoved⟩, -⟩ := h.relocated.settled.forth hx
  cases hvalue'.symm.trans (h.intact.values hvalue (.inl howner))
  rw [howner] at hmoved
  exact h.not_placed_root (h.isSome_iff.1 hmoved)

/-- **What code names for a value of its function**, and who owns that. -/
theorem named_of_introduces (hd : P.FunctionOf site.root d) (hv : P.Introduces site.root d v) :
    Named p site r d v ((site.reader r d).seen v)
      ∧ p'.Owns (r.retarget d) ((site.reader r d).seen v) := by
  have howns := h.nest.owns_of_introduces hd hv
  have htaken := h.not_mem_taken howns
  rcases h.nest.introduces_cases hv with ⟨f, hf, hmem⟩ | ⟨e, init, he, hnode⟩
  · rcases id hd with rfl | hplaced
    · obtain ⟨hseen, hnamed⟩ := h.named_kept hd howns htaken (h.forth_root howns)
      rw [hseen, h.retarget_eq h.not_placed_root]
      obtain ⟨value, hvalue, howner⟩ := howns
      have hq := h.relocated.settled.values _ _ (h.intact.values hvalue (.inl howner))
      exact ⟨hnamed, h.owns ⟨value, hq, howner⟩ (h.get?_eq_none h.not_placed_root)⟩
    · obtain ⟨new, f', caps, copies, hreplacement⟩ := h.exists_replacement hplaced hf
      obtain ⟨x, hcopies⟩ : ∃ x, Copies r q new v x := by
        rcases List.mem_append.1 hmem with hmem | hmem
        · obtain ⟨x, -, hx⟩ := forall₂_right (optionRel_toList hreplacement.receiver) hmem
          exact ⟨x, hx⟩
        · obtain ⟨x, -, hx⟩ := forall₂_right hreplacement.copied hmem
          exact ⟨x, hx⟩
      obtain ⟨hseen, hnamed⟩ := h.named_copied hd htaken hcopies
      rw [hseen, Relocation.retarget, hreplacement.moved]
      exact ⟨hnamed, h.owns hcopies.2 (h.get?_new hreplacement.moved)⟩
  · obtain ⟨-, isMutable, hvar⟩ := h.nest.introduces_of_var hd he hnode
    have hforth := h.relocated.vars ⟨d, isMutable, h.intact.valueIs hd hvar⟩
    obtain ⟨hseen, hnamed⟩ := h.named_kept hd howns htaken hforth
    rw [hseen]
    obtain ⟨value, hvalue, rfl⟩ := howns
    have hq := h.relocated.settled.values _ _ (h.intact.values hvalue hd)
    exact ⟨hnamed, _, h.filling.sweep.bound (h.covered hd he) (h.expr_eq hd he hnode) rfl hq, rfl⟩

/-- **What code names for a value that its function sees**, and who owns that. -/
theorem named (hd : P.FunctionOf site.root d) (hv : P.Sees site.root d v) :
    Named p site r d v ((site.reader r d).seen v)
      ∧ p'.Owns (r.retarget d) ((site.reader r d).seen v) := by
  rcases h.carrier_cases hd v with ⟨htaken, new, x, hnew, hcarrier, hcarries⟩ | ⟨htaken, -⟩
  · obtain ⟨hcarried, hback, howns⟩ := hcarries
    rw [Retarget.seen_eq_param hcarrier, Relocation.retarget, hnew]
    exact ⟨.captured htaken hcarried hback (h.relocated.settled.carried hcarried).1,
      h.owns howns (h.get?_new hnew)⟩
  · obtain ⟨o, -, hintroduces, -, hor⟩ := hv
    obtain rfl := hor.resolve_right fun hcaptured => htaken (h.mem_taken_iff.2 hcaptured)
    exact h.named_of_introduces hd hintroduces

/-! ## §3. What becomes of functions. -/

end Lifts

/-- A dictionary says of the functions of a root what lowering the root has done, and that the
functions of the module stay. -/
structure Dictionary.Follows (T : Dictionary) (P : Program) (site : Site)
    (r : Relocation) : Prop where
  dom : ∀ {d}, T.dom d ↔ ∃ root ∈ P.top, P.FunctionOf root d
  knows : ∀ {d v}, P.FunctionOf site.root d → (T.knows d v ↔ P.Sees site.root d v)
  image : ∀ {d}, P.FunctionOf site.root d → T.image d = r.retarget d
  taken : ∀ {d}, P.FunctionOf site.root d → T.taken d = site.taken d
  seen : ∀ {d v}, P.FunctionOf site.root d → T.seen d v = (site.reader r d).seen v
  outer : ∀ {d}, d ∈ P.top → T.image d = d ∧ T.taken d = []

/-- **A call of a function that the module lists** stays as it is. -/
theorem Dictionary.NodeTo.outer {T : Dictionary} {a : Access} {ds : List DeclId}
    (hdom : T.dom a.callee) (himage : T.image a.callee = a.callee) (htaken : T.taken a.callee = [])
    (hparent : ∀ f, P.decls.get? a.callee = some (.function f) → f.parent = none)
    (hcall : P.CallScoped root ds a) : T.NodeTo P p d (.access .call a) (.access .call a) := by
  obtain ⟨f, hf, hlength, -⟩ := hcall
  obtain ⟨content, hcallee, hcontent⟩ := Option.bind_eq_some_iff.1 hf
  cases content with
  | function f' =>
    cases hcontent
    have hto : T.NodeTo P p d (.access .call a)
        (.access .call { a with callee := T.image a.callee, args := [].map some ++ a.args }) := by
      refine .call hdom hcallee (fun o ho => ?_) hlength ?_ fun u hu => ?_
      · cases (hparent f hcallee).symm.trans ho
      · rw [htaken]
        exact .nil
      · rw [htaken] at hu
        cases hu
    rwa [himage] at hto
  | _ => cases hcontent

namespace Lifts

variable {P p q p' : Program} {site : Site} {r : Relocation} (h : Lifts P p site r q p')
  {T : Dictionary} (hT : T.Follows P site r)
include h hT

/-- A function knows what it captured, and what it takes. -/
theorem knows_of_mem (hd : P.FunctionOf site.root d) (hf : P.decls.get? d = some (.function f))
    (hv : v ∈ T.taken d ++ f.extensionReceiver.toList ++ f.params) : T.knows d v := by
  rw [hT.knows hd]
  rw [List.append_assoc] at hv
  rcases List.mem_append.1 hv with hv | hv
  · rw [hT.taken hd] at hv
    have hcaptured := h.mem_taken_iff.1 hv
    obtain ⟨-, o, ho, hintroduces, hwithin, -⟩ := h.nest.binder_of_captured hcaptured
    exact ⟨o, ho, hintroduces, hwithin, .inr hcaptured⟩
  · exact ⟨d, hd, .inl ⟨f, by rw [hf]; rfl, hv⟩, .refl, .inl rfl⟩

omit hT in
/-- What a function takes it owns. -/
theorem owns_of_mem (hd : P.FunctionOf site.root d) (hf : P.decls.get? d = some (.function f))
    (hv : v ∈ f.extensionReceiver.toList ++ f.params) : P.Owns d v :=
  h.nest.owns_of_introduces hd (.inl ⟨f, by rw [hf]; rfl, hv⟩)

/-- The root takes what it took. -/
theorem seen_root (hf : P.decls.get? site.root = some (.function f))
    (hv : v ∈ f.extensionReceiver.toList ++ f.params) : T.seen site.root v = v := by
  have howns := h.owns_of_mem (.inl rfl) hf hv
  rw [hT.seen (.inl rfl)]
  exact (h.named_kept (.inl rfl) howns (h.not_mem_taken howns) (h.forth_root howns)).1

/-- **What becomes of a function**: it takes what it captured, then what it took before. -/
theorem functionTo (hd : P.FunctionOf site.root d) (hf : P.decls.get? d = some (.function f)) :
    ∃ f', p'.decls.get? (T.image d) = some (.function f') ∧ T.FunctionTo d f f' := by
  have hknows := fun v => h.knows_of_mem hT hd hf (v := v)
  have hapart : ∀ v ∈ f.extensionReceiver.toList ++ f.params, v ∉ T.taken d := by
    intro v hv
    rw [hT.taken hd]
    exact h.not_mem_taken (h.owns_of_mem hd hf hv)
  rcases id hd with rfl | hplaced
  · obtain ⟨f', hf', hparent, -⟩ := h.nest.outermost
    cases hf.symm.trans hf'
    have htaken : T.taken site.root = [] := by rw [hT.taken hd, h.taken_root]
    refine ⟨f, ?_, hparent, rfl, ?_, ?_, fun _ => htaken, hknows, hapart⟩
    · rw [hT.image hd, h.retarget_eq h.not_placed_root]
      exact h.relocated.kept_of_old h.filling.same (h.intact.decls _ _ hf)
    · rw [htaken, List.map_nil, List.nil_append, List.map_congr_left (g := id), List.map_id]
      exact fun v hv => h.seen_root hT hf (List.mem_append_right _ hv)
    · cases hext : f.extensionReceiver with
      | none => rfl
      | some v =>
        rw [Option.map_some, h.seen_root hT hf]
        simp [hext]
  · obtain ⟨new, f', caps, copies, hreplacement⟩ := h.exists_replacement hplaced hf
    have hseen : ∀ {v x}, v ∈ f.extensionReceiver.toList ++ f.params → Copies r q new v x →
        x = T.seen d v := by
      intro v x hv hcopies
      rw [hT.seen hd, (h.named_copied hd (h.not_mem_taken (h.owns_of_mem hd hf hv)) hcopies).1]
    refine ⟨f', ?_, hreplacement.parent, hreplacement.body, ?_, ?_, fun hbody => ?_, hknows, hapart⟩
    · rw [hT.image hd, Relocation.retarget, hreplacement.moved]
      exact hreplacement.there
    · rw [hreplacement.params, hT.taken hd]
      congr 1
      · refine eq_map_of_forall₂ (carrier_of_replacement hreplacement).1 fun v _ x hx => ?_
        rw [hT.seen hd, Retarget.seen_eq_param hx]
      · exact eq_map_of_forall₂ hreplacement.copied fun v hv x => hseen (List.mem_append_right _ hv)
    · refine eq_map_of_optionRel hreplacement.receiver fun v hv x =>
        hseen (List.mem_append_left _ ?_)
      exact Option.mem_toList.2 hv
    · rw [hT.taken hd]
      refine List.eq_nil_iff_forall_not_mem.2 fun v hv => ?_
      obtain ⟨content, place, hcontent, hplace⟩ :=
        Nest.exists_code_of_captured (h.mem_taken_iff.1 hv)
      cases hf.symm.trans hcontent
      simp [Declaration.parts, hbody] at hplace

/-! ## §4. What becomes of code. -/

omit hT in
/-- A read of a value names what code names for it. -/
theorem eq_of_readsAs (hd : P.FunctionOf site.root d)
    (hreads : Retarget.ReadsAs (site.reader r d) q p' v node) :
    node = .get ((site.reader r d).seen v) := by
  cases hreads with
  | counterpart hnone => rw [Retarget.seen_eq_counterpart hnone]; rfl
  | param hcarrier => rw [Retarget.seen_eq_param hcarrier]
  | field hcarrier =>
    rcases h.carrier_cases hd v with ⟨-, _, _, -, hparam, -⟩ | ⟨-, hnone⟩
    · cases hcarrier.symm.trans hparam
    · cases hcarrier.symm.trans hnone

omit hT in
/-- The arguments for copies of parameters are the old arguments, in their order. -/
theorem args_of_copies (ht : t.relocation = r) {args args' : List (Option ExprId)}
    (hnodup : old.Nodup) (hlength : args.length = old.length)
    (hcopied : List.Forall₂ (Copies r q new) old copies)
    (hargs : List.Forall₂ (Retarget.ArgTo t q p' old args) copies args') : args' = args := by
  refine List.ext_getElem (by rw [hlength, hcopied.length_eq, hargs.length_eq]) fun i hi hi' => ?_
  have hcopy : i < copies.length := hargs.length_eq ▸ hi
  have hold : i < old.length := hlength ▸ hi'
  have hback : r.values.back? copies[i] = some old[i] :=
    (h.relocated.settled.forth (hcopied.get hold hcopy).1).2
  have harg : Retarget.ArgTo t q p' old args copies[i] args'[i] := hargs.get hcopy hi
  generalize args'[i] = arg at harg ⊢
  cases harg with
  | @copied v j hback' hindex =>
    rw [ht] at hback'
    obtain rfl := Option.mem_unique hback hback'
    obtain ⟨hj, heq, -⟩ := List.findIdx?_eq_some_iff_getElem.1 hindex
    obtain rfl : j = i := (hnodup.getElem_inj_iff).1 (of_decide_eq_true heq)
    rw [List.getElem?_eq_getElem hi', Option.join_some]
  | captured hback' =>
    rw [ht] at hback'
    cases hback'.symm.trans hback

omit hT in
/-- The arguments for parameters that carry captured values are new nodes, which read the values. -/
theorem args_of_caps (hd : P.FunctionOf site.root d) {taken : List ValueId}
    {args args' : List (Option ExprId)} (hcaps : List.Forall₂ (Carries r q new) taken caps)
    (hargs : List.Forall₂ (Retarget.ArgTo (site.reader r d) q p' old args) caps args') :
    ∃ xs : List ExprId, args' = xs.map some
      ∧ List.Forall₂ (fun u x => q.exprs.size ≤ x.index
          ∧ p'.exprs.get? x = some (.get ((site.reader r d).seen u))) taken xs := by
  induction hcaps generalizing args' with
  | nil =>
    cases hargs
    exact ⟨[], rfl, .nil⟩
  | cons hcap _ ih =>
    cases hargs with
    | cons harg hargs =>
      obtain ⟨xs, rfl, hxs⟩ := ih hargs
      obtain ⟨hcarried, hback, -⟩ := hcap
      cases harg with
      | copied hback' => cases hback.symm.trans hback'
      | captured _ hcarried' hle hx hreads =>
        cases hcarried.symm.trans hcarried'
        obtain rfl := h.eq_of_readsAs hd hreads
        exact ⟨_ :: xs, rfl, .cons ⟨hle, hx⟩ hxs⟩

/-- **What becomes of a call** of a function below the root: it goes to the replacement, which is
handed what it captured. -/
theorem callTo {a a' : Access} (hd : P.FunctionOf site.root d) (he : CodeOf P d e)
    (hnode : P.exprs.get? e = some (.access .call a)) (hplaced : P.Placed site.root a.callee)
    (hsize : P.exprs.size ≤ p.exprs.size) (htop : site.root ∈ P.top)
    (hwrites : ∀ u, Captured P site.root a.callee u → ∀ x, some x ∈ a.args → ¬ P.Writes x u)
    (hto : Retarget.AccessTo (site.reader r d) q p' a a') :
    T.NodeTo P p' d (.access .call a) (.access .call a') := by
  have hcallee : P.FunctionOf site.root a.callee := .inr hplaced
  obtain ⟨f, hf, hkept⟩ := h.nest.exists_function hcallee
  obtain ⟨new, f', caps, copies, hreplacement⟩ := h.exists_replacement hplaced hf
  obtain ⟨ds, howner, hds⟩ := h.nest.exists_scopes hd
  have hocc := howner.occurs he
  obtain ⟨g, hg, hlength, hscope⟩ : P.CallScoped site.root ds a := h.nest.nodeScoped hocc hnode
  rw [hf] at hg
  obtain rfl : f = g := Option.some.inj hg
  cases hto with
  | kept hnone => cases hnone.symm.trans hreplacement.moved
  | @moved new' old content args hnew hold hcontent hargs =>
    obtain rfl := Option.mem_unique hnew hreplacement.moved
    cases hold.symm.trans (h.relocated.settled.decls _ _ (h.intact.decls _ _ hf))
    have hparams : content.params = caps ++ copies := by
      obtain ⟨content', hcontent', hfilled⟩ := h.filling.sweep.filled hcontent
      cases hcontent'.symm.trans hreplacement.there
      rw [← hreplacement.params]
      exact hfilled.params.symm
    rw [hparams] at hargs
    obtain ⟨args₁, args₂, rfl, hargs₁, hargs₂⟩ := forall₂_append_left hargs
    obtain ⟨xs, rfl, hxs⟩ := h.args_of_caps hd hreplacement.handed hargs₁
    obtain rfl := h.args_of_copies rfl hkept.1.nodup hlength hreplacement.copied hargs₂
    have himage : T.image a.callee = new' := by
      rw [hT.image hcallee, Relocation.retarget, hreplacement.moved]
      rfl
    have hhands : List.Forall₂ (T.Hands P p' d) (T.taken a.callee) xs := by
      rw [hT.taken hcallee]
      refine hxs.imp fun u x hx => ⟨?_, ?_⟩
      · rw [h.relocated.settled.exprs] at hx
        exact hsize.trans hx.1
      · rw [hT.seen hd]
        exact hx.2
    rw [← himage]
    refine .call (hT.dom.2 ⟨site.root, htop, hcallee⟩) hf
      (fun o ho => ?_) hlength hhands fun u hu => ?_
    · rcases hscope with hlisted | ⟨-, o', ho', hmem⟩
      · exact absurd hplaced (h.nest.not_placed_of_mem_top hlisted)
      · obtain rfl := Option.mem_unique ho ho'
        exact h.nest.within_of_mem hocc hds hmem
    · rw [hT.taken hcallee, h.mem_taken_iff] at hu
      exact ⟨(hT.knows hd).2 (h.nest.captured_of_call hd he hnode hu), hwrites u hu⟩

/-- **What becomes of a node** in the code of a function. -/
theorem nodeTo {node' : Expr} (hd : P.FunctionOf site.root d) (he : CodeOf P d e)
    (hnode : P.exprs.get? e = some node) (hsize : P.exprs.size ≤ p.exprs.size)
    (htop : site.root ∈ P.top)
    (houter : ∀ {x f}, x ∈ P.top → P.decls.get? x = some (.function f) → f.parent = none) (hwrites :
      ∀ a, node = .access .call a → ∀ u, Captured P site.root a.callee u → ∀ x, some x ∈ a.args →
      ¬ P.Writes x u) (hto : Retarget.NodeTo (site.reader r d) q p' node node') :
      T.NodeTo P p' d node node' := by
  obtain ⟨ds, howner, hds⟩ := h.nest.exists_scopes hd
  have hocc := howner.occurs he
  have hscoped := h.nest.nodeScoped hocc hnode
  cases hto with
  | lit => exact .lit
  | get hreads =>
    rw [h.eq_of_readsAs hd hreads, ← hT.seen hd]
    exact .get ((hT.knows hd).2 (h.nest.captured_of_use hd he hnode rfl))
  | @set v source hcarrier =>
    have hseen : (site.reader r d).counterpart v = T.seen d v := by
      rw [hT.seen hd, Retarget.seen_eq_counterpart hcarrier]
      rfl
    rw [hseen]
    refine .set ((hT.knows hd).2 (h.nest.captured_of_use hd he hnode rfl)) fun htaken => ?_
    rw [hT.taken hd] at htaken
    rcases h.carrier_cases hd v with ⟨-, _, _, -, hsome, -⟩ | ⟨hnot, -⟩
    · cases hcarrier.symm.trans hsome
    · exact hnot htaken
  | @var v init =>
    obtain ⟨hintroduces, isMutable, hvar⟩ := h.nest.introduces_of_var hd he hnode
    have howns := h.nest.owns_of_introduces hd hintroduces
    have htaken := h.not_mem_taken howns
    have hforth := h.relocated.vars ⟨d, isMutable, h.intact.valueIs hd hvar⟩
    have hseen : T.seen d v = v := by rw [hT.seen hd, (h.named_kept hd howns htaken hforth).1]
    have hto : T.NodeTo P p' d (.var v init) (.var (T.seen d v) init) :=
      .var ((hT.knows hd).2 ⟨d, hd, hintroduces, .refl, .inl rfl⟩) (by rwa [hT.taken hd])
    rwa [hseen] at hto
  | decl => exact .decl
  | @access form a a' hto =>
    cases form with
    | call =>
      by_cases hplaced : P.Placed site.root a.callee
      · exact h.callTo hT hd he hnode hplaced hsize htop (hwrites a rfl) hto
      · cases hto with
        | kept =>
          have hlisted := h.nest.mem_top_of_call hscoped hplaced
          exact .outer (hT.dom.2 ⟨_, hlisted, .inl rfl⟩) (hT.outer hlisted).1 (hT.outer hlisted).2
            (fun _ => houter hlisted) hscoped
        | moved hnew => cases hnew.symm.trans (h.get?_eq_none hplaced)
    | _ => exact hscoped.elim
  | getField => exact hscoped.elim
  | setField => exact hscoped.elim
  | @ret target value =>
    have himage : (site.reader r d).relocation.retarget target = T.image target := by
      rcases hscoped with hlisted | hentry
      · rw [(hT.outer hlisted).1]
        exact h.retarget_eq (h.nest.not_placed_of_mem_top hlisted)
      · exact (hT.image (.inr (h.nest.placed_of_mem_entries hentry))).symm
    rw [himage]
    refine .ret (hT.dom.2 ?_)
    rcases hscoped with hlisted | hentry
    · exact ⟨target, hlisted, .inl rfl⟩
    · exact ⟨site.root, htop, .inr (h.nest.placed_of_mem_entries hentry)⟩
  | block => exact .block
  | branch => exact .branch
  | loop => exact .loop
  | binary => exact .binary
  | delegated => exact hscoped.elim
  | classRef => exact hscoped.elim

/-- **What becomes of a function of a lowered root.** -/
theorem covers (hd : P.FunctionOf site.root d) (hsize : P.exprs.size ≤ p.exprs.size)
    (htop : site.root ∈ P.top)
    (houter : ∀ {x f}, x ∈ P.top → P.decls.get? x = some (.function f) → f.parent = none)
    (hwrites : ∀ {e a}, CodeOf P d e → P.exprs.get? e = some (.access .call a) →
      ∀ u, Captured P site.root a.callee u → ∀ x, some x ∈ a.args → ¬ P.Writes x u) :
      T.Covers P p' d where
  function := by
    obtain ⟨f, hf, -⟩ := h.nest.exists_function hd
    obtain ⟨f', hf', hto⟩ := h.functionTo hT hd hf
    exact ⟨f, f', hf, hf', hto⟩
  nodes {e} he := by
    obtain ⟨node, hnode⟩ := h.nest.exists_expr hd he
    obtain ⟨node', hnode', hto⟩ := h.filling.sweep.nodes (h.covered hd he) (h.expr_eq hd he hnode)
    refine ⟨node, node', hnode, hnode', h.nodeTo hT hd he hnode hsize htop houter ?_ hto⟩
    rintro a rfl
    exact hwrites he hnode
  owner {v} hv := by
    rw [hT.knows hd] at hv
    obtain ⟨o, ho, hintroduces, hwithin, hor⟩ := id hv
    have howns := h.nest.owns_of_introduces ho hintroduces
    refine ⟨o, howns, hwithin, ⟨?_, fun htaken => ?_⟩, ?_⟩
    · rintro rfl
      rw [hT.taken hd]
      exact h.not_mem_taken howns
    · rw [hT.taken hd, h.mem_taken_iff] at htaken
      exact hor.resolve_right htaken
    · rw [hT.image hd, hT.seen hd]
      exact (h.named hd hv).2
  seen_inj {u v} hu hv heq := by
    rw [hT.knows hd] at hu hv
    rw [hT.seen hd, hT.seen hd] at heq
    have hnamed := (h.named hd hu).1
    rw [heq] at hnamed
    exact hnamed.inj (h.named hd hv).1

end Lifts

/-! ## §5. Roots with nothing below them. -/

/-- **A root without local functions** stays as it is. -/
theorem Program.Nest.covers {T : Dictionary} (h : P.Nest root) (hi : P.Intact p root)
    (hbare : ∀ d, ¬ P.Placed root d) (htop : root ∈ P.top)
    (houter : ∀ {x f}, x ∈ P.top → P.decls.get? x = some (.function f) → f.parent = none)
    (hdom : ∀ {d}, d ∈ P.top → T.dom d) (hknows : ∀ {v}, T.knows root v ↔ P.Sees root root v)
    (hseen : T.seen root = id) (himage : ∀ {d}, d ∈ P.top → T.image d = d ∧ T.taken d = []) :
    T.Covers P p root := by
  have htaken : T.taken root = [] := (himage htop).2
  have hroot : P.FunctionOf root root := .inl rfl
  have hown : ∀ {v}, P.Sees root root v → P.Introduces root root v := by
    rintro v ⟨o, ho, hintroduces, -⟩
    obtain rfl := ho.resolve_right (hbare o)
    exact hintroduces
  refine ⟨?_, fun {e} he => ?_, fun {v} hv => ?_, fun {u v} _ _ heq => ?_⟩
  · obtain ⟨f, hf, hparent, -⟩ := h.outermost
    refine ⟨f, f, hf, ?_, hparent, rfl, ?_, ?_, fun _ => htaken, fun v hv => ?_, ?_⟩
    · rw [(himage htop).1]
      exact hi.decls _ _ hf
    · simp [htaken, hseen]
    · simp [hseen]
    · rw [htaken, List.nil_append] at hv
      exact hknows.2 ⟨root, hroot, .inl ⟨f, by rw [hf]; rfl, hv⟩, .refl, .inl rfl⟩
    · simp [htaken]
  · obtain ⟨node, hnode⟩ := h.exists_expr hroot he
    have hocc := OwnerAt.root.occurs he
    have hscoped := h.nodeScoped hocc hnode
    refine ⟨node, node, hnode, hi.exprs hocc hnode, ?_⟩
    have hused : ∀ {v}, node.used? = some v → T.knows root v := fun hused =>
      hknows.2 (h.captured_of_use hroot he hnode hused)
    cases node with
    | lit value => exact .lit
    | get v =>
      have hto : T.NodeTo P p root (.get v) (.get (T.seen root v)) := .get (hused rfl)
      rw [hseen] at hto
      exact hto
    | set v source =>
      have hto : T.NodeTo P p root (.set v source) (.set (T.seen root v) source) :=
        .set (hused rfl) (by simp [htaken])
      rw [hseen] at hto
      exact hto
    | var v init =>
      have hknown : T.knows root v :=
        hknows.2 ⟨root, hroot, (h.introduces_of_var hroot he hnode).1, .refl, .inl rfl⟩
      have hto : T.NodeTo P p root (.var v init) (.var (T.seen root v) init) :=
        .var hknown (by simp [htaken])
      rw [hseen] at hto
      exact hto
    | decl d => exact absurd ⟨_, e, hocc, hnode⟩ (hbare d)
    | access form a =>
      cases form with
      | call =>
        have hlisted := h.mem_top_of_call hscoped (hbare a.callee)
        exact .outer (hdom hlisted) (himage hlisted).1 (himage hlisted).2
          (fun _ => houter hlisted) hscoped
      | _ => exact hscoped.elim
    | ret target value =>
      have hlisted : target ∈ P.top :=
        hscoped.resolve_right fun hentry => hbare target (h.placed_of_mem_entries hentry)
      have hto : T.NodeTo P p root (.ret target value) (.ret (T.image target) value) :=
        .ret (hdom hlisted)
      rwa [(himage hlisted).1] at hto
    | block stmts => exact .block
    | branch cond thenE elseE => exact .branch
    | loop cond body => exact .loop
    | binary op lhs rhs => exact .binary
    | _ => exact hscoped.elim
  · have howns := h.owns_of_introduces hroot (hown (hknows.1 hv))
    refine ⟨root, howns, .refl, ⟨fun _ => by simp [htaken], fun _ => rfl⟩, ?_⟩
    rw [(himage htop).1, hseen]
    exact hi.owns hroot howns
  · rw [hseen] at heq
    exact heq

end LambdaLift
