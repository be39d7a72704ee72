/-
  LambdaLift.Proofs.Confined
  **LOWERING A ROOT CHANGES NOTHING OUTSIDE IT.**

  Whatever the program, and whether lowering a root answers or faults:
  declarations and the list of the module stay as they were, values keep
  all but their owners, and only expressions reached from the root are
  rewritten.  If signatures cannot be built, nothing that was there has
  changed at all.  A container therefore lists what it listed until the
  replacements of a root are spliced into it; where a run stops, all
  containers list what they listed after the last splice of that run.

  Main results:
    * `Lowering.lowerRoot_leaves`, `Lowering.lowerListed_leaves` — what
      lowering a root leaves behind, and what it adds to a run;
    * `Lowering.lower_rests` — a run rests at its last splice;
    * `lowerRoot_confined` — the frame of a root, and of a run that stops.
-/
import Mathlib
import LambdaLift.Lowering
import LambdaLift.Proofs.Emptied

namespace LambdaLift

variable {p q : Program} {root : DeclId} {r : Relocation} {site : Site} {w : Work}

namespace Lowering

/-! ## §1. One root. -/

/-- The signatures for a root can be built, and give this relocation. -/
structure Builds (settings : Settings) (root : DeclId) (p : Program) (site : Site)
    (r : Relocation) (q : Program) : Prop where
  bySettings : site.settings = settings
  atRoot : site.root = root
  locals : p.locals root = .ok site.locals
  closures : ∃ events, p.closures root = .ok (site.closures, events)
  relocation : ∃ reports w', Lift.relocation site ⟨p, reports⟩ = .ok r w' ∧ w'.program = q

/-- The signatures for a root can be built, and give this relocation. -/
def RelocatesBy (settings : Settings) (root : DeclId) (p : Program) (r : Relocation) : Prop :=
  ∃ site q, Builds settings root p site r q

/-- What lowering a root has done when it answers with siblings. -/
structure Lowered (settings : Settings) (root : DeclId) (p : Program) (siblings : List DeclId)
    (site : Site) (r : Relocation) (q : Program) (S : Set ExprId) (p' : Program) : Prop where
  builds : Builds settings root p site r q
  raised : Raised p site r q
  filled : Rewritten p site r q S p'
  functions : ∀ d ∈ site.locals.functions.keys, ∀ x, r.get? d = some x →
    Finished q.exprs.size S p' x
  body : ∃ content, p'.decls.get? root = some content ∧ ∀ e, content.body = some e →
    Clean q.exprs.size S p' e
  siblings : List.Forall₂ (fun d x => r.get? d = some x) site.locals.lifted siblings

/-- What lowering a root leaves behind when it faults. -/
def Stopped (settings : Settings) (root : DeclId) (p p' : Program) : Prop :=
  p.Extends p' ∨ ∃ site r q, Builds settings root p site r q ∧ Raised p site r q
    ∧ Touched q p.decls.size (fun e => p.Below root (.expr e)) r p'

theorem lowerLocals_leaves {settings : Settings} {locals : Locals}
    (hlocals : w.program.locals root = .ok locals) :
    (lowerLocals settings root locals).Leaves w (fun siblings w' => ∃ site r q S,
        site.locals = locals ∧ Lowered settings root w.program siblings site r q S w'.program)
      fun w' => Stopped settings root w.program w'.program := by
  obtain ⟨hsorted, hcollects⟩ := Program.locals_spec hlocals
  have hrefl : Stopped settings root w.program w.program := .inl (.refl _)
  unfold lowerLocals
  refine .bind
    (.reportStage (fun reports => .bind (.program (.bind (.ask (fun a ha => ?_) hrefl)))) hrefl)
  refine .bind (.report (.bind (.reportStage (fun reports' => .bind ?_) hrefl)))
  obtain ⟨closures, events⟩ := a
  have hstart := @Lift.relocation_leaves ⟨settings, root, locals, closures⟩
    { w with events := reports' } hsorted hcollects
  refine (hstart.with_result.weaken fun w' hw' => .inl hw'.2).mono ?_
  rintro r w₁ ⟨hresult, hraised⟩
  have hbuilds : Builds settings root w.program ⟨settings, root, locals, closures⟩ r w₁.program :=
    ⟨rfl, rfl, hlocals, ⟨events, ha⟩, reports', w₁, hresult, rfl⟩
  have hstopped : ∀ {p'},
      Touched w₁.program w.program.decls.size (fun e => w.program.Below root (.expr e)) r p' →
      Stopped settings root w.program p' := fun h => .inr ⟨_, r, _, hbuilds, hraised, h⟩
  refine .bind (.reportStage (fun reports'' => .bind ?_) (hstopped (.refl _ _ _ _)))
  obtain ⟨content, hroot, -⟩ := hcollects.ends
  have hall :=
    Retarget.all_leaves (w := { w₁ with events := reports'' }) hraised hsorted ⟨content, hroot⟩ rfl
  refine (hall.weaken fun w' hw' => hstopped hw').mono ?_
  rintro _ w₂ ⟨S, hfilled, hfunctions, hbody⟩
  refine .bind (.reportStage (fun reports₃ => ?_) (hstopped hfilled.touched))
  refine (Step.Yields.mapM (w := ⟨w₂.program, reports₃⟩)
    (fun done siblings w' => w'.program = w₂.program
      ∧ List.Forall₂ (fun d x => r.get? d = some x) done siblings) ?_ ⟨rfl, .nil⟩).mono ?_
  · rintro done d rest siblings w₃ - ⟨hprogram, hsiblings⟩
    have hstop : Stopped settings root w.program w₃.program := hstopped (hprogram ▸ hfilled.touched)
    refine Step.Leaves.bind
      (.ask (fun x hx => .bind (.program (.bind (.ask (fun text _ => .bind (.report (.pure
      ⟨hprogram, ?_⟩))) hstop)))) hstop)
    exact List.rel_append hsiblings (.cons (Relocation.get?_of_lifted hx) .nil)
  · rintro siblings w₃ ⟨hprogram, hsiblings⟩
    rw [hprogram]
    exact ⟨_, r, _, S, rfl, hbuilds, hraised, hfilled, hfunctions, hbody, hsiblings⟩

/-- **What lowering a root leaves behind.** -/
theorem lowerRoot_leaves (settings : Settings) (root : DeclId) (w : Work) :
    (lowerRoot settings root).Leaves w (fun result w' => (result = none ∧ w' = w
        ∧ ∃ l, w.program.locals root = .ok l ∧ l.isEmpty = true)
        ∨ ∃ siblings site r q S, result = some siblings ∧ site.locals.isEmpty = false
          ∧ Lowered settings root w.program siblings site r q S w'.program)
      fun w' => Stopped settings root w.program w'.program := by
  have hrefl : Stopped settings root w.program w.program := .inl (.refl _)
  refine .bind (.program (.bind (.ask (fun locals hlocals => ?_) hrefl)))
  split
  next hempty => exact .pure (.inl ⟨rfl, rfl, locals, hlocals, hempty⟩)
  next hempty =>
    refine .map ((lowerLocals_leaves hlocals).mono ?_)
    rintro siblings w' ⟨site, r, q, S, hsite, hlowered⟩
    exact .inr ⟨siblings, site, r, q, S, rfl, by simpa [hsite] using hempty, hlowered⟩

end Lowering

/-- The state that a step leaves behind, whether it answers or faults. -/
def Step.after {α : Type} (x : Step α) (w : Work) : Work :=
  match x w with
  | .ok _ w' => w'
  | .error _ w' => w'

/-- What a step that answers leaves. -/
theorem Step.after_of_ok {α : Type} {x : Step α} {w' : Work} {a : α} (h : x w = .ok a w') :
    x.after w = w' := by
  unfold Step.after
  rw [h]

theorem Step.Leaves.after {α : Type} {x : Step α} {P : Work → Prop}
    (h : x.Leaves w (fun _ => P) P) : P (x.after w) := by
  unfold Step.Leaves Step.Yields at h
  unfold Step.after
  cases hx : x w with
  | ok a w' => rw [hx] at h; exact h
  | error f w' => rw [hx] at h; exact h

/-! ## §2. The frame of a root. -/

/-- Nothing has changed outside a root: declarations stay, the arenas grow, owners move only along a
relocation and only for what is bound below the root, and only expressions below the root are
rewritten. -/
structure Program.Confined (settings : Settings) (root : DeclId) (p p' : Program) : Prop where
  top : p'.top = p.top
  decls : p.decls.Keeps p'.decls
  values_grow : p.values.size ≤ p'.values.size
  exprs_grow : p.exprs.size ≤ p'.exprs.size
  values : ∀ {v value}, p.values.get? v = some value → p'.values.get? v = some value
    ∨ ∃ r owner, Lowering.RelocatesBy settings root p r ∧ r.get? value.owner = some owner
      ∧ p.Binds (fun e => p.Below root (.expr e)) v ∧ p'.values.get? v = some { value with owner }
  exprs : ∀ {e node}, p.exprs.get? e = some node → p'.exprs.get? e = some node
    ∨ p.Below root (.expr e)

/-- Every container lists in the second program what it lists in the first. -/
def Program.KeepsLists (p p' : Program) : Prop :=
  ∀ container children, p.children container = .ok children →
    p'.children container = .ok children

variable {settings : Settings} {root : DeclId} {p p' : Program}

theorem Program.Extends.confined (h : p.Extends p') : p.Confined settings root p' where
  top := h.top
  decls := h.decls
  values_grow := h.values.size_le
  exprs_grow := by rw [h.exprs]
  values hv := .inl (h.values _ _ hv)
  exprs he := .inl (by rw [h.exprs]; exact he)

namespace Lowering

theorem Builds.confined (hbuilds : Builds settings root p site r q) (hraised : Raised p site r q)
    (h : Touched q p.decls.size (fun e => p.Below root (.expr e)) r p') :
    p.Confined settings root p' where
  top := h.top.trans hraised.grown.top
  decls d content hd := (h.decls d (Arena.lt_size_of_get? hd)).trans (hraised.grown.decls _ _ hd)
  values_grow := hraised.grown.values.size_le.trans h.valueCount.ge
  exprs_grow := by rw [← hraised.grown.exprs]; exact h.grown
  values hv := by
    refine (h.values (hraised.grown.values _ _ hv)).imp id ?_
    rintro ⟨owner, ⟨e, node, hbelow, hnode, hbound⟩, howner, hv'⟩
    rw [hraised.grown.exprs] at hnode
    exact ⟨r, owner, ⟨site, q, hbuilds⟩, howner, ⟨e, node, hbelow, hnode, hbound⟩, hv'⟩
  exprs he :=
    (h.exprs (by rw [hraised.grown.exprs]; exact he)).imp id fun hrewritten => hrewritten.1

theorem Stopped.confined (h : Stopped settings root p p') : p.Confined settings root p' := by
  rcases h with hextends | ⟨site, r, q, hbuilds, hraised, htouched⟩
  · exact hextends.confined
  · exact hbuilds.confined hraised htouched

theorem Lowered.confined {siblings : List DeclId} {S : Set ExprId}
    (h : Lowered settings root p siblings site r q S p') : p.Confined settings root p' := by
  refine h.builds.confined h.raised ?_
  have := h.filled.touched
  rwa [h.builds.atRoot] at this

/-- A root changes nothing outside it, and nothing at all of what was there if its signatures cannot
be built. -/
theorem lowerRoot_frame (settings : Settings) (root : DeclId) (w : Work) :
    (lowerRoot settings root).Leaves w
      (fun _ w' => w.program.Confined settings root w'.program
        ∧ ((∀ r, ¬ RelocatesBy settings root w.program r) → w.program.Extends w'.program))
      fun w' => w.program.Confined settings root w'.program
        ∧ ((∀ r, ¬ RelocatesBy settings root w.program r) → w.program.Extends w'.program) := by
  refine Step.Leaves.mono ((lowerRoot_leaves settings root w).weaken fun w' hstopped => ?_) ?_
  · refine ⟨hstopped.confined, fun hnone => ?_⟩
    rcases hstopped with hextends | ⟨site, r, q, hbuilds, -⟩
    · exact hextends
    · exact absurd ⟨site, q, hbuilds⟩ (hnone r)
  · rintro result w' (⟨-, rfl, -⟩ | ⟨siblings, site, r, q, S, -, -, hlowered⟩)
    · exact ⟨(Program.Extends.refl _).confined, fun _ => .refl _⟩
    · exact ⟨hlowered.confined, fun hnone => absurd ⟨site, q, hlowered.builds⟩ (hnone r)⟩

/-- A container lists what it listed if declarations and the list of the module have stayed. -/
theorem keepsLists_of_confined (h : p.Confined settings root p') : p.KeepsLists p' := by
  intro container children hchildren
  cases container with
  | none =>
    rw [← hchildren]
    exact congrArg Except.ok h.top
  | some d =>
    cases hd : p.decls.get? d with
    | none =>
      simp only [Program.children, Program.decl, Arena.lookup, hd] at hchildren
      cases hchildren
    | some content =>
      simp only [Program.children, Program.decl, Arena.lookup, hd] at hchildren
      simp only [Program.children, Program.decl, Arena.lookup, h.decls _ _ hd]
      exact hchildren

/-! ## §3. A root and its list. -/

/-- What the siblings of a root are listed after. -/
def anchorOf (root : DeclId) (content : Declaration) : DeclId :=
  (content.function?.bind (·.accessorOf)).getD root

/-- Siblings have been listed after the root. -/
structure Listed (container : Option DeclId) (root : DeclId) (siblings : List DeclId)
    (p p' : Program) : Prop where
  lists : p.listsChildren container = .ok true
  inserted : ∃ content children children', p.decls.get? root = some content
    ∧ p.children container = .ok children
    ∧ insertAfter (anchorOf root content) siblings children = some children'
    ∧ p.setChildren children' container = .ok p'

theorem anchor_leaves {root : DeclId} {ok : DeclId → Work → Prop}
    (h : ∀ content, w.program.decls.get? root = some content → ok (anchorOf root content) w) :
    (anchor root).Leaves w ok fun w' => w' = w := by
  refine .bind (.decl (fun content hcontent => ?_) rfl)
  have hanchor := h content hcontent
  cases content with
  | function f =>
    obtain ⟨_, _, _, _, _, _, _, _, _, _, _, accessorOf, _⟩ := f
    cases accessorOf with
    | none => exact .pure hanchor
    | some property => exact .pure hanchor
  | _ => exact .pure hanchor

/-- **Listing siblings** changes one list, or nothing. -/
theorem splice_leaves (container : Option DeclId) (root : DeclId) (siblings : List DeclId)
    (w : Work) : (splice container root siblings).Leaves w
      (fun _ w' => Listed container root siblings w.program w'.program ∧ w'.events = w.events)
        fun w' => w' = w := by
  refine .bind (anchor_leaves fun content hcontent => ?_)
  refine .bind (.program (.bind (.ask (fun lists hlists => ?_) rfl)))
  split
  · exact .throw rfl
  next hlisting =>
    refine .bind (.ask (fun children hchildren => ?_) rfl)
    split
    next children' hinsert =>
      refine .bind (.ask (fun p' hp' => ?_) rfl)
      obtain rfl : lists = true := by simpa using hlisting
      exact ⟨⟨hlists, content, children, children', hcontent, hchildren, hinsert, hp'⟩, rfl⟩
    next => exact .throw rfl

/-- **What a root adds to a run**: nothing, or its siblings, which are lowered, listed and noted in
the table. -/
theorem lowerListed_leaves (settings : Settings) (container : Option DeclId) (lifted : Lifted)
    (root : DeclId) (w : Work) : (lowerListed settings container lifted root).Leaves w
      (fun lifted' w' => (lifted' = lifted ∧ w' = w
          ∧ ∃ l, w.program.locals root = .ok l ∧ l.isEmpty = true)
        ∨ ∃ siblings site r q S p₁, lifted' = lifted.insert root siblings
          ∧ site.locals.isEmpty = false ∧ Lowered settings root w.program siblings site r q S p₁
          ∧ Listed container root siblings p₁ w'.program) fun _ => True := by
  refine .bind (((lowerRoot_leaves settings root w).weaken fun _ _ => trivial).mono ?_)
  rintro result w₁ (⟨rfl, rfl, hempty⟩ | ⟨siblings, site, r, q, S, rfl, hfull, hlowered⟩)
  · exact .pure (.inl ⟨rfl, rfl, hempty⟩)
  refine .bind (((splice_leaves container root siblings w₁).weaken fun _ _ => trivial).mono ?_)
  rintro _ w₂ ⟨hlisted, -⟩
  refine .bind (.reportStage (fun reports => ?_) trivial)
  refine .bind (.program (.bind (.ask (fun doc _ => ?_) trivial)))
  exact .bind (.report (.pure (.inr ⟨siblings, site, r, q, S, _, rfl, hfull, hlowered, hlisted⟩)))

end Lowering

/-! ## §4. A run that stops. -/

theorem getLastD_append {α : Type} (as bs : List α) (a : α) :
    (as ++ bs).getLastD a = bs.getLastD (as.getLastD a) := by
  simp [List.getLastD_eq_getLast?, List.getLast?_append]

namespace Step

variable {α β σ : Type}

/-- A step ends with this program, or stops with the lists that this program has. -/
def RestsAt (x : Step α) (w : Work) (last : Program) : Prop :=
  x.Leaves w (fun _ w' => w'.program = last) fun w' => last.KeepsLists w'.program

/-- What is noted at each step of a fold, from the state that the fold has come to. -/
def notes (note : σ → α → Work → List β) (f : σ → α → Step σ) : List α → σ → Work → List β
  | [], _, _ => []
  | a :: as, s, w =>
    note s a w ++ match f s a w with
      | .ok s' w' => notes note f as s' w'
      | .error _ _ => []

/-- **A fold rests at the last program that was noted**, if each of its steps does. -/
theorem restsAt_foldlM {note : σ → α → Work → List Program} {f : σ → α → Step σ}
    (hstep : ∀ s a w, (f s a).RestsAt w ((note s a w).getLastD w.program)) (as : List α) (s : σ)
    (w : Work) : (as.foldlM f s).RestsAt w ((notes note f as s w).getLastD w.program) := by
  induction as generalizing s w with
  | nil => exact Leaves.pure rfl
  | cons a as ih =>
    have hfirst := Leaves.with_result (hstep s a w)
    rw [List.foldlM_cons]
    refine Leaves.bind ((hfirst.weaken fun w' hw' => ?_).mono fun s' w' hw' => ?_)
    · obtain ⟨⟨g, hfault⟩, hlists⟩ := hw'
      rw [notes, hfault, List.append_nil]
      exact hlists
    · obtain ⟨hok, hprogram⟩ := hw'
      have hrest := ih s' w'
      rw [notes, hok, getLastD_append, ← hprogram]
      exact hrest

end Step

namespace Lowering

/-- The program after the siblings of a root were listed, if it comes to that. -/
def splicedAt (settings : Settings) (container : Option DeclId) (root : DeclId) (w : Work) :
    List Program :=
  match lowerRoot settings root w with
  | .ok (some siblings) w₁ =>
    match splice container root siblings w₁ with
    | .ok _ w₂ => [w₂.program]
    | .error _ _ => []
  | _ => []

/-- The programs after the splices of a container. -/
def splicesIn (settings : Settings) (lifted : Lifted) (container : Option DeclId) (w : Work) :
    List Program :=
  match isNested w.program container, w.program.roots container with
  | .ok false, .ok roots =>
    Step.notes (fun _ => splicedAt settings container) (lowerListed settings container)
      roots lifted w
  | _, _ => []

/-- **The programs after the splices of a run**, first to last. -/
def splices (settings : Settings) (w : Work) : List Program :=
  match w.program.containers with
  | .ok containers =>
    Step.notes (splicesIn settings) (lowerContainer settings) containers .empty w
  | .error _ => []

/-- The program after the last splice of a run; the one it starts with if it comes to none. -/
def lastSpliced (settings : Settings) (w : Work) : Program :=
  (splices settings w).getLastD w.program

theorem keepsLists_refl (p : Program) : p.KeepsLists p := fun _ _ h => h

/-- **A root is lowered and listed**, or the run stops. -/
theorem lowerListed_rests (settings : Settings) (container : Option DeclId) (lifted : Lifted)
    (root : DeclId) (w : Work) : (lowerListed settings container lifted root).RestsAt w
      ((splicedAt settings container root w).getLastD w.program) := by
  have hroot := ((lowerRoot_frame settings root w).with_result)
  refine Step.Leaves.bind ((hroot.weaken fun w₁ hw₁ => ?_).mono fun result w₁ hw₁ => ?_)
  · obtain ⟨⟨f, hfault⟩, hconfined, -⟩ := hw₁
    rw [splicedAt, hfault]
    exact keepsLists_of_confined hconfined
  obtain ⟨hlower, hconfined, -⟩ := hw₁
  cases result with
  | none =>
    -- a root without local declarations is left alone
    have hsame := (lowerRoot_leaves settings root w).ok_of hlower
    obtain ⟨-, rfl, -⟩ | ⟨siblings, site, r, q, S, hsome, -⟩ := hsame
    · rw [splicedAt, hlower]
      exact Step.Leaves.pure rfl
    · cases hsome
  | some siblings =>
    have hsplice := (splice_leaves container root siblings w₁).with_result
    refine Step.Leaves.bind ((hsplice.weaken fun w₂ hw₂ => ?_).mono fun _ w₂ hw₂ => ?_)
    · obtain ⟨⟨f, hfault⟩, rfl⟩ := hw₂
      rw [splicedAt, hlower]
      simp only [hfault]
      exact keepsLists_of_confined hconfined
    · rw [splicedAt, hlower]
      simp only [hw₂.1]
      -- what follows only reports
      have hrefl := keepsLists_refl w₂.program
      exact .bind (.reportStage (fun reports => .bind (.program (.bind (.ask
        (fun doc _ => .bind (.report (.pure rfl))) hrefl)))) hrefl)

theorem lowerContainer_rests (settings : Settings) (lifted : Lifted) (container : Option DeclId)
    (w : Work) : (lowerContainer settings lifted container).RestsAt w
      ((splicesIn settings lifted container w).getLastD w.program) := by
  have hrefl := keepsLists_refl w.program
  refine Step.Yields.bind (.program (.bind (.ask (fun nested hnested => ?_) fun f hf => ?_)))
  · split
    next hyes =>
      rw [splicesIn, hnested, hyes]
      exact .pure rfl
    next hno =>
      obtain rfl : nested = false := by simpa using hno
      refine .bind (.program (.bind (.ask (fun roots hroots => ?_) fun f hf => ?_)))
      · rw [splicesIn, hnested, hroots]
        exact Step.restsAt_foldlM (lowerListed_rests settings container) roots lifted w
      · rw [splicesIn, hnested, hf]
        exact hrefl
  · rw [splicesIn, hf]
    exact hrefl

/-- **A run rests at its last splice.** -/
theorem lower_rests (settings : Settings) (w : Work) :
    (lower settings).RestsAt w (lastSpliced settings w) := by
  unfold lastSpliced splices
  refine Step.Yields.bind
    (.program (.bind (.ask (fun containers hcontainers => ?_) fun f hf => ?_)))
  · rw [hcontainers]
    have hall := Step.restsAt_foldlM (lowerContainer_rests settings) containers .empty w
    refine Step.Leaves.bind (hall.mono fun lifted w₁ hw₁ => ?_)
    rw [← hw₁]
    split
    · exact .bind (.program (.bind (.ask (fun _ _ => .pure rfl) (keepsLists_refl _))))
    · exact .pure rfl
  · rw [hf]
    exact keepsLists_refl _

end Lowering

open Lowering

/-- **Lowering a root changes nothing outside it**, whether it answers or faults, and nothing at all
of what was there if its signatures cannot be built.  So a run that answers ends with the program
after its last splice, and where a run stops, every container lists what it listed after the last
splice of that run. -/
theorem lowerRoot_confined (settings : Settings) :
    (∀ (root : DeclId) (w : Work),
        w.program.Confined settings root ((lowerRoot settings root).after w).program
        ∧ ((∀ r, ¬ RelocatesBy settings root w.program r) →
          w.program.values.Keeps ((lowerRoot settings root).after w).program.values
            ∧ w.program.exprs.Keeps ((lowerRoot settings root).after w).program.exprs))
      ∧ ∀ w : Work,
        (∀ lifted w', lower settings w = .ok lifted w' → w'.program = lastSpliced settings w)
        ∧ ∀ f w', lower settings w = .error f w' → ∀ container children,
          (lastSpliced settings w).children container = .ok children →
            w'.program.children container = .ok children := by
  refine ⟨fun root w => ?_, fun w => ⟨fun lifted w' hok => ?_, fun f w' hfault => ?_⟩⟩
  · obtain ⟨hconfined, hunbuilt⟩ := (lowerRoot_frame settings root w).after
    refine ⟨hconfined, fun hnone => ⟨(hunbuilt hnone).values, ?_⟩⟩
    rw [(hunbuilt hnone).exprs]
    exact .refl _
  · exact Step.Yields.ok_of (lower_rests settings w) hok
  · exact Step.Yields.error_of (lower_rests settings w) hfault

end LambdaLift
