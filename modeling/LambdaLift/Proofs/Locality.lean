/-
  LambdaLift.Proofs.Locality
  **THE STAGES AGREE ON WHAT IS LOCAL.**

  Whether a declaration is local is decided three times.  Collecting asks
  whether its parent is a class, the analysis of captures asks whether some
  ancestor is a callable, and a use of a callee asks both.  The two walks
  are written separately.  They agree where every declaration that is
  reached from the root has the root among its ancestors: then a closure
  is computed for exactly what the tables hold, so building signatures
  never misses one.

  Main results:
    * `Program.opens_iff_below` — both walks reach the same declarations;
    * `Program.draws_iff` — what a use of a collected callable needs;
    * `Lift.relocation_served` — signatures never miss a closure;
    * `locals_agree_with_closures` — the three tests agree.
-/
import Mathlib
import LambdaLift.Lift.Member
import LambdaLift.Sample
import LambdaLift.Proofs.Bare
import LambdaLift.Proofs.Collected
import LambdaLift.Proofs.Steps

namespace LambdaLift

variable {b d x : DeclId} {ds : List DeclId} {f : Fault} {place : Place} {site : Site}

/-! ## §1. What both walks reach. -/

/-- What a property names as its backing field. -/
def Declaration.backing : Declaration → List DeclId
  | .property x => x.backingField.toList
  | _ => []

theorem Declaration.mem_backing_of_part {content : Declaration} (h : .backing b ∈ content.parts) :
    b ∈ content.backing := by
  cases content with
  | property x => simpa [Declaration.parts, Declaration.backing] using h
  | _ => simp [Declaration.parts] at h

namespace Program

variable {p : Program} {root d : DeclId} {content : Declaration}

/-- Whatever a property names as its backing field is a field. -/
def BackingsAreFields (p : Program) : Prop :=
  ∀ content ∈ p.decls.entries.toList, ∀ b ∈ content.backing,
    ((p.decls.get? b).bind (·.field?)).isSome = true

instance (p : Program) : Decidable p.BackingsAreFields := by
  unfold BackingsAreFields
  infer_instance

theorem BackingsAreFields.exists_field (h : p.BackingsAreFields)
    (hd : p.decls.get? d = some content) (hb : b ∈ content.backing) :
    ∃ f, p.decls.get? b = some (.field f) := by
  have hsome := h _ (Arena.mem_entries_of_get? hd) b hb
  obtain ⟨f, hf⟩ := Option.isSome_iff_exists.1 hsome
  obtain ⟨inner, hinner, hfield⟩ := Option.bind_eq_some_iff.1 hf
  cases inner with
  | field g => exact ⟨g, hinner⟩
  | _ => cases hfield

/-- Only a property leads to a backing field, so what stands in that part below a root is a
field. -/
theorem BackingsAreFields.of_occurs (h : p.BackingsAreFields)
    (hocc : Occurs p root ds (.backing b)) : ∃ f, p.decls.get? b = some (.field f) := by
  cases hocc with
  | part hroot hpart => exact h.exists_field hroot (Declaration.mem_backing_of_part hpart)
  | @inner _ outer _ label _ hlabel hpart =>
    cases label with
    | expr e node => cases node <;> simp [Label.places] at hpart
    | decl k inner =>
      exact h.exists_field (label?_eq_decl.1 hlabel).2 (Declaration.mem_backing_of_part hpart)
    | backing k inner =>
      exact h.exists_field (label?_eq_backing.1 hlabel).2 (Declaration.mem_backing_of_part hpart)

/-- Of a backing field that is a field, collecting looks at all that the analysis looks at. -/
theorem BackingsAreFields.followed (h : p.BackingsAreFields) {label : Label}
    (hocc : Occurs p root ds place) (hlabel : p.label? place = some label) :
    label.followed = label.places .nested := by
  cases label with
  | expr e node => rfl
  | decl k inner => rfl
  | backing b inner =>
    obtain ⟨rfl, hb⟩ := label?_eq_backing.1 hlabel
    obtain ⟨f, hf⟩ := h.of_occurs hocc
    obtain rfl : inner = .field f := Option.mem_unique hb hf
    rfl

/-- What the analysis walks over, collecting reaches. -/
theorem below_of_occurs (h : p.BackingsAreFields) (hocc : Occurs p root ds place) :
    p.Below root place := by
  induction hocc with
  | part hroot hpart => exact ⟨_, hroot, _, hpart, .refl⟩
  | inner hocc hlabel hinner ih => exact ih.tail ⟨_, hlabel, h.followed hocc hlabel ▸ hinner⟩

/-- **Both walks reach the same declarations.**  A scope is opened by what is collected and can open
one. -/
theorem opens_iff_below (h : p.BackingsAreFields) :
    Opens p root d ↔ p.Below root (.decl d) ∧ ∃ content ∈ p.decls.get? d,
      content.opensScope = true := by
  constructor
  · rintro ⟨ds, place, label, content, hocc, hlabel, hopened⟩
    obtain ⟨hd, hopens, -⟩ := opened_of_label hlabel hopened
    refine ⟨?_, content, hd, hopens⟩
    cases label with
    | expr e node => cases hopened
    | decl k inner =>
      obtain ⟨rfl, -⟩ := label?_eq_decl.1 hlabel
      cases Label.entry_of_opened hopened
      exact below_of_occurs h hocc
    | backing b inner =>
      cases Label.entry_of_opened hopened
      obtain ⟨rfl, -⟩ := label?_eq_backing.1 hlabel
      obtain ⟨f, hf⟩ := h.of_occurs hocc
      obtain rfl : content = .field f := Option.mem_unique hd hf
      -- fields open nothing
      cases hopens
  · rintro ⟨hbelow, content, hd, hopens⟩
    obtain ⟨ds, hocc⟩ := hbelow.occurs
    exact ⟨ds, _, .decl d content, content, hocc, label?_eq_decl.2 ⟨rfl, hd⟩, if_pos hopens⟩

/-! ## §2. Ancestors. -/

/-- Every declaration that is reached from the root has the root on its chain of parents. -/
def Under (p : Program) (root : DeclId) : Prop :=
  ∀ d, p.Below root (.decl d) → root ∈ (p.chain d).scopes.map Prod.fst

/-- A root below which nothing is nested in itself does not stand below itself. -/
theorem AcyclicAt.not_below (h : p.AcyclicAt .nested (.decl root)) :
    ¬ p.Below root (.decl root) := by
  rintro ⟨content, hroot, part, hpart, hreach⟩
  have hnested : Relation.ReflTransGen (p.Encloses .nested) part (.decl root) := by
    refine Relation.ReflTransGen.mono ?_ _ _ hreach
    rintro outer inner ⟨label, hlabel, hinner⟩
    exact ⟨label, hlabel, followed_subset label hinner⟩
  exact h _ .refl (Relation.TransGen.head' ⟨_, label?_eq_decl.2 ⟨rfl, hroot⟩, hpart⟩ hnested)

/-- What is reached has the root as a proper ancestor. -/
theorem Under.ancestor (h : p.Under root) (hacyclic : p.AcyclicAt .nested (.decl root))
    (hd : p.Below root (.decl d)) : Relation.TransGen p.Parent d root := by
  obtain ⟨⟨x, inner⟩, hmem, rfl⟩ := List.mem_map.1 (h d hd)
  have hancestor := (parents_of_mem_chainFrom hmem).1
  rcases Relation.reflTransGen_iff_eq_or_transGen.1 hancestor with rfl | hproper
  · exact absurd hd hacyclic.not_below
  · exact hproper

/-- What has a proper ancestor names a parent, which is that ancestor or has it as a proper one. -/
theorem exists_parent_of_ancestor (hd : p.decls.get? d = some content)
    (h : Relation.TransGen p.Parent d x) :
    ∃ k, content.parent = some k ∧ (k = x ∨ Relation.TransGen p.Parent k x) := by
  obtain ⟨k, ⟨inner, hinner, hparent⟩, hrest⟩ := Relation.TransGen.head'_iff.1 h
  obtain rfl : content = inner := Option.mem_unique hd hinner
  exact ⟨k, hparent, (Relation.reflTransGen_iff_eq_or_transGen.1 hrest).imp Eq.symm id⟩

/-! ## §3. What a use of a callable needs. -/

section

variable {rootContent : Declaration} {l : Locals} (hp : p.Closed) (hchains : p.ChainsEnd)
  (hroot : p.decls.get? root = some rootContent) (hcallable : rootContent.isCallable = true)
  (hacyclic : p.AcyclicAt .nested (.decl root)) (hunder : p.Under root) (hsorted : p.Sorted root l)
include hp hchains hroot hcallable hacyclic hunder

/-- What is reached and does not stand in a class stands in a body. -/
theorem standsInBody_of_below (hd : p.Below root (.decl d))
    (hcontent : p.decls.get? d = some content) : p.StandsInBody d ↔ p.isMember d = .ok false := by
  have hancestor := hunder.ancestor hacyclic hd
  obtain ⟨k, hparent, -⟩ := exists_parent_of_ancestor hcontent hancestor
  obtain ⟨outer, houter⟩ := hp.exists_parent hcontent hparent
  rw [standsInBody_iff hcontent hparent houter, isMember_of_parent hcontent hparent houter]
  have hlocal := hchains.isLocal hancestor hroot hcallable
  simp [hlocal]

include hsorted

/-- **What a use of a collected callable needs**: its own closure if it is a local function, and
that of its class if it is a constructor and the class stands in a body.  A class that is not
reached itself is in no table. -/
theorem draws_iff (hd : p.Below root (.decl d)) (hcontent : p.decls.get? d = some content) :
    p.Draws d x ↔ (x = d ∧ d ∈ l.functions.keys)
      ∨ ∃ c, content = .constructor c ∧ c.parent = some x ∧ p.StandsInBody x := by
  constructor
  · intro hdraws
    cases hdraws with
    | @function f hf hbody =>
      have hmember :=
        (standsInBody_of_below hp hchains hroot hcallable hacyclic hunder hd hf).1 hbody
      exact .inl ⟨rfl, (hsorted.functions x).2 ⟨hd, hmember, f, hf⟩⟩
    | @constructor _ c hc hparent hbody =>
      obtain rfl : content = .constructor c := Option.mem_unique hcontent hc
      exact .inr ⟨c, rfl, hparent, hbody⟩
  · rintro (⟨rfl, hfunction⟩ | ⟨c, rfl, hparent, hbody⟩)
    · obtain ⟨-, hmember, f, hf⟩ := (hsorted.functions x).1 hfunction
      exact .function hf
        ((standsInBody_of_below hp hchains hroot hcallable hacyclic hunder hd hf).2 hmember)
    · exact .constructor hcontent hparent hbody

/-- The class of a collected constructor stands in a body if it is a local class, or if it is not
reached and stands in no class. -/
theorem standsInBody_of_constructor {c : ConstructorDecl} {k : DeclId} (hd : p.Below root (.decl d))
    (hc : p.decls.get? d = some (.constructor c)) (hmember : p.isMember d = .ok true)
    (hparent : c.parent = some k) :
    p.StandsInBody k ↔ k ∈ l.classes.keys ∨ ¬ p.Below root (.decl k)
      ∧ p.isMember k = .ok false := by
  obtain ⟨k', hparent', hk⟩ := exists_parent_of_ancestor hc (hunder.ancestor hacyclic hd)
  obtain rfl : k' = k := Option.mem_unique hparent' hparent
  obtain ⟨outer, houter⟩ := hp.exists_parent hc hparent
  have hclass : outer.isClass = true := by
    rw [isMember_of_parent hc hparent houter] at hmember
    exact Except.ok.inj hmember
  -- the root is a callable, so it is further out than the class
  have hancestor : Relation.TransGen p.Parent k' root := by
    refine hk.resolve_left ?_
    rintro rfl
    obtain rfl : outer = rootContent := Option.mem_unique houter hroot
    cases outer with
    | cls x => cases hcallable
    | _ => cases hclass
  obtain ⟨k₂, hparent₂, -⟩ := exists_parent_of_ancestor houter hancestor
  obtain ⟨outer₂, houter₂⟩ := hp.exists_parent houter hparent₂
  have hbody : p.StandsInBody k' ↔ p.isMember k' = .ok false := by
    rw [standsInBody_iff houter hparent₂ houter₂, isMember_of_parent houter hparent₂ houter₂]
    simp [hchains.isLocal hancestor hroot hcallable]
  rw [hbody, hsorted.classes]
  constructor
  · intro hfree
    by_cases hbelow : p.Below root (.decl k')
    · refine .inl ⟨hbelow, hfree, ?_⟩
      cases outer with
      | cls x => exact ⟨x, houter⟩
      | _ => cases hclass
    · exact .inr ⟨hbelow, hfree⟩
  · rintro (⟨-, hfree, -⟩ | ⟨-, hfree⟩) <;> exact hfree

end

end Program

/-! ## §4. Steps that never miss a closure. -/

/-- Whether a fault says that a closure is missing. -/
def Fault.missesClosure : Fault → Bool
  | .violation .noClosure _ => true
  | _ => false

/-- The fault that a step stops with, if it does. -/
def Step.fault? {α : Type} (x : Step α) (w : Work) : Option Fault :=
  match x w with
  | .ok _ _ => none
  | .error f _ => some f

/-- A question that is never answered by a missing closure. -/
def Except.Served {α : Type} (e : Except Fault α) : Prop :=
  Except.Ends e (fun _ => True) fun f => f.missesClosure = false

/-- A step that never stops for want of a closure, from whatever state. -/
def Step.Served {α : Type} (x : Step α) : Prop :=
  ∀ w, Step.Ends x w (fun _ _ => True) fun f => f.missesClosure = false

/-- A recording step that never stops for want of a closure. -/
def Lift.Served {α : Type} (x : Lift α) : Prop := ∀ r, Step.Served (x r)

namespace Except.Served

variable {α β : Type}

theorem pure (a : α) : Except.Served (Pure.pure a) := trivial

theorem bind {e : Except Fault α} {f : α → Except Fault β} (h : Except.Served e)
    (hf : ∀ a, Except.Served (f a)) : Except.Served (e >>= f) :=
  Except.Ends.bind (h.mono (fun a _ => hf a) fun _ hm => hm)

theorem lookup {kind : Entity} (arena : Arena kind α) (x : Handle kind) :
    Except.Served (arena.lookup x) := by
  unfold Arena.lookup
  split
  · exact trivial
  · exact rfl

theorem settle (a : α) (ending : Program.ChainEnd) : Except.Served (ending.settle a) := by
  cases ending with
  | atModule => exact trivial
  | dangling => exact rfl
  | endless => exact rfl

theorem before (chain : Program.Chain) (test : DeclId → Bool) :
    Except.Served (chain.before test) := by
  unfold Program.Chain.before
  split
  · exact trivial
  · exact settle _ _

theorem mapM {f : α → Except Fault β} {as : List α} (hf : ∀ a, Except.Served (f a)) :
    Except.Served (as.mapM f) := by
  induction as with
  | nil => exact pure _
  | cons a as ih =>
    rw [List.mapM_cons]
    exact (hf a).bind fun b => ih.bind fun bs => pure _

theorem filterM {f : α → Except Fault Bool} {as : List α} (hf : ∀ a, Except.Served (f a)) :
    Except.Served (as.filterM f) := by
  have aux : ∀ (as kept : List α), Except.Served (as.filterAuxM f kept) := by
    intro as
    induction as with
    | nil => exact fun kept => pure kept
    | cons a as ih => exact fun kept => (hf a).bind fun b => ih _
  exact (aux as []).bind fun kept => pure _

theorem parent (p : Program) (d : DeclId) : Except.Served (p.parent d) :=
  (lookup _ d).bind fun _ => pure _

theorem owner (p : Program) (v : ValueId) : Except.Served (p.owner v) :=
  (lookup _ v).bind fun _ => pure _

theorem lifted (r : Relocation) (d : DeclId) : Except.Served (r.lifted d) := by
  unfold Relocation.lifted
  split
  · exact trivial
  · exact rfl

theorem context (r : Relocation) (d : DeclId) : Except.Served (r.context d) := by
  unfold Relocation.context
  split
  · exact trivial
  · exact rfl

theorem offered (p : Program) (r : Relocation) (ty : Ty) : Except.Served (Lift.offered p r ty) := by
  cases ty with
  | cls sup =>
    refine (lookup _ sup).bind fun content => ?_
    cases content with
    | cls c => exact filterM fun member => (lookup _ member).bind fun _ => pure _
    | _ => exact pure _
  | _ => exact pure _

theorem overridden (p : Program) (inherited : OrderedSet DeclId) (member : DeclId) :
    Except.Served (Lift.overridden p inherited member) :=
  filterM fun sup => (lookup _ member).bind fun _ => (lookup _ sup).bind fun _ => pure _

end Except.Served

namespace Step.Served

variable {α β : Type}

theorem pure (a : α) : Step.Served (Pure.pure a) := fun _ => Yields.pure trivial

theorem throw (h : f.missesClosure = false) : Step.Served (MonadExcept.throw f : Step α) :=
  fun _ => Yields.throw h

theorem bind {x : Step α} {f : α → Step β} (h : Step.Served x) (hf : ∀ a, Step.Served (f a)) :
    Step.Served (x >>= f) :=
  fun w => Yields.bind ((h w).mono fun a w' _ => hf a w')

theorem ask {e : Except Fault α} (h : Except.Served e) : Step.Served (liftM e : Step α) := by
  intro w
  cases e with
  | ok a => exact Yields.pure trivial
  | error f => exact Yields.throw h

theorem change (f : Program → α × Program) : Step.Served (Step.change f) := fun _ => trivial

theorem addDecl (content : Declaration) : Step.Served (Step.addDecl content) := change _

theorem addValue (value : Value) : Step.Served (Step.addValue value) := change _

theorem program : Step.Served Step.program := fun _ => trivial

theorem report (events : List Event) : Step.Served (Step.report events) := fun _ => trivial

theorem decl (d : DeclId) : Step.Served (Step.decl d) := program.bind fun _ => ask (.lookup _ _)

theorem value (v : ValueId) : Step.Served (Step.value v) := program.bind fun _ => ask (.lookup _ _)

theorem modifyDecl (d : DeclId) (f : Declaration → Declaration) :
    Step.Served (Step.modifyDecl d f) :=
  program.bind fun _ =>
    (ask ((Except.Served.lookup _ _).bind fun _ => .pure _)).bind fun _ => change _

theorem fault?_ne {x : Step α} (h : Step.Served x) {w : Work} :
    x.fault? w ≠ some (.violation .noClosure d) := by
  intro hfault
  have hends := h w
  unfold Ends Yields at hends
  unfold fault? at hfault
  cases hx : x w with
  | ok a w' =>
    rw [hx] at hfault
    cases hfault
  | error f w' =>
    rw [hx] at hends hfault
    obtain rfl : f = .violation .noClosure d := Option.some.inj hfault
    cases hends

theorem mapM {f : α → Step β} {as : List α} (hf : ∀ a, Step.Served (f a)) :
    Step.Served (as.mapM f) :=
  fun _ => Yields.mapM (fun _ _ _ => True) (fun _ _ => hf _ _) trivial

theorem destination (site : Site) : Step.Served (Lift.destination site) :=
  program.bind fun _ => ask (.parent _ _)

theorem liftedName (site : Site) (d : DeclId) : Step.Served (Lift.liftedName site d) :=
  (destination site).bind fun _ => program.bind fun _ => (ask (.before _ _)).bind fun _ => pure _

theorem copyValue (v : ValueId) (owner : DeclId) (kind : ValueKind) :
    Step.Served (Lift.copyValue v owner kind) :=
  (value v).bind fun _ => addValue _

theorem copyReceiver (v? : Option ValueId) (owner : DeclId) (kind : ValueKind) :
    Step.Served (Lift.copyReceiver v? owner kind) := by
  cases v? with
  | none => exact pure _
  | some v => exact (copyValue v owner kind).bind fun _ => pure _

theorem capturedFields (site : Site) (new : DeclId) (closure : Closure) :
    Step.Served (Lift.capturedFields site new closure) :=
  mapM fun v => (value v).bind fun _ => addDecl _

/-- The one place where a closure is asked for. -/
theorem closure (h : d ∈ site.closures.keys) : Step.Served (Lift.closure site d) := by
  unfold Lift.closure
  cases hc : site.closures.get? d with
  | some c => exact pure c
  | none => exact absurd h (OrderedMap.get?_eq_none_iff.1 hc)

end Step.Served

/-- Every local function and class has a closure. -/
def Site.HasClosures (site : Site) : Prop :=
  ∀ d, d ∈ site.locals.functions.keys ∨ d ∈ site.locals.classes.keys → d ∈ site.closures.keys

namespace Lift

namespace Served

variable {α β : Type}

theorem pure (a : α) : Served (Pure.pure a) := fun _ => .pure _

theorem throw (h : f.missesClosure = false) :
    Served (MonadExcept.throw f : Lift α) := fun _ => .throw h

theorem bind {x : Lift α} {f : α → Lift β} (h : Served x)
    (hf : ∀ a, Served (f a)) : Served (x >>= f) :=
  fun r => (h r).bind fun y => hf y.1 y.2

theorem lift {x : Step α} (h : Step.Served x) : Served (liftM x : Lift α) :=
  fun r => h.bind fun a => .pure (a, r)

theorem ask {e : Except Fault α} (h : Except.Served e) : Served (liftM e : Lift α) := by
  cases e with
  | ok a => exact pure a
  | error f => exact throw h

theorem get : Served (MonadState.get : Lift Relocation) := fun r => .pure (r, r)

theorem modify (f : Relocation → Relocation) : Served (modify f : Lift Unit) :=
  fun r => .pure ((), f r)

theorem set (r' : Relocation) : Served (MonadStateOf.set r' : Lift Unit) := fun _ => .pure ((), r')

theorem forM {f : α → Lift PUnit} {as : List α} (hf : ∀ a ∈ as, Served (f a)) :
    Served (as.forM f) :=
  fun _ _ => Yields.forM (fun _ _ _ => True) (fun has _ => hf _ (by simp [has]) _ _) trivial

theorem mapM {f : α → Lift β} {as : List α} (hf : ∀ a, Served (f a)) : Served (as.mapM f) :=
  fun _ _ => Yields.mapM (fun _ _ _ _ => True) (fun _ _ => hf _ _ _) trivial

theorem optionMapM {f : α → Lift β} {a? : Option α} (hf : ∀ a, Served (f a)) :
    Served (a?.mapM f) := by
  cases a? with
  | none => exact pure _
  | some a => exact (hf a).bind fun _ => pure _

end Served

theorem relocate_served (old new : DeclId) : Served (relocate old new) := by
  refine Served.get.bind fun r => ?_
  cases r.decls.insertNew old new with
  | ok decls => exact .set _
  | error current => exact .throw rfl

theorem remap_served (old new : ValueId) : Served (remap old new) := by
  refine (Served.lift .program).bind fun p => (Served.ask (.owner _ _)).bind fun owner =>
    Served.get.bind fun r => ?_
  cases Bijection.insert old new r.values with
  | ok _ values => exact .set _
  | error conflict _ => exact .throw rfl

theorem remapReceiver_served (old new : Option ValueId) : Served (remapReceiver old new) := by
  cases old with
  | none => exact .pure _
  | some v =>
    cases new with
    | none => exact .pure _
    | some x => exact remap_served v x

theorem liftedParams_served (site : Site) (new : DeclId) (closure : Closure) (old : List ValueId) :
    Served (liftedParams site new closure old) := by
  have hcaptured : Served (capturedParams site new closure) :=
    .mapM fun a => (Served.lift (.value a.1)).bind fun value =>
      (Served.lift (.addValue _)).bind fun param =>
      (Served.modify _).bind fun _ => .pure param
  have hcopied : Served (copiedParams new old closure.size) :=
    .mapM fun a => (Served.lift (.copyValue a.1 new (.param a.2))).bind fun param =>
      (remap_served a.1 param).bind fun _ => .pure param
  exact hcaptured.bind fun captured => hcopied.bind fun copied => .pure _

section

variable {site : Site} {d : DeclId} (hsite : site.HasClosures)
include hsite

theorem liftFunction_served (hd : d ∈ site.locals.functions.keys) :
    Served (liftFunction site d) := by
  have hclosure := Step.Served.closure (hsite d (.inl hd))
  refine (Served.lift (.decl d)).bind fun content => ?_
  cases content.function? with
  | none => exact .throw rfl
  | some f =>
    show Served (if f.dispatchReceiver.isSome then _ else _)
    split
    · exact .throw rfl
    · refine (Served.lift hclosure).bind fun closure =>
        (Served.lift (.liftedName site d)).bind fun name =>
        (Served.lift (.report _)).bind fun _ => (Served.lift (.destination site)).bind fun parent =>
        (Served.lift .program).bind fun p =>
          (liftedParams_served site _ closure f.params).bind fun params => ?_
      exact (Served.lift (.copyReceiver _ _ _)).bind fun receiver =>
        (Served.lift (.addDecl _)).bind fun new =>
        (relocate_served d new).bind fun _ =>
          (remapReceiver_served _ receiver).bind fun _ => .modify _

theorem liftClass_served (hd : d ∈ site.locals.classes.keys) : Served (liftClass site d) := by
  have hclosure := Step.Served.closure (hsite d (.inr hd))
  refine (Served.lift (.decl d)).bind fun content => ?_
  cases content.cls? with
  | none => exact .throw rfl
  | some c =>
    refine (Served.lift hclosure).bind fun closure =>
      (Served.lift (.liftedName site d)).bind fun name =>
      (Served.lift (.report _)).bind fun _ => (Served.lift (.destination site)).bind fun parent =>
      (Served.lift .program).bind fun p => (Served.lift (.addValue _)).bind fun this => ?_
    exact (Served.lift (.addDecl _)).bind fun new => (relocate_served d new).bind fun _ =>
      (remap_served c.this this).bind fun _ =>
        (Served.lift (.capturedFields site new closure)).bind fun fields =>
      .modify _

/-- A constructor asks for the closure of its class, and only if the class is in the table. -/
theorem liftConstructor_served (d : DeclId) : Served (liftConstructor site d) := by
  refine (Served.lift (.decl d)).bind fun content => ?_
  cases content with
  | constructor c =>
    dsimp only
    cases hcls : c.parent.filter site.locals.classes.contains with
    | none => exact .throw rfl
    | some cls =>
      have hkey : cls ∈ site.locals.classes.keys :=
        OrderedMap.contains_iff.1 (Option.filter_eq_some_iff.1 hcls).2
      refine Served.get.bind fun r => (Served.ask (.lifted r cls)).bind fun newCls =>
        (Served.lift (.closure (hsite cls (.inr hkey)))).bind fun closure =>
          (Served.lift .program).bind fun p =>
        (liftedParams_served site _ closure c.params).bind fun params => ?_
      exact (Served.lift (.copyReceiver _ _ _)).bind fun receiver =>
        (Served.lift (.addDecl _)).bind fun new =>
        (relocate_served d new).bind fun _ =>
          (remapReceiver_served _ receiver).bind fun _ => .modify _
  | _ => exact .throw rfl

end

theorem memberDestination_served (site : Site) (d : DeclId) :
    Served (memberDestination site d) := by
  refine (Served.lift .program).bind fun p => (Served.ask (.parent p d)).bind fun parent => ?_
  cases parent.filter site.locals.classes.contains with
  | none => exact .throw rfl
  | some old =>
    refine Served.get.bind fun r => (Served.ask (.lifted r old)).bind fun new =>
      (Served.lift (.decl new)).bind fun content => ?_
    cases content.cls? with
    | none => exact .throw rfl
    | some c => exact .pure _

theorem liftMethod_served (d : DeclId) (f : FunctionDecl) (cls : DeclId) (this : ValueId)
    (accessorOf : Option DeclId) : Served (liftMethod d f cls this accessorOf) := by
  refine (Served.lift .program).bind fun p => ?_
  have hparams : Served (f.params.zipIdx.mapM
      fun x => (liftM (copyValue x.1 p.decls.next (.param x.2)) : Lift ValueId)) :=
    .mapM fun x => .lift (.copyValue x.1 _ _)
  refine hparams.bind fun params => (Served.lift (.copyReceiver _ _ _)).bind fun receiver =>
    (Served.lift (.addDecl _)).bind fun new => (relocate_served d new).bind fun _ => ?_
  have hremap : Served ((f.params.zip params).forM fun x => remap x.1 x.2) :=
    .forM fun x _ => remap_served x.1 x.2
  refine hremap.bind fun _ => ?_
  cases f.dispatchReceiver with
  | none => exact .throw rfl
  | some dispatch =>
    exact (remap_served dispatch this).bind fun _ =>
      (remapReceiver_served _ receiver).bind fun _ => .pure _

theorem liftField_served (d : DeclId) (f : FieldDecl) (cls : DeclId) : Served (liftField d f cls) :=
  (Served.lift (.addDecl _)).bind fun new => (relocate_served d new).bind fun _ => .pure _

theorem liftBacking_served (cls field : DeclId) : Served (liftBacking cls field) := by
  refine (Served.lift (.decl field)).bind fun content => ?_
  cases content.field? with
  | none => exact .throw rfl
  | some f => exact liftField_served field f cls

theorem liftAccessor_served (cls : DeclId) (this : ValueId) (property accessor : DeclId) :
    Served (liftAccessor cls this property accessor) := by
  refine (Served.lift (.decl accessor)).bind fun content => ?_
  cases content.function? with
  | none => exact .throw rfl
  | some f => exact liftMethod_served accessor f cls this _

theorem liftProperty_served (site : Site) (d : DeclId) (q : PropertyDecl) :
    Served (liftProperty site d q) :=
  (memberDestination_served site d).bind fun dest =>
    (Served.optionMapM (liftBacking_served dest.1)).bind fun _ =>
    (Served.lift (.addDecl _)).bind fun new => (relocate_served d new).bind fun _ =>
    (Served.optionMapM (liftAccessor_served dest.1 dest.2 new)).bind fun _ =>
    (Served.optionMapM (liftAccessor_served dest.1 dest.2 new)).bind fun _ =>
      .lift (.modifyDecl new _)

theorem liftMember_served (site : Site) (d : DeclId) : Served (liftMember site d) := by
  refine (Served.lift (.decl d)).bind fun content => ?_
  cases content with
  | function f =>
    show Served (if f.accessorOf.isSome then _ else _)
    split
    · exact .pure _
    · exact (memberDestination_served site d).bind fun dest =>
        (liftMethod_served d f dest.1 dest.2 none).bind fun _ => .pure _
  | property q => exact liftProperty_served site d q
  | field f =>
    exact (memberDestination_served site d).bind fun dest =>
      (liftField_served d f dest.1).bind fun _ => .pure _
  | cls c => exact .throw rfl
  | constructor c => exact .throw rfl

theorem setMemberScope_served (d : DeclId) : Served (setMemberScope d) := by
  refine (Served.lift (.decl d)).bind fun content => ?_
  cases content.cls? with
  | none => exact .throw rfl
  | some c =>
    refine Served.get.bind fun r => (Served.ask (.lifted r d)).bind fun new =>
      (Served.mapM fun member => ?_).bind fun declared => (Served.lift .program).bind fun p =>
      (Served.ask ((Except.Served.mapM (.offered p r)).bind fun _ => .pure _)).bind fun inherited =>
      (Served.mapM fun member => .lift ?_).bind fun taken =>
      (Served.ask (.context r d)).bind fun context => .lift (.modifyDecl new _)
    · cases r.get? member with
      | some replacement => exact .pure _
      | none => exact .throw rfl
    · exact Step.Served.program.bind fun p =>
        (Step.Served.ask (.overridden p inherited member)).bind fun ds =>
        (Step.Served.modifyDecl member _).bind fun _ => .pure _

/-- **Signatures never miss a closure** if every local function and class has one. -/
theorem relocation_served (hsite : site.HasClosures) : Step.Served (relocation site) := by
  have hall : Served (relocateAll site) :=
    (Served.forM fun d hd => liftFunction_served hsite hd).bind fun _ =>
    (Served.forM fun d hd => liftClass_served hsite hd).bind fun _ =>
    (Served.forM fun d _ => liftConstructor_served hsite d).bind fun _ =>
    (Served.forM fun d _ => liftMember_served site d).bind fun _ =>
    Served.forM fun d _ => setMemberScope_served d
  exact (hall {}).bind fun y => .pure _

end Lift

/-! ## §5. The three tests agree. -/

namespace Program

variable {p : Program} {root d : DeclId} {content rootContent : Declaration} {l : Locals}

/-- The tables `l` of a root and its closures `cl` agree on what is local. -/
structure Agree (p : Program) (root : DeclId) (l : Locals) (cl : Closures) : Prop where
  keys : ∀ d, d ∈ cl.keys ↔ d ∈ l.functions.keys ∨ d ∈ l.classes.keys ∨ d ∈ l.constructors
    ∨ d ∈ l.members ∧ ∃ content, p.decls.get? d = some content ∧ content.opensScope = true
  needed : ∀ d content, d ∈ cl.keys → p.decls.get? d = some content → content.isCallable = true →
    ∃ r, Captures.capturing? p d = .ok r ∧ ∀ x, r = some x ↔ x = d ∧ d ∈ l.functions.keys
      ∨ d ∈ l.constructors ∧ content.parent = some x
        ∧ (x ∈ l.classes.keys ∨ ¬ p.Below root (.decl x) ∧ p.isMember x = .ok false)
  placed : ∀ e d, p.Below root (.expr e) → p.exprs.get? e = some (.decl d) →
    d ∈ l.functions.keys ∨ d ∈ l.classes.keys ∨ p.isMember d = .ok true

/-- What has a parent stands in a class or does not. -/
theorem Closed.exists_isMember (hp : p.Closed) (hd : p.decls.get? d = some content) :
    ∃ b, p.isMember d = .ok b := by
  cases hparent : content.parent with
  | none => exact ⟨false, isMember_eq_ok.2 ⟨content, hd, .inl ⟨hparent, rfl⟩⟩⟩
  | some k =>
    obtain ⟨outer, houter⟩ := hp.exists_parent hd hparent
    exact ⟨_, isMember_of_parent hd hparent houter⟩

/-- The tables hold everything that is reached and can open a scope. -/
theorem Sorted.opening_iff (hsorted : p.Sorted root l) (hp : p.Closed) :
    (p.Below root (.decl d) ∧ ∃ content, p.decls.get? d = some content ∧ content.opensScope = true)
      ↔ d ∈ l.functions.keys ∨ d ∈ l.classes.keys ∨ d ∈ l.constructors
        ∨ d ∈ l.members ∧ ∃ content, p.decls.get? d = some content ∧ content.opensScope = true := by
  rw [hsorted.functions, hsorted.classes, hsorted.constructors, hsorted.members]
  constructor
  · rintro ⟨hd, content, hcontent, hopens⟩
    obtain ⟨b, hb⟩ := hp.exists_isMember hcontent
    cases content with
    | constructor c => exact .inr (.inr (.inl ⟨hd, c, hcontent⟩))
    | function f =>
      cases b with
      | false => exact .inl ⟨hd, hb, f, hcontent⟩
      | true =>
        exact .inr (.inr (.inr ⟨⟨hd, hb, _, hcontent, fun c => by simp⟩, _, hcontent, hopens⟩))
    | cls c =>
      cases b with
      | false => exact .inr (.inl ⟨hd, hb, c, hcontent⟩)
      | true =>
        exact .inr (.inr (.inr ⟨⟨hd, hb, _, hcontent, fun c => by simp⟩, _, hcontent, hopens⟩))
    | field x => cases hopens
    | property x => cases hopens
  · rintro (⟨hd, -, f, hf⟩ | ⟨hd, -, c, hc⟩ | ⟨hd, c, hc⟩ | ⟨⟨hd, -⟩, content, hcontent, hopens⟩)
    · exact ⟨hd, _, hf, rfl⟩
    · exact ⟨hd, _, hc, rfl⟩
    · exact ⟨hd, _, hc, rfl⟩
    · exact ⟨hd, content, hcontent, hopens⟩

/-- Where every chain of parents leads over the root, so do those of what is reached. -/
theorem Collects.under (h : p.Collects root)
    (hall : ∀ i < p.decls.size, root ∈ (p.chain ⟨i⟩).scopes.map Prod.fst) : p.Under root := by
  intro d hd
  obtain ⟨content, hcontent⟩ := h.exists_decl hd
  exact hall d.index (Arena.lt_size_of_get? hcontent)

/-- The root is an ancestor of whatever opens a scope, so closures are recorded. -/
theorem Under.isLocal (h : p.Under root) (hchains : p.ChainsEnd)
    (hroot : p.decls.get? root = some rootContent) (hcallable : rootContent.isCallable = true)
    (hacyclic : p.AcyclicAt .nested (.decl root)) (hd : p.Below root (.decl d)) :
    p.isLocal d = .ok true :=
  hchains.isLocal (h.ancestor hacyclic hd) hroot hcallable

end Program

/-- **Collecting, the analysis and the building of signatures agree on what is local.**  In a
program whose handles all lead somewhere, whose chains of parents end and whose backing fields are
fields, take a callable with tables below which nothing is nested in itself, and let everything
reached from it have it on its chain of parents.  Then the analysis answers, it has a closure for
each function, class and constructor in the tables and for nothing else, a use of one of these
callables needs the closure that the tables name, whatever a statement places is to be lifted or
stands in a class, and building signatures never misses a closure. -/
theorem locals_agree_with_closures {p : Program} {root : DeclId} {content : Declaration}
    {l : Locals} (hp : p.Closed) (hchains : p.ChainsEnd) (hroot : p.decls.get? root = some content)
    (hcallable : content.isCallable = true) (hacyclic : p.AcyclicAt .nested (.decl root))
    (hbacking : p.BackingsAreFields) (hunder : p.Under root) (hlocals : p.locals root = .ok l) :
    ∃ cl events, p.closures root = .ok (cl, events) ∧ p.Agree root l cl
      ∧ ∀ settings w d,
        Step.fault? (Lift.relocation { settings, root, locals := l, closures := cl }) w
        ≠ some (.violation .noClosure d) := by
  obtain ⟨hsorted, hcollects⟩ := Program.locals_spec hlocals
  have hlabel : p.label? (.decl root) = some (.decl root content) :=
    Program.label?_eq_decl.2 ⟨rfl, hroot⟩
  obtain ⟨t, ht⟩ := Program.exists_reads (hp.completeAt ⟨_, hlabel⟩) hacyclic
  obtain ⟨cl, events, hclosures, hopens, -⟩ :=
    Program.closures_spec hp hchains hroot (Program.readsAll_parts ht hroot) fun d hd =>
      hunder.isLocal hchains hroot hcallable hacyclic ((Program.opens_iff_below hbacking).1 hd).1
  have hkeys : ∀ d, d ∈ cl.keys ↔ p.Below root (.decl d) ∧ ∃ content, p.decls.get? d = some content
      ∧ content.opensScope = true :=
    fun d => (hopens d).trans (Program.opens_iff_below hbacking)
  have htables : ∀ d, d ∈ cl.keys ↔ d ∈ l.functions.keys ∨ d ∈ l.classes.keys ∨ d ∈ l.constructors
      ∨ d ∈ l.members ∧ ∃ content, p.decls.get? d = some content ∧ content.opensScope = true :=
    fun d => (hkeys d).trans (hsorted.opening_iff hp)
  refine ⟨cl, events, hclosures,
    ⟨htables, fun d inner hd hinner hcall => ?_, fun e d he hnode => ?_⟩, ?_⟩
  · obtain ⟨r, hr, hdraws⟩ := hp.capturing? hchains hinner
    have hbelow := ((hkeys d).1 hd).1
    refine ⟨r, hr, fun x => ?_⟩
    rw [hdraws, Program.draws_iff hp hchains hroot hcallable hacyclic hunder hsorted hbelow hinner]
    have hclass : ∀ c, inner = .constructor c → c.parent = some x →
        (p.StandsInBody x ↔ x ∈ l.classes.keys ∨ ¬ p.Below root (.decl x)
          ∧ p.isMember x = .ok false) := by
      rintro c rfl hparent
      -- a constructor that could be sorted stands in a class
      have hmember : p.isMember d = .ok true := by
        rcases hcollects.isMember hsorted hbelow with hkey | hkey | hmember
        · cases hinner.symm.trans ((hsorted.functions d).1 hkey).2.2.choose_spec
        · cases hinner.symm.trans ((hsorted.classes d).1 hkey).2.2.choose_spec
        · exact hmember
      exact Program.standsInBody_of_constructor hp hchains hroot hcallable hacyclic hunder hsorted
        hbelow hinner hmember hparent
    refine or_congr_right ⟨?_, ?_⟩
    · rintro ⟨c, rfl, hparent, hbody⟩
      exact ⟨(hsorted.constructors d).2 ⟨hbelow, c, hinner⟩, hparent,
        (hclass c rfl hparent).1 hbody⟩
    · rintro ⟨hconstructor, hparent, hbody⟩
      obtain ⟨-, c, hc⟩ := (hsorted.constructors d).1 hconstructor
      obtain rfl : inner = .constructor c := Option.mem_unique hinner hc
      exact ⟨c, rfl, hparent, (hclass c rfl hparent).2 hbody⟩
  · exact hcollects.isMember hsorted (he.placed hnode)
  · intro settings w d
    have hsite : Site.HasClosures { settings, root, locals := l, closures := cl } := by
      rintro x (hx | hx)
      · exact (htables x).2 (.inl hx)
      · exact (htables x).2 (.inr (.inl hx))
    exact (Lift.relocation_served hsite).fault?_ne

/-- A local class with an inner one and constructors of both: four tables, four closures. -/
theorem locals_agree_with_closures_inner : ∃ l cl events,
    (Sample.program Sample.innerClassInLocalClass).locals ⟨0⟩ = .ok l ∧ l.classes.keys = [⟨1⟩]
      ∧ (Sample.program Sample.innerClassInLocalClass).closures ⟨0⟩ = .ok (cl, events)
      ∧ (Sample.program Sample.innerClassInLocalClass).Agree ⟨0⟩ l cl := by
  have hroot :=
    (Option.some_get (x := (Sample.program Sample.innerClassInLocalClass).decls.get? ⟨0⟩)
    (by decide +kernel)).symm
  have hcomplete : ((Sample.program Sample.innerClassInLocalClass).unfoldUpTo .nested 20
      (.decl ⟨0⟩)).complete = true := by
    decide +kernel
  have hclasses :
      ((Sample.program Sample.innerClassInLocalClass).locals ⟨0⟩).toOption.map (·.classes.keys)
      = some [⟨1⟩] := by decide +kernel
  cases hlocals : (Sample.program Sample.innerClassInLocalClass).locals ⟨0⟩ with
  | error f =>
    rw [hlocals] at hclasses
    cases hclasses
  | ok l =>
    rw [hlocals] at hclasses
    have hunder := (Program.locals_spec hlocals).2.under (by decide +kernel)
    obtain ⟨cl, events, hclosures, hagree, -⟩ :=
      locals_agree_with_closures (by decide +kernel) (by decide +kernel) hroot
      (by decide +kernel) (Program.acyclicAt_of_complete hcomplete)
        (by decide +kernel) hunder hlocals
    exact ⟨l, cl, events, rfl, Option.some.inj hclasses, hclosures, hagree⟩

/-- A local class lists a function that stands at module level.

    fun f() { class A { g } }; fun g()
-/
def Program.strayMember : Program where
  decls := ⟨#[.function { name := .ident "f", parent := none, visibility := .everywhere,
                          ret := .unit, body := some ⟨0⟩ },
    .cls { name := .ident "A", parent := some ⟨0⟩, kind := .plain, visibility := .inBody,
           this := ⟨0⟩, members := [⟨2⟩], scope := { declared := [⟨2⟩] } },
    .function { name := .ident "g", parent := none, visibility := .everywhere, ret := .unit }]⟩
  values := ⟨#[{ name := .this, ty := .cls ⟨1⟩, owner := ⟨1⟩, kind := .dispatchReceiver }]⟩
  exprs := ⟨#[.decl ⟨1⟩]⟩
  top := [⟨0⟩]

/-- A local class lists a constructor of another class of the same function that is placed nowhere.

    fun f() { class A { constructor of B } }
-/
def Program.borrowedConstructor : Program where
  decls := ⟨#[.function { name := .ident "f", parent := none, visibility := .everywhere,
                          ret := .unit, body := some ⟨0⟩ },
    .cls { name := .ident "A", parent := some ⟨0⟩, kind := .plain, visibility := .inBody,
           this := ⟨0⟩, members := [⟨2⟩] },
    .constructor { parent := some ⟨3⟩, isPrimary := true, visibility := .everywhere },
    .cls { name := .ident "B", parent := some ⟨0⟩, kind := .plain,
           visibility := .inBody, this := ⟨1⟩ }]⟩
  values := ⟨#[{ name := .this, ty := .cls ⟨1⟩, owner := ⟨1⟩, kind := .dispatchReceiver },
    { name := .this, ty := .cls ⟨3⟩, owner := ⟨3⟩, kind := .dispatchReceiver }]⟩
  exprs := ⟨#[.decl ⟨1⟩]⟩
  top := [⟨0⟩]

/-- **Members are where the tests differ.**  It is not enough that what a statement places has the
root on its chain: a listed function at module level is taken for a local one, and no closure is
computed for it.  And even where the condition holds of members too, a constructor may draw on a
class that is in no table. -/
theorem locals_disagree_with_closures :
    (Program.strayMember.Closed ∧ Program.strayMember.ChainsEnd ∧ Program.strayMember.Acyclic
      ∧ Program.strayMember.BackingsAreFields
      ∧ (∀ e d, Program.strayMember.exprs.get? e = some (.decl d) →
        ⟨0⟩ ∈ (Program.strayMember.chain d).scopes.map Prod.fst)
      ∧ ∃ l cl events, Program.strayMember.locals ⟨0⟩ = .ok l ∧ ⟨2⟩ ∈ l.functions.keys
        ∧ Program.strayMember.closures ⟨0⟩ = .ok (cl, events) ∧ ⟨2⟩ ∉ cl.keys
        ∧ Step.fault? (Lift.relocation { settings := {}, root := ⟨0⟩, locals := l, closures := cl })
          ⟨.strayMember, []⟩
          = some (.violation .noClosure ⟨2⟩))
    ∧ Program.borrowedConstructor.Closed ∧ Program.borrowedConstructor.ChainsEnd
    ∧ Program.borrowedConstructor.Acyclic
      ∧ Program.borrowedConstructor.BackingsAreFields
      ∧ Program.borrowedConstructor.Under ⟨0⟩
      ∧ ∃ l, Program.borrowedConstructor.locals ⟨0⟩ = .ok l ∧ l.constructors.toList = [⟨2⟩]
      ∧ l.classes.keys = [⟨1⟩]
        ∧ Captures.capturing? .borrowedConstructor ⟨2⟩ = .ok (some ⟨3⟩) := by
  constructor
  · refine ⟨by decide +kernel, by decide +kernel, Program.acyclic_of_complete (by decide +kernel),
      by decide +kernel, ?_, ?_⟩
    · intro e d he
      have hmem : Expr.decl d ∈ Program.strayMember.exprs.entries.toList :=
        Arena.mem_entries_of_get? he
      have hall : ∀ node ∈ Program.strayMember.exprs.entries.toList,
          node = .decl ⟨1⟩ := by decide +kernel
      cases hall _ hmem
      decide +kernel
    · exact ⟨{ functions := .ofList [(⟨2⟩, none)], classes := .ofList [(⟨1⟩, none)] },
        .ofList [(⟨1⟩, .empty)], [.captures (.ident "A") []], by decide +kernel, by decide, by
        decide +kernel, by decide, by decide +kernel⟩
  · have hlocals : Program.borrowedConstructor.locals ⟨0⟩
        = .ok { classes := .ofList [(⟨1⟩, none)], constructors := .ofList [⟨2⟩] } := by
      decide +kernel
    refine ⟨by decide +kernel, by decide +kernel, Program.acyclic_of_complete (by decide +kernel),
      by decide +kernel, ?_, _, hlocals, rfl, rfl, by decide +kernel⟩
    exact (Program.locals_spec hlocals).2.under (by decide +kernel)

end LambdaLift
