/-
  LambdaLift.Proofs.MemberScopes
  **MEMBER SCOPES ARE REBUILT AS THE OLD ONES WERE BUILT.**

  Lifting keeps the kind, the name, the number of parameters and the
  visibility of every member, and no two members get one replacement.  So
  what a lifted class inherits, what its members override and what stays
  inherited are the replacements of what the old scopes say, wherever the
  supertypes stand and whether they are lifted in the same round or not.
  A member that several local classes declare is written to once for each
  of them, and the last one says what it overrides.

  Main results:
    * `Ledger.poses` — replacements pose as what they replace;
    * `Lift.setMemberScope_rescopes`, `Lift.forM_setMemberScope_scoped` — one
      class, and all of them;
    * `relocation_rescopes` — the member scopes of a whole root;
    * `rescoping_fails` — a member of two classes, and an accessor that no
      property of its class lists.
-/
import Mathlib
import LambdaLift.Proofs.CaptureWalk
import LambdaLift.Proofs.Correspondence

namespace LambdaLift

variable {p p₀ : Program} {d k m x : DeclId} {c : ClassDecl} {content old : Declaration}
  {r : Relocation} {site : Site} {w : Work}

/-! ## §1. What is inherited. -/

/-- What a function or a property overrides. -/
def Declaration.overridden : Declaration → List DeclId
  | .function f => f.overrides
  | .property q => q.overrides
  | _ => []

namespace Program

/-- Whether subclasses see a declaration. -/
def isInheritable (p : Program) (d : DeclId) : Bool := (p.decls.get? d).any Lift.isInheritable

/-- Whether the first member takes the place of the second: same kind, same name, as many
parameters. -/
def overrides (p : Program) (m d : DeclId) : Bool :=
  (p.decls.get? m).any fun a => (p.decls.get? d).any fun b => Lift.overrides a b

/-- The members that a supertype offers. -/
def offers (p : Program) : Ty → List DeclId
  | .cls sup =>
    match p.decls.get? sup with
    | some (.cls c) => (c.scope.declared ++ c.scope.inherited).filter p.isInheritable
    | _ => []
  | _ => []

/-- The members that a class gets from its supertypes, each at its first position. -/
def heritage (p : Program) (c : ClassDecl) : List DeclId :=
  (OrderedSet.ofList (c.supertypes.flatMap p.offers)).toList

/-- What a member of the class overrides. -/
def overriddenBy (p : Program) (c : ClassDecl) (m : DeclId) : List DeclId :=
  (p.heritage c).filter (p.overrides m)

/-- What the class inherits and no declared member overrides. -/
def keptBy (p : Program) (c : ClassDecl) : List DeclId :=
  (p.heritage c).filter fun d => !c.scope.declared.any fun m => p.overrides m d

/-- Whether a declaration is a function or a property of some class. -/
def isScopeEntry (p : Program) (m : DeclId) : Bool :=
  (p.decls.get? m).any fun content =>
    content.isNameable && content.parent.any fun k => (p.decls.get? k).any (·.isClass)

/-- **Member scopes list members only**: functions and properties of classes.  Supertypes are
there. -/
def ScopesListMembers (p : Program) : Prop :=
  ∀ content ∈ p.decls.entries.toList, ∀ c ∈ content.cls?.toList,
    (∀ m ∈ c.scope.declared ++ c.scope.inherited, p.isScopeEntry m = true)
    ∧ ∀ ty ∈ c.supertypes, ∀ d ∈ ty.classes, d.index < p.decls.size

instance (p : Program) : Decidable p.ScopesListMembers := by
  unfold ScopesListMembers
  infer_instance

variable {p : Program} {k m : DeclId} {c : ClassDecl}

theorem exists_of_isScopeEntry (h : p.isScopeEntry m = true) :
    ∃ content, p.decls.get? m = some content
      ∧ content.isNameable = true ∧ p.isMember m = .ok true := by
  obtain ⟨content, hcontent, h⟩ := (Option.any_eq_true _ _).1 h
  obtain ⟨hnameable, hparent⟩ := Bool.and_eq_true_iff.1 h
  obtain ⟨outer, houter, hclass⟩ := (Option.any_eq_true _ _).1 hparent
  obtain ⟨outerContent, houterContent, hclass⟩ := (Option.any_eq_true _ _).1 hclass
  exact ⟨content, hcontent, hnameable, hclass ▸ isMember_of_parent hcontent houter houterContent⟩

namespace ScopesListMembers

theorem entry (h : p.ScopesListMembers) (hc : p.decls.get? k = some (.cls c))
    (hm : m ∈ c.scope.declared ++ c.scope.inherited) : p.isScopeEntry m = true :=
  (h _ (Arena.mem_entries_of_get? hc) c (by simp [Declaration.cls?])).1 m hm

theorem supertype (h : p.ScopesListMembers) (hc : p.decls.get? k = some (.cls c)) {sup : DeclId}
    (hsup : .cls sup ∈ c.supertypes) : ∃ content, p.decls.get? sup = some content :=
  Arena.exists_get?_of_lt ((h _ (Arena.mem_entries_of_get? hc) c (by simp [Declaration.cls?])).2 _
    hsup sup (by simp [Ty.classes]))

/-- What a supertype offers can stand in a member scope. -/
theorem offered (h : p.ScopesListMembers) {ty : Ty} (hd : d ∈ p.offers ty) :
    p.isScopeEntry d = true := by
  cases ty with
  | cls sup =>
    cases hsup : p.decls.get? sup with
    | none => simp [offers, hsup] at hd
    | some content =>
      cases content with
      | cls c =>
        simp only [offers, hsup] at hd
        exact h.entry hsup (List.mem_of_mem_filter hd)
      | _ => simp [offers, hsup] at hd
  | _ => cases hd

theorem inherited (h : p.ScopesListMembers) (hd : d ∈ p.heritage c) : p.isScopeEntry d = true := by
  obtain ⟨ty, -, hoffers⟩ := List.mem_flatMap.1 (OrderedSet.mem_ofList.1 hd)
  exact h.offered hoffers

end ScopesListMembers

end Program

/-- Renaming elements apart does not change which of them are repeated. -/
theorem OrderedSet.toList_ofList_map {α β : Type} [DecidableEq α] [DecidableEq β] {f : α → β}
    {as : List α} (hinj : ∀ a ∈ as, ∀ b ∈ as, f a = f b → a = b) :
    (ofList (as.map f)).toList = (ofList as).toList.map f := by
  have go : ∀ (as : List α) (s : OrderedSet α) (t : OrderedSet β), t.toList = s.toList.map f →
      (∀ a ∈ s.toList ++ as, ∀ b ∈ s.toList ++ as, f a = f b → a = b) →
      (t.insertAll (as.map f)).toList = (s.insertAll as).toList.map f := by
    intro as
    induction as with
    | nil => exact fun s t h _ => h
    | cons a as ih =>
      intro s t h hinj
      have hmem : f a ∈ t ↔ a ∈ s := by
        rw [← mem_toList, h, List.mem_map]
        constructor
        · rintro ⟨b, hb, hfb⟩
          exact hinj b (List.mem_append_left _ hb) a (by simp) hfb ▸ hb
        · exact fun ha => ⟨a, ha, rfl⟩
      refine ih (s.insert a) (t.insert (f a)) ?_ fun x hx y hy => hinj x ?_ y ?_
      · rw [toList_insert, toList_insert, apply_ite (List.map f)]
        simp only [hmem, h, List.map_append, List.map_cons, List.map_nil]
      · simp only [List.mem_append, mem_toList, mem_insert, List.mem_cons] at hx ⊢
        tauto
      · simp only [List.mem_append, mem_toList, mem_insert, List.mem_cons] at hy ⊢
        tauto
  exact go as empty empty rfl hinj

/-! ## §2. Replacements pose as what they replace. -/

/-- Subclasses see both or neither, and both take and leave their place to the same members. -/
structure Poses (old new : Declaration) : Prop where
  inheritable : Lift.isInheritable new = Lift.isInheritable old
  left : ∀ x, Lift.overrides new x = Lift.overrides old x
  right : ∀ x, Lift.overrides x new = Lift.overrides x old

theorem Poses.refl (old : Declaration) : Poses old old := ⟨rfl, fun _ => rfl, fun _ => rfl⟩

theorem Poses.trans {a b c : Declaration} (h : Poses a b) (h' : Poses b c) : Poses a c :=
  ⟨h'.inheritable.trans h.inheritable, fun x => (h'.left x).trans (h.left x),
    fun x => (h'.right x).trans (h.right x)⟩

theorem poses_erase (content : Declaration) : Poses content.erase content := by
  cases content with
  | function f => exact ⟨rfl, fun x => by cases x <;> rfl, fun x => by cases x <;> rfl⟩
  | property q => exact ⟨rfl, fun x => by cases x <;> rfl, fun x => by cases x <;> rfl⟩
  | _ => exact ⟨rfl, fun x => by cases x <;> rfl, fun x => by cases x <;> rfl⟩

section

variable {p₀ p : Program} {site : Site} {n : Nat} {r : Relocation} {d new : DeclId}

/-- A member keeps its kind, its name, its visibility and the number of its parameters. -/
theorem Renews.poses (h : Renews p₀ site r p d new old content)
    (hd : d ∉ site.locals.functions.keys) : Poses old content := by
  cases h with
  | function hlisted => exact absurd hlisted hd
  | cls => exact ⟨rfl, fun x => by cases x <;> rfl, fun x => by cases x <;> rfl⟩
  | constructor => exact ⟨rfl, fun x => by cases x <;> rfl, fun x => by cases x <;> rfl⟩
  | @method f _ _ _ _ _ params _ _ _ _ _ hparams _ =>
    have hlength : params.length = f.params.length := by simpa using hparams.length_eq.symm
    refine ⟨rfl, fun x => ?_, fun x => ?_⟩
    · cases x <;> simp [Lift.overrides, hlength]
    · cases x <;> simp [Lift.overrides, hlength]
  | property => exact ⟨rfl, fun x => by cases x <;> rfl, fun x => by cases x <;> rfl⟩
  | field => exact ⟨rfl, fun x => by cases x <;> rfl, fun x => by cases x <;> rfl⟩

/-- A function or a property is replaced by one. -/
theorem Renews.overridden_withOverrides (h : Renews p₀ site r p d new old content.erase)
    (hold : old.isNameable = true) (ds : List DeclId) :
    (Lift.withOverrides ds content).overridden = ds := by
  generalize herase : content.erase = erased at h
  cases h with
  | function =>
    obtain ⟨overrides, rfl⟩ := Declaration.eq_function_of_erase herase
    rfl
  | method =>
    obtain ⟨overrides, rfl⟩ := Declaration.eq_function_of_erase herase
    rfl
  | property =>
    obtain ⟨overrides, rfl⟩ := Declaration.eq_property_of_erase herase
    rfl
  | _ => cases hold

theorem Relocation.retarget_of_some (h : r.get? d = some x) : r.retarget d = x := by
  unfold retarget
  rw [h]
  rfl

theorem Relocation.retarget_of_none (h : r.get? d = none) : r.retarget d = d := by
  unfold retarget
  rw [h]
  rfl

/-- No two declarations become one. -/
theorem Books.retarget_inj (h : Books p₀ site n r p) {d d' : DeclId} {content' : Declaration}
    (hd : p₀.decls.get? d = some content) (hd' : p₀.decls.get? d' = some content')
    (heq : r.retarget d = r.retarget d') : d = d' := by
  have hlt := Arena.lt_size_of_get? hd
  have hlt' := Arena.lt_size_of_get? hd'
  cases hx : r.get? d with
  | none =>
    rw [Relocation.retarget_of_none hx] at heq
    cases hx' : r.get? d' with
    | none => rwa [Relocation.retarget_of_none hx'] at heq
    | some x' =>
      rw [Relocation.retarget_of_some hx'] at heq
      have := (h.images hx').1
      rw [← heq] at this
      omega
  | some x =>
    rw [Relocation.retarget_of_some hx] at heq
    cases hx' : r.get? d' with
    | none =>
      rw [Relocation.retarget_of_none hx'] at heq
      have := (h.images hx).1
      rw [heq] at this
      omega
    | some x' =>
      rw [Relocation.retarget_of_some hx'] at heq
      exact h.injective hx (heq ▸ hx')

/-- What scopes list is listed after lifting if it was listed before. -/
theorem Books.mem_map_retarget (h : Books p₀ site n r p) {ds : List DeclId}
    (hds : ∀ e ∈ ds, p₀.isScopeEntry e = true) {d : DeclId} (hd : p₀.isScopeEntry d = true) :
    r.retarget d ∈ ds.map r.retarget ↔ d ∈ ds := by
  refine ⟨fun hmem => ?_, fun hmem => List.mem_map_of_mem hmem⟩
  obtain ⟨e, he, heq⟩ := List.mem_map.1 hmem
  obtain ⟨_, he', -⟩ := Program.exists_of_isScopeEntry (hds e he)
  obtain ⟨_, hd', -⟩ := Program.exists_of_isScopeEntry hd
  exact h.retarget_inj he' hd' heq ▸ he

/-- Whatever a declaration became is not replaced any further. -/
theorem Ledger.get?_retarget (h : Ledger p₀ site none r p) (d : DeclId) :
    r.get? (r.retarget d) = none := by
  cases hx : r.get? d with
  | none => rwa [Relocation.retarget_of_none hx]
  | some x =>
    rw [Relocation.retarget_of_some hx]
    cases hy : r.get? x with
    | none => rfl
    | some y =>
      -- a replacement is new, and only what was there is replaced
      obtain ⟨old, hold, -⟩ := h.reaches hy
      exact absurd (Arena.lt_size_of_get? hold) (Nat.not_lt_of_le (h.images hx).1)

/-- **Replacements pose as what they replace**, and so does what stays. -/
theorem Ledger.poses (h : Ledger p₀ site none r p) (hold : p₀.decls.get? d = some old)
    (hd : d ∉ site.locals.functions.keys) :
    ∃ content, p.decls.get? (r.retarget d) = some content ∧ Poses old content := by
  cases hx : r.get? d with
  | none =>
    rw [Relocation.retarget_of_none hx]
    exact ⟨old, h.grown.decls _ _ hold, .refl old⟩
  | some x =>
    rw [Relocation.retarget_of_some hx]
    obtain ⟨content, hcontent, hrenews⟩ := h.renews hx hold
    exact ⟨content, hcontent, (hrenews.poses hd).trans (poses_erase content)⟩

end

/-! ## §3. What is inherited and overridden after lifting. -/

namespace Ledger

variable {p₀ p : Program} {site : Site} {r : Relocation} (h : Ledger p₀ site none r p)
  (hsorted : p₀.Sorted site.root site.locals)

include h hsorted

/-- A member that scopes list poses as before. -/
theorem poses_entry (hm : p₀.isScopeEntry m = true) : ∃ old content, p₀.decls.get? m = some old
    ∧ p.decls.get? (r.retarget m) = some content ∧ Poses old content := by
  obtain ⟨old, hold, -, hmember⟩ := Program.exists_of_isScopeEntry hm
  -- members of classes are no local functions
  have hnot : m ∉ site.locals.functions.keys := by
    intro hlisted
    cases hmember.symm.trans ((hsorted.functions m).1 hlisted).2.1
  obtain ⟨content, hcontent, hposes⟩ := h.poses hold hnot
  exact ⟨old, content, hold, hcontent, hposes⟩

theorem retarget_lt (hm : p₀.isScopeEntry m = true) : (r.retarget m).index < p.decls.size := by
  obtain ⟨_, _, -, hcontent, -⟩ := h.poses_entry hsorted hm
  exact Arena.lt_size_of_get? hcontent

theorem isInheritable_retarget (hm : p₀.isScopeEntry m = true) :
    p.decl (r.retarget m) >>= (fun content => pure (Lift.isInheritable content))
      = (.ok (p₀.isInheritable m) : Except Fault Bool) := by
  obtain ⟨old, content, hold, hcontent, hposes⟩ := h.poses_entry hsorted hm
  rw [Program.decl_eq_ok.2 hcontent]
  show Except.ok _ = _
  rw [hposes.inheritable, Program.isInheritable, hold]
  rfl

theorem overrides_retarget (hm : p₀.isScopeEntry m = true) (hd : p₀.isScopeEntry d = true) :
    p.decl (r.retarget m)
      >>= (fun a => p.decl (r.retarget d) >>= fun b => pure (Lift.overrides a b))
      = (.ok (p₀.overrides m d) : Except Fault Bool) := by
  obtain ⟨old, content, hold, hcontent, hposes⟩ := h.poses_entry hsorted hm
  obtain ⟨old', content', hold', hcontent', hposes'⟩ := h.poses_entry hsorted hd
  rw [Program.decl_eq_ok.2 hcontent, Program.decl_eq_ok.2 hcontent']
  show Except.ok _ = _
  rw [hposes.left, hposes'.right, Program.overrides, hold, hold']
  rfl

variable (hscopes : p₀.ScopesListMembers)

include hscopes

/-- A supertype offers the replacements of what it offered. -/
theorem offered_eq {ty : Ty}
    (hty : ∀ sup, ty = .cls sup → ∃ content, p₀.decls.get? sup = some content) :
    Lift.offered p r ty = .ok ((p₀.offers ty).map r.retarget) := by
  cases ty with
  | cls sup =>
    obtain ⟨content, hsup⟩ := hty sup rfl
    have hdecl := Program.decl_eq_ok.2 (h.grown.decls _ _ hsup)
    cases content with
    | cls c =>
      simp only [Lift.offered, Program.offers, hdecl, hsup, Except.ok_bind]
      exact Except.filterM_map_eq_ok fun m hm => h.isInheritable_retarget hsorted
        (hscopes.entry hsup hm)
    | _ =>
      simp only [Lift.offered, Program.offers, hdecl, hsup, Except.ok_bind]
      rfl
  | _ => rfl

/-- **A lifted class inherits the replacements** of what the old one inherited, in the same
order. -/
theorem inherited_eq (hc : p₀.decls.get? k = some (.cls c)) :
    ∃ inherited, Lift.inherited p r c.supertypes = .ok inherited
      ∧ inherited.toList = (p₀.heritage c).map r.retarget := by
  have hoffered : ∀ ty ∈ c.supertypes, ∃ ds, Lift.offered p r ty = .ok ds
      ∧ ds = (p₀.offers ty).map r.retarget :=
    fun ty hty =>
      ⟨_, h.offered_eq hsorted hscopes fun sup hsup => hscopes.supertype hc (hsup ▸ hty), rfl⟩
  obtain ⟨dss, hdss, hall⟩ := Except.mapM_eq_ok hoffered
  refine ⟨.ofList dss.flatten, ?_, ?_⟩
  · unfold Lift.inherited
    rw [hdss]
    rfl
  · have hflatten : dss.flatten = (c.supertypes.flatMap p₀.offers).map r.retarget := by
      have hmap : c.supertypes.map (fun ty => (p₀.offers ty).map r.retarget) = dss := by
        rw [← List.forall₂_eq_eq_eq, List.forall₂_map_left_iff]
        exact hall.imp fun _ _ heq => heq.symm
      rw [← hmap, List.map_flatMap, List.flatMap_def]
    rw [hflatten]
    refine OrderedSet.toList_ofList_map fun a ha b hb heq => ?_
    obtain ⟨_, -, ha⟩ := List.mem_flatMap.1 ha
    obtain ⟨_, -, hb⟩ := List.mem_flatMap.1 hb
    obtain ⟨_, ha, -⟩ := Program.exists_of_isScopeEntry (hscopes.offered ha)
    obtain ⟨_, hb, -⟩ := Program.exists_of_isScopeEntry (hscopes.offered hb)
    exact h.retarget_inj ha hb heq

/-- **A lifted member overrides the replacements** of what the old one overrode. -/
theorem overridden_eq (hm : p₀.isScopeEntry m = true) {inherited : OrderedSet DeclId}
    (hinherited : inherited.toList = (p₀.heritage c).map r.retarget) :
    Lift.overridden p inherited (r.retarget m) = .ok ((p₀.overriddenBy c m).map r.retarget) := by
  unfold Lift.overridden
  rw [hinherited]
  exact Except.filterM_map_eq_ok fun d hd => h.overrides_retarget hsorted hm (hscopes.inherited hd)

omit hsorted in
theorem mem_overriddenBy (hd : d ∈ p₀.heritage c) :
    r.retarget d ∈ (p₀.overriddenBy c m).map r.retarget ↔ p₀.overrides m d = true := by
  unfold Program.overriddenBy
  rw [h.mem_map_retarget (fun e he => hscopes.inherited (List.mem_of_mem_filter he))
    (hscopes.inherited hd), List.mem_filter, and_iff_right hd]

omit hsorted in
/-- What stays inherited does not depend on when members were compared. -/
theorem kept_eq {taken : List (List DeclId)} {inherited : OrderedSet DeclId}
    (hinherited : inherited.toList = (p₀.heritage c).map r.retarget)
    (htaken : ∀ x, x ∈ taken.flatten
      ↔ ∃ m ∈ c.scope.declared, x ∈ (p₀.overriddenBy c m).map r.retarget) :
    (inherited.toList.filter fun sup => !taken.flatten.contains sup)
      = (p₀.keptBy c).map r.retarget := by
  rw [hinherited, List.filter_map]
  unfold Program.keptBy
  congr 1
  refine List.filter_congr fun d hd => ?_
  have hmem : r.retarget d ∈ taken.flatten ↔ ∃ m ∈ c.scope.declared, p₀.overrides m d = true := by
    rw [htaken]
    refine exists_congr fun m => and_congr_right fun _ => ?_
    rw [h.mem_overriddenBy hscopes hd]
  have hcontains : taken.flatten.contains (r.retarget d)
      = c.scope.declared.any fun m => p₀.overrides m d :=
    Bool.eq_iff_iff.2 (List.contains_iff_mem.trans (hmem.trans List.any_eq_true.symm))
  exact congrArg (!·) hcontains

end Ledger

/-! ## §4. One class after the other. -/

/-- The scope of a lifted class: the replacements of the declared members, the fields of captured
values, and what no declared member overrides. -/
def Relocation.scope (r : Relocation) (p₀ : Program) (k : DeclId)
    (c : ClassDecl) : MemberScope where
  declared := c.scope.declared.map r.retarget ++ (r.contexts.get? k).elim [] Lift.capturedFieldsOf
  inherited := (p₀.keptBy c).map r.retarget

/-- A class got its scope and its members what they override, and nothing else was written to. -/
structure Rescopes (p₀ : Program) (r : Relocation) (k : DeclId) (c : ClassDecl)
    (p p' : Program) : Prop where
  cls : ∃ new c', r.get? k = some new ∧ p'.decls.get? new = some (.cls c')
    ∧ c'.scope = r.scope p₀ k c
  members : ∀ m ∈ c.scope.declared, ∃ x content, r.get? m = some x ∧ p'.decls.get? x = some content
    ∧ content.overridden = (p₀.overriddenBy c m).map r.retarget
  frame : ∀ x, r.get? k ≠ some x → (∀ m ∈ c.scope.declared, r.get? m ≠ some x) →
    p'.decls.get? x = p.decls.get? x

/-- A class that is not a member of any scope stands apart from the members. -/
theorem Books.ne_of_isScopeEntry {n : Nat} (h : Books p₀ site n r p) {y : DeclId}
    (hc : p₀.decls.get? k = some (.cls c)) (hm : p₀.isScopeEntry m = true) (hx : r.get? k = some x)
    (hy : r.get? m = some y) : x ≠ y := by
  rintro rfl
  obtain ⟨content, hcontent, hnameable, -⟩ := Program.exists_of_isScopeEntry hm
  rw [← h.injective hx hy, hc] at hcontent
  cases hcontent
  cases hnameable

/-- Members were told what they override, which is what was taken for them, and nothing else was
written to. -/
structure TakesOver (p₀ : Program) (r : Relocation) (c : ClassDecl) (p p' : Program)
    (declared : List DeclId) (taken : List (List DeclId)) : Prop where
  taken : List.Forall₂ (fun x ds => ∀ m, r.get? m = some x →
    ds = (p₀.overriddenBy c m).map r.retarget) declared taken
  members : ∀ x ∈ declared, ∀ m, r.get? m = some x → ∃ content, p'.decls.get? x = some content
    ∧ content.overridden = (p₀.overriddenBy c m).map r.retarget
  frame : ∀ x ∉ declared, p'.decls.get? x = p.decls.get? x

namespace TakesOver

variable {p' : Program} {declared : List DeclId} {taken : List (List DeclId)}

theorem push (h : TakesOver p₀ r c p p' declared taken)
    (hunique : ∀ m', r.get? m' = some x → m' = m) (hold : p'.decls.get? x = some old)
    (hnew : content.overridden = (p₀.overriddenBy c m).map r.retarget) :
    TakesOver p₀ r c p (p'.setDecl x content) (declared ++ [x])
      (taken ++ [(p₀.overriddenBy c m).map r.retarget]) := by
  have hget := Program.get?_setDecl hold content
  refine ⟨List.rel_append h.taken (.cons (fun m' hm' => by rw [hunique m' hm']) .nil),
    fun y hy m' hm' => ?_, fun y hy => ?_⟩
  · rw [hget]
    by_cases hyx : y = x
    · subst hyx
      obtain rfl := hunique m' hm'
      exact ⟨content, if_pos rfl, hnew⟩
    · rw [if_neg hyx]
      rcases List.mem_append.1 hy with hy | hy
      · exact h.members y hy m' hm'
      · exact absurd (List.mem_singleton.1 hy) hyx
  · rw [List.mem_append, List.mem_singleton, not_or] at hy
    rw [hget, if_neg hy.2, h.frame y hy.1]

/-- What was taken for the replacements of members is what those members override. -/
theorem mem_flatten {ms : List DeclId} (h : TakesOver p₀ r c p p' (ms.map r.retarget) taken)
    (hmoved : ∀ m ∈ ms, ∃ x, r.get? m = some x) :
    x ∈ taken.flatten ↔ ∃ m ∈ ms, x ∈ (p₀.overriddenBy c m).map r.retarget := by
  have hmem : ∀ m ∈ ms, r.get? m = some (r.retarget m) := by
    intro m hm
    obtain ⟨y, hy⟩ := hmoved m hm
    rwa [Relocation.retarget_of_some hy]
  rw [List.mem_flatten]
  constructor
  · rintro ⟨ds, hds, hx⟩
    obtain ⟨y, hy, hall⟩ := forall₂_left h.taken hds
    obtain ⟨m, hm, rfl⟩ := List.mem_map.1 hy
    exact ⟨m, hm, hall m (hmem m hm) ▸ hx⟩
  · rintro ⟨m, hm, hx⟩
    obtain ⟨ds, hds, hall⟩ := forall₂_right h.taken (List.mem_map_of_mem hm)
    exact ⟨ds, hds, by rwa [hall m (hmem m hm)]⟩

end TakesOver

namespace Lift

variable {p₀ : Program} {site : Site} {r : Relocation} {w : Work}

section

variable (hsorted : p₀.Sorted site.root site.locals) (hscopes : p₀.ScopesListMembers) {k : DeclId}
  {c : ClassDecl} (hc : p₀.decls.get? k = some (.cls c))

include hsorted hscopes hc

/-- **The declared members are told what they override**, one after the other. -/
theorem takeOver_yields (h : Ledger p₀ site none r w.program) {declared : List DeclId}
    {inherited : OrderedSet DeclId}
    (hdeclared : ∀ x ∈ declared, ∃ m ∈ c.scope.declared, r.get? m = some x)
    (hinherited : inherited.toList = (p₀.heritage c).map r.retarget) :
    Yields (declared.mapM fun member => (show Step (List DeclId) from do
        let ds ← overridden (← Step.program) inherited member
        Step.modifyDecl member (withOverrides ds)
        return ds : Lift (List DeclId))) r w
      (fun taken r' w' => r' = r ∧ Ledger p₀ site none r w'.program
        ∧ TakesOver p₀ r c w.program w'.program declared taken) fun _ _ => True := by
  refine Yields.mapM (fun (done : List DeclId) taken r' w' => r' = r
    ∧ Ledger p₀ site none r w'.program ∧ TakesOver p₀ r c w.program w'.program done taken) ?_
    ⟨rfl, h, .nil, by simp, fun _ _ => rfl⟩
  rintro done x rest taken r' w' hsplit ⟨rfl, h', hdone⟩
  -- a replacement stands for one member only, so nothing told before is overwritten
  obtain ⟨m, hm, hx⟩ := hdeclared x (by simp [hsplit])
  have hentry := hscopes.entry hc (List.mem_append_left _ hm)
  refine .lift
    (.bind (.program (.bind (.ask (fun ds hds => .bind (.modifyDecl (fun content hcontent => ?_)
    fun _ _ => trivial)) fun _ _ => trivial))))
  rw [← Relocation.retarget_of_some hx, h'.overridden_eq hsorted hscopes hentry hinherited] at hds
  obtain rfl := Except.ok.inj hds
  have hexposed : site.Sound p₀ →
      ∀ y ∈ (withOverrides ((p₀.overriddenBy c m).map r'.retarget) content).exposed,
      y.index < w'.program.decls.size := by
    intro hsound y hy
    rcases mem_exposed_withOverrides hy with hy | hy
    · exact h'.exposed hsound (h'.images hx).1 hcontent y hy
    · obtain ⟨d, hd, rfl⟩ := List.mem_map.1 hy
      exact h'.retarget_lt hsorted (hscopes.inherited (List.mem_of_mem_filter hd))
  obtain ⟨old, hold, hnameable, -⟩ := Program.exists_of_isScopeEntry hentry
  obtain ⟨content', hcontent', hrenews⟩ := h'.renews hx hold
  obtain rfl : content = content' := Option.mem_unique hcontent hcontent'
  exact .pure ⟨rfl, (h'.rescope hx hcontent (erase_withOverrides _ content) hexposed).1,
    hdone.push (fun m' hm' => h'.injective hm' hx) hcontent
      (hrenews.overridden_withOverrides hnameable _)⟩

/-- **A class gets its member scope.** -/
theorem setMemberScope_rescopes (h : Ledger p₀ site none r w.program) :
    Yields (setMemberScope k) r w (fun _ r' w' => r' = r ∧ Ledger p₀ site none r w'.program
      ∧ Rescopes p₀ r k c w.program w'.program) fun _ _ => True := by
  unfold setMemberScope
  refine .bind (.lift (.decl (fun content hcontent => ?_) fun _ _ => trivial))
  obtain rfl : content = .cls c := Option.some.inj (hcontent.symm.trans (h.grown.decls _ _ hc))
  refine .read (.bind (.ask (fun new hnew => ?_) fun _ _ => trivial))
  have hnew := Relocation.get?_of_lifted hnew
  -- the loop goes on only while declared members have replacements
  refine .bind (Yields.mono (Yields.mapM (fun (done : List DeclId) declared r' w' => r' = r ∧ w' = w
    ∧ (∀ m ∈ done, ∃ x, r.get? m = some x)
    ∧ declared = done.map r.retarget) ?_ ⟨rfl, rfl, by simp, rfl⟩) ?_)
  · rintro done m rest declared r' w' - ⟨rfl, rfl, hdone, rfl⟩
    cases hm : r'.get? m with
    | none => exact .lift (.throw trivial)
    | some x =>
      refine .lift (.pure ⟨rfl, rfl, ?_, ?_⟩)
      · exact List.forall_mem_append.2 ⟨hdone, by simpa using ⟨x, hm⟩⟩
      · rw [List.map_append, List.map_singleton, Relocation.retarget_of_some hm]
  rintro declared r w ⟨rfl, rfl, hmoved, rfl⟩
  refine .bind (.lift (.program (.bind (.ask (fun inherited hinherited => ?_) fun _ _ => trivial))))
  obtain ⟨inherited', heq, hlist⟩ := h.inherited_eq hsorted hscopes hc
  obtain rfl : inherited' = inherited := Except.ok.inj (heq.symm.trans hinherited)
  have hdeclared : ∀ x ∈ c.scope.declared.map r.retarget, ∃ m ∈ c.scope.declared,
      r.get? m = some x := by
    intro x hx
    obtain ⟨m, hm, rfl⟩ := List.mem_map.1 hx
    obtain ⟨y, hy⟩ := hmoved m hm
    exact ⟨m, hm, by rw [Relocation.retarget_of_some hy]; exact hy⟩
  refine .bind ((takeOver_yields hsorted hscopes hc h hdeclared hlist).mono ?_)
  rintro taken r w' ⟨rfl, h', htaken⟩
  refine .bind (.ask
    (fun context hcontext => .lift (.modifyDecl (fun content hcontent => ?_) fun _ _ => trivial))
    fun _ _ => trivial)
  -- the class itself is written last, and it is none of its members
  obtain ⟨content', hcontent', hrenews⟩ := h'.renews hnew hc
  obtain rfl : content = content' := Option.mem_unique hcontent hcontent'
  generalize herase : content.erase = erased at hrenews
  cases hrenews with
  | cls =>
    obtain ⟨scope, rfl⟩ := Declaration.eq_cls_of_erase herase
    have hapart : ∀ m ∈ c.scope.declared, ∀ x, r.get? m = some x → x ≠ new := fun m hm x hx =>
      (h'.ne_of_isScopeEntry hc (hscopes.entry hc (List.mem_append_left _ hm)) hnew hx).symm
    have hget := Program.get?_setDecl hcontent
    have hkept := h'.kept_eq hscopes hlist fun _ => htaken.mem_flatten hmoved
    refine ⟨rfl, (h'.rescope hnew hcontent (erase_mapClass _ _) fun _ y hy => ?_).1,
      ⟨new, _, hnew, (hget _ new).trans (if_pos rfl), ?_⟩, fun m hm => ?_, fun x hx hxs => ?_⟩
    · have hy : y ∈ (c.scope.declared.map r.retarget ++ capturedFieldsOf context) ++ _ := hy
      rcases List.mem_append.1 hy with hy | hy
      · rcases List.mem_append.1 hy with hy | hy
        · obtain ⟨m, -, hm⟩ := hdeclared y hy
          exact (h'.images hm).2
        · cases context with
          | fields this captured => exact (h'.fields (Relocation.get?_of_context hcontext) y hy).1
          | params captured => cases hy
      · have hy := List.mem_of_mem_filter hy
        rw [hlist] at hy
        obtain ⟨d, hd, rfl⟩ := List.mem_map.1 hy
        exact h'.retarget_lt hsorted (hscopes.inherited hd)
    · show MemberScope.mk _ _ = _
      rw [hkept, Relocation.scope, Relocation.get?_of_context hcontext]
      rfl
    · obtain ⟨x, hx⟩ := hmoved m hm
      have hmem : x ∈ c.scope.declared.map r.retarget :=
        List.mem_map.2 ⟨m, hm, Relocation.retarget_of_some hx⟩
      obtain ⟨content, hx', hoverridden⟩ := htaken.members x hmem m hx
      exact ⟨x, content, hx, by rw [hget, if_neg (hapart m hm x hx)]; exact hx', hoverridden⟩
    · have hne : x ≠ new := fun heq => hx (heq ▸ hnew)
      rw [hget, if_neg hne, htaken.frame x fun hmem => ?_]
      obtain ⟨m, hm, hmx⟩ := hdeclared x hmem
      exact hxs m hm hmx

end

end Lift

/-- **What holds after some classes got their scopes**: their scopes are rebuilt, and a member
overrides what the last class that declares it makes it override. -/
structure Scoped (p₀ : Program) (site : Site) (r : Relocation) (done : List DeclId)
    (p : Program) : Prop where
  ledger : Ledger p₀ site none r p
  classes : ∀ k ∈ done, ∀ c, p₀.decls.get? k = some (.cls c) → ∃ new c', r.get? k = some new
    ∧ p.decls.get? new = some (.cls c') ∧ c'.scope = r.scope p₀ k c
  members : ∀ earlier k later c, done = earlier ++ k :: later → p₀.decls.get? k = some (.cls c) →
    ∀ m ∈ c.scope.declared,
      (∀ k' ∈ later, ∀ c', p₀.decls.get? k' = some (.cls c') → m ∉ c'.scope.declared) →
    ∃ x content, r.get? m = some x ∧ p.decls.get? x = some content
      ∧ content.overridden = (p₀.overriddenBy c m).map r.retarget

/-- **One more class gets its scope.** -/
theorem Scoped.step {p' : Program} {done : List DeclId} (h : Scoped p₀ site r done p)
    (hscopes : p₀.ScopesListMembers) (hc : p₀.decls.get? k = some (.cls c)) (hk : k ∉ done)
    (hledger : Ledger p₀ site none r p') (hstep : Rescopes p₀ r k c p p') :
    Scoped p₀ site r (done ++ [k]) p' := by
  have hentry : ∀ {k c m}, p₀.decls.get? k = some (.cls c) → m ∈ c.scope.declared →
      p₀.isScopeEntry m = true :=
    fun hc hm => hscopes.entry hc (List.mem_append_left _ hm)
  refine ⟨hledger, fun k' hk' c' hc' => ?_, fun earlier k' later c' hsplit hc' m hm hlater => ?_⟩
  · rcases List.mem_append.1 hk' with hk' | hk'
    · obtain ⟨new, c'', hnew, hcls, hscope⟩ := h.classes k' hk' c' hc'
      refine ⟨new, c'', hnew, ?_, hscope⟩
      rw [hstep.frame new (fun heq => hk (hledger.injective heq hnew ▸ hk')) fun m hm heq =>
        hledger.ne_of_isScopeEntry hc' (hentry hc hm) hnew heq rfl]
      exact hcls
    · obtain rfl := List.mem_singleton.1 hk'
      obtain rfl : c = c' := Declaration.cls.inj (Option.mem_unique hc hc')
      exact hstep.cls
  · rcases List.eq_nil_or_concat later with rfl | ⟨later, last, rfl⟩
    · -- the class that was just treated is the last one
      obtain ⟨rfl, heq⟩ := List.append_inj' hsplit rfl
      cases heq
      obtain rfl : c = c' := Declaration.cls.inj (Option.mem_unique hc hc')
      exact hstep.members m hm
    · rw [List.concat_eq_append, ← List.cons_append, ← List.append_assoc] at hsplit
      obtain ⟨hdone, heq⟩ := List.append_inj' hsplit rfl
      cases heq
      obtain ⟨x, content, hx, hcontent, hoverridden⟩ := h.members earlier k' later c' hdone hc' m hm
        fun k'' hk'' => hlater k'' (by simp [hk''])
      refine ⟨x, content, hx, ?_, hoverridden⟩
      rw [hstep.frame x (fun heq => hledger.ne_of_isScopeEntry hc (hentry hc' hm) heq hx rfl)
        fun m' hm' heq => ?_]
      · exact hcontent
      · obtain rfl := hledger.injective heq hx
        exact hlater k (by simp) c hc hm'

/-- **All classes get their scopes.** -/
theorem Lift.forM_setMemberScope_scoped (hsorted : p₀.Sorted site.root site.locals)
    (hscopes : p₀.ScopesListMembers) (h : Ledger p₀ site none r w.program) :
    Yields (site.locals.classes.keys.forM setMemberScope) r w (fun _ r' w' => r' = r
      ∧ Scoped p₀ site r site.locals.classes.keys w'.program) fun _ _ => True := by
  refine Yields.forM (fun done r' w' => r' = r ∧ Scoped p₀ site r done w'.program) ?_
    ⟨rfl, h, by simp, fun earlier k later c hsplit => by simp at hsplit⟩
  rintro done k rest r w hsplit ⟨rfl, hscoped⟩
  have hk : k ∈ site.locals.classes.keys := by simp [hsplit]
  obtain ⟨-, -, c, hc⟩ := (hsorted.classes k).1 hk
  have hfresh : k ∉ done := by
    have hnodup := site.locals.classes.keys_nodup
    rw [hsplit] at hnodup
    exact fun hmem => (List.nodup_append.1 hnodup).2.2 k hmem k List.mem_cons_self rfl
  refine (setMemberScope_rescopes hsorted hscopes hc hscoped.ledger).mono ?_
  rintro _ r w' ⟨rfl, hledger, hstep⟩
  exact ⟨rfl, hscoped.step hscopes hc hfresh hledger hstep⟩

/-- The scopes after all signatures were built. -/
theorem Lift.relocation_scoped (hsorted : w.program.Sorted site.root site.locals)
    (hcollects : w.program.Collects site.root) (hscopes : w.program.ScopesListMembers) :
    (relocation site).Yields w (fun r w' => r.Covers w.program site.locals.tables
      ∧ Scoped w.program site r site.locals.classes.keys w'.program) fun _ _ => True := by
  have hall : Yields (relocateAll site) {} w (fun _ r w' => r.Covers w.program site.locals.tables
      ∧ Scoped w.program site r site.locals.classes.keys w'.program) fun _ _ => True := by
    refine relocateAll_yields hsorted hcollects (fun _ _ _ => trivial) fun r w' h hcovers => ?_
    refine (forM_setMemberScope_scoped hsorted hscopes h).mono ?_
    rintro _ r w'' ⟨rfl, hscoped⟩
    exact ⟨hcovers, hscoped⟩
  exact Step.Yields.bind (Step.Yields.mono hall fun y w' h => .pure h)

/-! ## §5. The member scopes of a root. -/

/-- **A lifted class has the scope of the old one**, with the replacements of what that lists: the
declared members, then the fields of captured values in closure order, and what no declared member
overrides.  Everything that comes through the supertypes is either overridden or listed once, and
nothing is listed that has a replacement. -/
structure ScopeOf (p₀ : Program) (site : Site) (r : Relocation) (k : DeclId) (c c' : ClassDecl)
    (captured : OrderedMap ValueId DeclId) : Prop where
  context : r.contexts.get? k = some (.fields c'.this captured)
  closure : ∃ closure, site.closures.get? k = some closure ∧ captured.keys = closure.toList
  declared : c'.scope.declared = c.scope.declared.map r.retarget ++ captured.values
  inherited : c'.scope.inherited = (p₀.keptBy c).map r.retarget
  nodup : c'.scope.inherited.Nodup
  accounted : ∀ d ∈ p₀.heritage c, r.retarget d ∈ c'.scope.inherited
    ↔ ∀ m ∈ c.scope.declared, r.retarget d ∉ (p₀.overriddenBy c m).map r.retarget
  current : ∀ x ∈ c'.scope.declared ++ c'.scope.inherited, r.get? x = none

/-- The declaration is a function of a class that calls itself an accessor, but no property below
the root has it.  Accessors go with their property, so nothing brings this one along. -/
def Program.StrayAccessor (p : Program) (root d : DeclId) : Prop :=
  p.isMember d = .ok true ∧ (∃ f, p.decls.get? d = some (.function f) ∧ f.accessorOf.isSome = true)
    ∧ ∀ k q, p.Below root (.decl k) → p.decls.get? k = some (.property q) →
      d ∉ q.backingField.toList ++ (q.getter.toList ++ q.setter.toList)

/-- **Member scopes are rebuilt**: those of all classes, and what their members override.  What a
member overrides is said by the last class that declares it.  What a local class lists is below the
root, and of the functions and properties there all but stray accessors have replacements. -/
structure RescopesAll (p₀ : Program) (site : Site) (r : Relocation) (p : Program) : Prop where
  classes : ∀ k ∈ site.locals.classes.keys, ∃ c new c' captured, p₀.decls.get? k = some (.cls c)
    ∧ r.get? k = some new ∧ p.decls.get? new = some (.cls c') ∧ ScopeOf p₀ site r k c c' captured
  overridden : ∀ earlier k later c, site.locals.classes.keys = earlier ++ k :: later →
    p₀.decls.get? k = some (.cls c) → ∀ m ∈ c.scope.declared,
    (∀ k' ∈ later, ∀ c', p₀.decls.get? k' = some (.cls c') → m ∉ c'.scope.declared) →
    ∃ x content, r.get? m = some x ∧ p.decls.get? x = some content
      ∧ content.overridden = (p₀.overriddenBy c m).map r.retarget
      ∧ ∀ y ∈ content.overridden, r.get? y = none
  listed : ∀ k ∈ site.locals.classes.keys, ∀ c, p₀.decls.get? k = some (.cls c) →
    ∀ m ∈ c.members, p₀.Below site.root (.decl m)
  moved : ∀ m content, p₀.decls.get? m = some content → content.isNameable = true →
    p₀.Below site.root (.decl m) → (r.get? m = none ↔ p₀.StrayAccessor site.root m)

/-- Everything below a root is in its tables. -/
theorem Program.Collects.mem_tables {root : DeclId} {l : Locals} (h : p.Collects root)
    (hsorted : p.Sorted root l) : d ∈ l.tables ↔ p.Below root (.decl d) := by
  unfold Locals.tables
  rw [List.mem_append, List.mem_append, List.mem_append, OrderedSet.mem_toList,
    OrderedSet.mem_toList, hsorted.constructors, hsorted.members]
  constructor
  · rintro (((hd | hd) | hd) | hd)
    · exact ((hsorted.functions d).1 hd).1
    · exact ((hsorted.classes d).1 hd).1
    · exact hd.1
    · exact hd.1
  · intro hbelow
    obtain ⟨content, hcontent⟩ := h.exists_decl hbelow
    rcases h.isMember hsorted hbelow with hd | hd | hmember
    · exact .inl (.inl (.inl hd))
    · exact .inl (.inl (.inr hd))
    · by_cases hconstructor : ∃ c, content = .constructor c
      · obtain ⟨c, rfl⟩ := hconstructor
        exact .inl (.inr ⟨hbelow, c, hcontent⟩)
      · exact .inr ⟨hbelow, hmember, content, hcontent, fun c hc => hconstructor ⟨c, hc⟩⟩

/-- What gets no replacement among the functions and properties below a root. -/
theorem Relocation.Covers.get?_eq_none_iff {root : DeclId} {l : Locals}
    (hcovers : r.Covers p l.tables) (hsorted : p.Sorted root l) (hcollects : p.Collects root)
    (hm : p.decls.get? m = some content) (hnameable : content.isNameable = true)
    (hbelow : p.Below root (.decl m)) : r.get? m = none ↔ p.StrayAccessor root m := by
  have hnone : r.get? m = none ↔ ∀ t ∈ l.tables, m ∉ p.brought t := by
    rw [← Option.not_isSome_iff_eq_none, hcovers m]
    simp only [not_exists, not_and]
  rw [hnone]
  constructor
  · intro hnot
    -- what brings itself is replaced, so this is a member that its property should bring
    have hself : p.brought m ≠ [m] := fun heq =>
      hnot m ((hcollects.mem_tables hsorted).2 hbelow) (heq ▸ List.mem_singleton_self m)
    have hbrought : ∀ k q, p.Below root (.decl k) → p.decls.get? k = some (.property q) →
        m ∉ q.backingField.toList ++ k :: (q.getter.toList ++ q.setter.toList) := by
      intro k q hk hq
      have hnotBrought := hnot k ((hcollects.mem_tables hsorted).2 hk)
      rwa [Program.brought, hq] at hnotBrought
    cases content with
    | function f =>
      have hkept : p.isMember m = .ok false ∨ f.accessorOf = none → p.brought m = [m] := fun h =>
        Program.brought_eq_self hm (by rintro q ⟨⟩) (by rintro _ ⟨⟩; exact h)
      have hmember : p.isMember m = .ok true := by
        rcases hcollects.isMember hsorted hbelow with hd | hd | hmember
        · exact absurd (hkept (.inl ((hsorted.functions m).1 hd).2.1)) hself
        · obtain ⟨-, -, c, hc⟩ := (hsorted.classes m).1 hd
          cases hm.symm.trans hc
        · exact hmember
      refine ⟨hmember, ⟨f, hm, Option.isSome_iff_ne_none.2 fun hof => ?_⟩, fun k q hk hq hmem => ?_⟩
      · exact hself (hkept (.inr hof))
      · refine hbrought k q hk hq ?_
        simp only [List.mem_append, List.mem_cons] at hmem ⊢
        tauto
    | property q => exact absurd (by simp) (hbrought m q hbelow hm)
    | _ => cases hnameable
  · rintro ⟨hmember, ⟨f, hf, haccessor⟩, hstray⟩ t ht hmem
    unfold Program.brought at hmem
    split at hmem
    next g hg =>
      -- a function brings itself or nothing, and an accessor of a class nothing
      have hself : m = t := by
        split at hmem
        · split at hmem
          · cases hmem
          · exact List.mem_singleton.1 hmem
        · exact List.mem_singleton.1 hmem
      subst hself
      cases hf.symm.trans hg
      simp only [hmember, haccessor, if_true] at hmem
      cases hmem
    next q hq =>
      refine hstray t q ((hcollects.mem_tables hsorted).1 ht) hq ?_
      have hne : m ≠ t := by
        rintro rfl
        cases hf.symm.trans hq
      simpa [hne] using hmem
    next hfunction hproperty =>
      obtain rfl := List.mem_singleton.1 hmem
      exact hfunction f hf

/-- The scope of a lifted class, put into the words of the old one. -/
theorem Ledger.scopeOf {new : DeclId} {c' : ClassDecl} (h : Ledger p₀ site none r p)
    (hraised : Raised p₀ site r p) (hscopes : p₀.ScopesListMembers)
    (hc : p₀.decls.get? k = some (.cls c)) (hnew : r.get? k = some new)
    (hc' : p.decls.get? new = some (.cls c')) (hscope : c'.scope = r.scope p₀ k c) :
    ∃ captured, ScopeOf p₀ site r k c c' captured := by
  obtain ⟨closure, c'', captured, hclosure, hc'', hcontext, -, -, hstoring⟩ := h.cls hraised hnew hc
  obtain rfl : c' = c'' := Declaration.cls.inj (Option.mem_unique hc' hc'')
  have hdeclared : c'.scope.declared = c.scope.declared.map r.retarget ++ captured.values := by
    rw [hscope, Relocation.scope, hcontext]
    rfl
  have hinherited : c'.scope.inherited = (p₀.keptBy c).map r.retarget := by
    rw [hscope, Relocation.scope]
  have hkept : ∀ d ∈ p₀.keptBy c, p₀.isScopeEntry d = true := fun d hd =>
    hscopes.inherited (List.mem_of_mem_filter hd)
  refine ⟨captured, hcontext, ⟨closure, hclosure, hstoring.keys⟩, hdeclared, hinherited, ?_,
    fun d hd => ?_, fun x hx => ?_⟩
  · rw [hinherited]
    refine List.Nodup.map_on (fun d hd e he heq => ?_) (List.Nodup.filter _ (OrderedSet.nodup _))
    obtain ⟨_, hd', -⟩ := Program.exists_of_isScopeEntry (hkept d hd)
    obtain ⟨_, he', -⟩ := Program.exists_of_isScopeEntry (hkept e he)
    exact h.retarget_inj hd' he' heq
  · rw [hinherited, h.mem_map_retarget hkept (hscopes.inherited hd), Program.keptBy,
      List.mem_filter, and_iff_right hd]
    simp only [h.mem_overriddenBy hscopes hd, Bool.not_eq_true', List.any_eq_false]
  · rw [hdeclared, hinherited, List.append_assoc, List.mem_append, List.mem_append] at hx
    rcases hx with hx | hx | hx
    · obtain ⟨d, -, rfl⟩ := List.mem_map.1 hx
      exact h.get?_retarget d
    · -- fields of captured values are new, and only what was there is replaced
      cases hy : r.get? x with
      | none => rfl
      | some y =>
        obtain ⟨old, hold, -⟩ := h.reaches hy
        exact absurd (Arena.lt_size_of_get? hold) (Nat.not_lt_of_le (hstoring.fresh x hx).1)
    · obtain ⟨d, -, rfl⟩ := List.mem_map.1 hx
      exact h.get?_retarget d

/-- **Rebuilding member scopes commutes with lifting.** -/
theorem relocation_rescopes {p q : Program} {settings : Settings} {root : DeclId} {l : Locals}
    {closures : Closures} {r : Relocation} {events events' : List Event}
    (hscopes : p.ScopesListMembers) (hlocals : p.locals root = .ok l)
    (hrelocation : Lift.relocation ⟨settings, root, l, closures⟩ ⟨p, events⟩ = .ok r ⟨q, events'⟩) :
    RescopesAll p ⟨settings, root, l, closures⟩ r q := by
  obtain ⟨hsorted, hcollects⟩ := Program.locals_spec hlocals
  have hraised := raised_of_relocation hlocals hrelocation
  obtain ⟨hcovers, hscoped⟩ : r.Covers p l.tables
      ∧ Scoped p ⟨settings, root, l, closures⟩ r l.classes.keys q := by
    have hyields :=
      @Lift.relocation_scoped ⟨settings, root, l, closures⟩ ⟨p, events⟩ hsorted hcollects hscopes
    unfold Step.Yields at hyields
    rwa [hrelocation] at hyields
  have h := hscoped.ledger
  refine ⟨fun k hk => ?_, fun earlier k later c hsplit hc m hm hlater => ?_,
    fun k hk c hc m hm => ?_, fun m content hm hnameable hbelow => ?_⟩
  · obtain ⟨-, -, c, hc⟩ := (hsorted.classes k).1 hk
    obtain ⟨new, c', hnew, hc', hscope⟩ := hscoped.classes k hk c hc
    obtain ⟨captured, hscopeOf⟩ := h.scopeOf hraised hscopes hc hnew hc' hscope
    exact ⟨c, new, c', captured, hc, hnew, hc', hscopeOf⟩
  · obtain ⟨x, content, hx, hcontent, hoverridden⟩ :=
      hscoped.members earlier k later c hsplit hc m hm hlater
    refine ⟨x, content, hx, hcontent, hoverridden, fun y hy => ?_⟩
    rw [hoverridden] at hy
    obtain ⟨d, -, rfl⟩ := List.mem_map.1 hy
    exact h.get?_retarget d
  · exact ((hsorted.classes k).1 hk).1.part hc (List.mem_map_of_mem hm)
  · exact hcovers.get?_eq_none_iff hsorted hcollects hm hnameable hbelow

/-- A local class overrides one of two methods that it gets from another one.

    fun make(n: Int) {
      class A { fun f(): Int { return n }; fun g() { } }; class B : A { fun f(): Int { return n } }
    }
-/
def Sample.localSubclass : Build Sample := do
  let make ← Build.function none (.ident "make") .unit
  let n ← Build.param make (.ident "n") .int
  let a ← Build.cls (some make) (.ident "A") .plain false
  let _ ← Build.constructor a true
  let f ← Build.function (some a) (.ident "f") .int
  returning f (← Build.read n)
  let g ← Build.function (some a) (.ident "g") .unit
  Build.setBody g (← Build.block [])
  let b ← Build.cls (some make) (.ident "B") .plain false
  Build.supertype b (.cls a)
  let _ ← Build.constructor b true
  let f' ← Build.function (some b) (.ident "f") .int
  returning f' (← Build.read n)
  Build.setBody make (← Build.block [← Build.addExpr (.decl a), ← Build.addExpr (.decl b)])
  return ⟨make, [a, f, g, b, f']⟩

theorem relocation_rescopes_localSubclass :
    ∃ s : Stages, (Sample.program Sample.localSubclass).ScopesListMembers
      ∧ s.Ran (Sample.program Sample.localSubclass) ⟨0⟩ ∧ s.locals.classes.keys = [⟨1⟩, ⟨5⟩]
      ∧ ((Sample.program Sample.localSubclass).decls.get? ⟨5⟩).bind (·.cls?.map
          fun c => ((Sample.program Sample.localSubclass).overriddenBy c ⟨7⟩,
            (Sample.program Sample.localSubclass).keptBy c))
        = some ([⟨3⟩], [⟨4⟩])
      ∧ RescopesAll (Sample.program Sample.localSubclass)
        ⟨{}, ⟨0⟩, s.locals, s.closures⟩ s.relocation s.before.program := by
  have hscopes : (Sample.program Sample.localSubclass).ScopesListMembers := by decide +kernel
  have hrun : ((Sample.program Sample.localSubclass).stages? ⟨0⟩).any (fun s =>
      decide (s.locals.classes.keys = [⟨1⟩, ⟨5⟩])) = true := by decide +kernel
  obtain ⟨s, hs, hclasses⟩ := (Option.any_eq_true _ _).1 hrun
  have hran := Program.ran_of_stages? hs
  exact ⟨s, hscopes, hran, of_decide_eq_true hclasses, by decide +kernel,
    relocation_rescopes hscopes hran.locals hran.relocation⟩

/-- Every declared member overrides what its class makes it override. -/
def OverridesAsDeclared (p₀ : Program) (l : Locals) (r : Relocation) (p : Program) : Prop :=
  ∀ k ∈ l.classes.keys, ∀ c, p₀.decls.get? k = some (.cls c) → ∀ m ∈ c.scope.declared,
    ∃ x content, r.get? m = some x ∧ p.decls.get? x = some content
      ∧ content.overridden = (p₀.overriddenBy c m).map r.retarget

/-- No lifted class lists what stood in a local class. -/
def ListsNothingOld (p₀ : Program) (l : Locals) (r : Relocation) (p : Program) : Prop :=
  ∀ k ∈ l.classes.keys, ∀ new c, r.get? k = some new → p.decls.get? new = some (.cls c) →
    ∀ x ∈ c.scope.declared ++ c.scope.inherited, ∀ content outer, p₀.decls.get? x = some content →
      content.parent = some outer → outer ∉ l.classes.keys

/-- A local class lists the method of its supertype as declared by itself.

    fun make() { class A { fun m() { } }; class B : A { … } }
-/
def Sample.sharedMember : Build Sample := do
  let make ← Build.function none (.ident "make") .unit
  let a ← Build.cls (some make) (.ident "A") .plain false
  let _ ← Build.constructor a true
  let m ← Build.function (some a) (.ident "m") .unit
  Build.setBody m (← Build.block [])
  let b ← Build.cls (some make) (.ident "B") .plain false
  let _ ← Build.constructor b true
  Build.supertype b (.cls a)
  Build.modifyDecl b (Declaration.mapClass fun c => { c with scope := { declared := [m] } })
  Build.setBody make (← Build.block [← Build.addExpr (.decl a), ← Build.addExpr (.decl b)])
  return ⟨make, [a, m, b]⟩

/-- **A member that two classes declare overrides what the last one says**: here itself, where the
first class has no supertype. -/
theorem sharedMember_overrides_itself : ∃ s : Stages,
    (Sample.program Sample.sharedMember).ScopesListMembers
    ∧ s.Ran (Sample.program Sample.sharedMember) ⟨0⟩
    ∧ ¬ OverridesAsDeclared (Sample.program Sample.sharedMember) s.locals s.relocation
        s.before.program := by
  have hscopes : (Sample.program Sample.sharedMember).ScopesListMembers := by decide +kernel
  have hrun : ((Sample.program Sample.sharedMember).stages? ⟨0⟩).any (fun s =>
      decide (⟨1⟩ ∈ s.locals.classes.keys ∧ s.relocation.get? ⟨3⟩ = some ⟨10⟩
        ∧ (s.before.program.decls.get? ⟨10⟩).map (·.overridden) = some [⟨10⟩]))
        = true := by decide +kernel
  obtain ⟨s, hs, hfacts⟩ := (Option.any_eq_true _ _).1 hrun
  obtain ⟨hclass, hmoved, hoverridden⟩ := of_decide_eq_true hfacts
  refine ⟨s, hscopes, Program.ran_of_stages? hs, fun hall => ?_⟩
  have hfirst : ((Sample.program Sample.sharedMember).decls.get? ⟨1⟩).any
      (fun content => content.cls?.any fun c =>
      decide (⟨3⟩ ∈ c.scope.declared
        ∧ (Sample.program Sample.sharedMember).overriddenBy c ⟨3⟩ = [])) = true := by
    decide +kernel
  obtain ⟨content, hcontent, hcls⟩ := (Option.any_eq_true _ _).1 hfirst
  obtain ⟨c, hc, hdeclared⟩ := (Option.any_eq_true _ _).1 hcls
  obtain ⟨hdeclared, hnone⟩ := of_decide_eq_true hdeclared
  cases content with
  | cls c' =>
    obtain rfl := Option.some.inj hc
    obtain ⟨x, content', hx, hcontent', heq⟩ := hall ⟨1⟩ hclass c' hcontent ⟨3⟩ hdeclared
    obtain rfl : ⟨10⟩ = x := Option.mem_unique hmoved hx
    rw [hcontent', Option.map_some, heq, hnone] at hoverridden
    cases hoverridden
  | _ => cases hc

/-- A local class that inherits a function which calls itself the accessor of a property without
accessors.

    fun make() { class A { val v: Int; fun m() }; class B : A { } }
-/
def Sample.strayAccessor : Build Sample := do
  let make ← Build.function none (.ident "make") .unit
  let a ← Build.cls (some make) (.ident "A") .plain false
  let v ← Build.addDecl (.property
    { name := .ident "v", parent := some a, visibility := .everywhere, isVar := false, ty := .int })
  let m ← Build.addDecl (.function
    { name := .ident "m", parent := some a, visibility := .everywhere, ret := .unit
      accessorOf := some v })
  Build.modifyDecl a (Declaration.mapClass fun c =>
    { c with members := [v, m], scope := { declared := [v], inherited := [m] } })
  let b ← Build.cls (some make) (.ident "B") .plain false
  Build.supertype b (.cls a)
  Build.setBody make (← Build.block [← Build.addExpr (.decl a), ← Build.addExpr (.decl b)])
  return ⟨make, [a, v, m, b]⟩

/-- **A stray accessor is inherited as it was**, although its class is lifted. -/
theorem strayAccessor_stays : ∃ l closures events r w,
    (Sample.program Sample.strayAccessor).ScopesListMembers
    ∧ (Sample.program Sample.strayAccessor).locals ⟨0⟩ = .ok l
    ∧ (Sample.program Sample.strayAccessor).closures ⟨0⟩ = .ok (closures, events)
    ∧ Lift.relocation ⟨{}, ⟨0⟩, l, closures⟩ ⟨Sample.program Sample.strayAccessor, []⟩ = .ok r w
    ∧ ¬ ListsNothingOld (Sample.program Sample.strayAccessor) l r w.program := by
  have hscopes : (Sample.program Sample.strayAccessor).ScopesListMembers := by decide +kernel
  have hrun : (((Sample.program Sample.strayAccessor).locals ⟨0⟩).toOption.any fun l =>
      ((Sample.program Sample.strayAccessor).closures ⟨0⟩).toOption.any fun closures =>
        (Step.answer? (Lift.relocation ⟨{}, ⟨0⟩, l, closures.1⟩)
          ⟨Sample.program Sample.strayAccessor, []⟩).any fun r =>
          l.classes.contains ⟨1⟩ && l.classes.contains ⟨4⟩ && (r.get? ⟨4⟩).any fun new =>
            (((Lift.relocation ⟨{}, ⟨0⟩, l, closures.1⟩).after
              ⟨Sample.program Sample.strayAccessor, []⟩).program.decls.get? new).any fun content =>
              content.cls?.any fun c => c.scope.inherited.contains ⟨3⟩) = true := by decide +kernel
  have hparent : ((Sample.program Sample.strayAccessor).decls.get? ⟨3⟩).any
      (fun content => decide (content.parent = some ⟨1⟩)) = true := by decide +kernel
  obtain ⟨old, hold, houter⟩ := (Option.any_eq_true _ _).1 hparent
  obtain ⟨l, hl, hrun⟩ := (Option.any_eq_true _ _).1 hrun
  obtain ⟨⟨closures, events⟩, hclosures, hrun⟩ := (Option.any_eq_true _ _).1 hrun
  obtain ⟨r, hr, hrun⟩ := (Option.any_eq_true _ _).1 hrun
  obtain ⟨w, hw⟩ := Step.answer?_eq_some.1 hr
  rw [Step.after_of_ok hw, Bool.and_eq_true, Bool.and_eq_true] at hrun
  obtain ⟨⟨hA, hB⟩, hrun⟩ := hrun
  obtain ⟨new, hnew, hrun⟩ := (Option.any_eq_true _ _).1 hrun
  obtain ⟨content, hcontent, hrun⟩ := (Option.any_eq_true _ _).1 hrun
  obtain ⟨c, hc, hlisted⟩ := (Option.any_eq_true _ _).1 hrun
  have hlocals : (Sample.program Sample.strayAccessor).locals ⟨0⟩ = .ok l := by
    cases h : (Sample.program Sample.strayAccessor).locals ⟨0⟩ <;> simp_all [Except.toOption]
  have hanalysis : (Sample.program Sample.strayAccessor).closures ⟨0⟩ = .ok (closures, events) := by
    cases h : (Sample.program Sample.strayAccessor).closures ⟨0⟩ <;> simp_all [Except.toOption]
  refine ⟨l, closures, events, r, w, hscopes, hlocals, hanalysis, hw, fun hall => ?_⟩
  cases content with
  | cls c' =>
    obtain rfl := Option.some.inj hc
    exact hall ⟨4⟩ (OrderedMap.contains_iff.1 hB) new _ hnew hcontent ⟨3⟩
      (List.mem_append_right _ (by simpa using hlisted)) old ⟨1⟩ hold (of_decide_eq_true houter)
      (OrderedMap.contains_iff.1 hA)
  | _ => cases hc

/-- **Where rebuilding does not commute with lifting**: at a member that two classes declare, and at
a stray accessor. -/
theorem rescoping_fails :
    (∃ s : Stages, (Sample.program Sample.sharedMember).ScopesListMembers
      ∧ s.Ran (Sample.program Sample.sharedMember) ⟨0⟩
      ∧ ¬ OverridesAsDeclared (Sample.program Sample.sharedMember) s.locals s.relocation
          s.before.program)
    ∧ ∃ l closures events r w, (Sample.program Sample.strayAccessor).ScopesListMembers
      ∧ (Sample.program Sample.strayAccessor).locals ⟨0⟩ = .ok l
      ∧ (Sample.program Sample.strayAccessor).closures ⟨0⟩ = .ok (closures, events)
      ∧ Lift.relocation ⟨{}, ⟨0⟩, l, closures⟩ ⟨Sample.program Sample.strayAccessor, []⟩ = .ok r w
      ∧ ¬ ListsNothingOld (Sample.program Sample.strayAccessor) l r w.program :=
  ⟨sharedMember_overrides_itself, strayAccessor_stays⟩

end LambdaLift
