/-
  LambdaLift.Proofs.CaptureWalk
  **WHAT THE WALK OVER A ROOT GATHERS.**

  The walk keeps one closure per open scope and hands it outwards when the
  scope closes, less what the next scope owns.  Looked at from the outside,
  a use reaches the scopes that `Reaches` says it does: that is the
  invariant `Walked`, which composes along the nodes of a tree.

  Main results:
    * `Captures.follows` — the walk over a tree does not fault, and
      what it adds is what the occurrences of the tree ask for;
    * `Captures.walked_root` — the same for a whole root.
-/
import Mathlib
import LambdaLift.Proofs.CaptureRules

namespace LambdaLift

variable {d : DeclId} {ds : List DeclId} {e : ExprId} {v : ValueId} {content : Declaration}
  {node : Expr} {label : Label} {ss : List Scope} {ts : List Tree} {s : Scope} {value : Value}

/-! ## §1. Computations that do not fault. -/

namespace Except

variable {ε α β : Type}

@[simp] theorem ok_bind (a : α) (f : α → Except ε β) : (Except.ok a >>= f) = f a := rfl

theorem bind_eq_ok {x : Except ε α} {f : α → Except ε β} {b : β} :
    (x >>= f) = .ok b ↔ ∃ a, x = .ok a ∧ f a = .ok b := by
  cases x with
  | error e => simp [bind, Except.bind]
  | ok a => simp [bind, Except.bind]

/-- A computation that answers for each element answers for the list. -/
theorem mapM_eq_ok {f : α → Except ε β} {P : α → β → Prop} {as : List α}
    (h : ∀ a ∈ as, ∃ b, f a = .ok b ∧ P a b) : ∃ bs, as.mapM f = .ok bs ∧ List.Forall₂ P as bs := by
  induction as with
  | nil => exact ⟨[], rfl, .nil⟩
  | cons a as ih =>
    obtain ⟨b, hb, hP⟩ := h a List.mem_cons_self
    obtain ⟨bs, hbs, hall⟩ := ih fun x hx => h x (List.mem_cons_of_mem _ hx)
    exact ⟨b :: bs, by simp only [List.mapM_cons, hb, hbs]; rfl, .cons hP hall⟩

/-- Filtering what elements were renamed to by a test that answers for each. -/
theorem filterM_map_eq_ok {t : α → β} {f : β → Except ε Bool} {g : α → Bool} {as : List α}
    (h : ∀ a ∈ as, f (t a) = .ok (g a)) : (as.map t).filterM f = .ok ((as.filter g).map t) := by
  have aux : ∀ (as : List α) (acc : List β), (∀ a ∈ as, f (t a) = .ok (g a)) →
      (as.map t).filterAuxM f acc = .ok (((as.filter g).map t).reverse ++ acc) := by
    intro as
    induction as with
    | nil => intro acc _; rfl
    | cons a as ih =>
      intro acc h
      have ha := h a List.mem_cons_self
      have has := ih (cond (g a) (t a :: acc) acc) fun x hx => h x (List.mem_cons_of_mem _ hx)
      simp only [List.map_cons, List.filterAuxM, ha, ok_bind, has]
      cases hg : g a <;> simp [hg]
  simp only [List.filterM, aux as [] h]
  simp [bind, Except.bind, pure, Except.pure]

/-- Filtering by a test that answers for each element. -/
theorem filterM_eq_ok {f : α → Except ε Bool} {g : α → Bool} {as : List α}
    (h : ∀ a ∈ as, f a = .ok (g a)) : as.filterM f = .ok (as.filter g) := by
  have hmap := filterM_map_eq_ok (t := id) h
  rwa [List.map_id, List.map_id] at hmap

end Except

namespace Program

variable {p : Program}

/-! ## §2. Scopes. -/

/-- A declaration opens one scope. -/
theorem HasScope.unique {s' : Scope} (h : p.HasScope d s) (h' : p.HasScope d s') : s = s' := by
  obtain ⟨content, hd, hs⟩ := h
  obtain ⟨content', hd', hs'⟩ := h'
  obtain rfl := Option.mem_unique hd hd'
  exact Option.some.inj (Except.ok.inj (hs.symm.trans hs'))

theorem Closed.enclosingInstance (hp : p.Closed) (hd : p.decls.get? d = some content) :
    ∃ this, Scope.enclosingInstance p content = .ok this := by
  unfold Scope.enclosingInstance
  split
  · obtain ⟨outer, houter⟩ := hp.exists_parent hd (by rfl)
    rw [decl_eq_ok.2 houter]
    simp only [Except.ok_bind]
    split
    · obtain ⟨far, hfar⟩ := hp.exists_parent houter (by rfl)
      rw [decl_eq_ok.2 hfar]
      exact ⟨_, rfl⟩
    · exact ⟨_, rfl⟩
  · exact ⟨_, rfl⟩

/-- The scope of a callable. -/
theorem Closed.ofCallable (hp : p.Closed) (hd : p.decls.get? d = some content) :
    ∃ this, Scope.ofCallable p d
      = .ok (.callable d content.dispatchReceiver content.extensionReceiver this) := by
  obtain ⟨this, hthis⟩ := hp.enclosingInstance hd
  refine ⟨this, ?_⟩
  simp only [Scope.ofCallable, decl_eq_ok.2 hd, Except.ok_bind, hthis]
  rfl

/-- In a closed program the declarations that open a scope have one. -/
theorem Closed.exists_scope (hp : p.Closed) (hd : p.decls.get? d = some content) :
    if content.opensScope then ∃ s, s.decl = d ∧ Scope.ofDeclaration? p d content = .ok (some s)
    else Scope.ofDeclaration? p d content = .ok none := by
  obtain ⟨this, hthis⟩ := hp.ofCallable hd
  cases content with
  | function f => exact ⟨_, rfl, by simp only [Scope.ofDeclaration?, hthis]; rfl⟩
  | constructor c => exact ⟨_, rfl, by simp only [Scope.ofDeclaration?, hthis]; rfl⟩
  | cls c => exact ⟨.cls d, rfl, rfl⟩
  | property q => rfl
  | field f => rfl

theorem Closed.scope_decl (hp : p.Closed) (h : p.HasScope d s) : s.decl = d := by
  obtain ⟨content, hd, hs⟩ := h
  have hscope := hp.exists_scope hd
  split at hscope
  · obtain ⟨s', hs', h⟩ := hscope
    obtain rfl := Option.some.inj (Except.ok.inj (hs.symm.trans h))
    exact hs'
  · rw [hscope] at hs
    cases hs

/-- Scopes tell which declarations have opened them. -/
theorem Closed.eq_map_decl (hp : p.Closed) (h : List.Forall₂ p.HasScope ds ss) :
    ds = ss.map Scope.decl := by
  induction h with
  | nil => rfl
  | cons hs _ ih => rw [List.map_cons, hp.scope_decl hs, ← ih]

/-- Whether a value is external to a scope has an answer. -/
theorem Closed.exists_isExternal (hp : p.Closed) (hchains : p.ChainsEnd)
    (hv : p.values.get? v = some value) (s : Scope) : ∃ b, s.isExternal p v = .ok b := by
  cases s with
  | callable d dispatch extension enclosing =>
    simp only [Scope.isExternal, owner_of_get? hv]
    exact ⟨_, rfl⟩
  | cls d =>
    obtain ⟨content, howner⟩ := hp.exists_owner hv
    simp only [Scope.isExternal, owner_of_get? hv, Except.ok_bind,
      Chain.any_of_ending (hchains.ending howner)]
    exact ⟨_, rfl⟩

theorem HasScope.external_iff (h : p.HasScope d s) :
    p.External d v ↔ s.isExternal p v = .ok true := by
  constructor
  · rintro ⟨s', hs', hext⟩
    rwa [h.unique hs']
  · exact fun hext => ⟨s, h, hext⟩

theorem owns_iff (hv : p.values.get? v = some value) : p.Owns d v ↔ value.owner = d := by
  constructor
  · rintro ⟨value', hv', howner⟩
    rwa [Option.mem_unique hv hv']
  · exact fun howner => ⟨value, hv, howner⟩

/-- Using a value adds it if it is external. -/
theorem Closed.capture (hp : p.Closed) (hchains : p.ChainsEnd) (h : p.HasScope d s)
    (hv : p.values.get? v = some value) (captured : Closure) :
    ∃ captured', s.capture p captured v = .ok captured'
      ∧ ∀ x, x ∈ captured' ↔ x ∈ captured ∨ x = v ∧ p.External d v := by
  obtain ⟨b, hb⟩ := hp.exists_isExternal hchains hv s
  simp only [Scope.capture, hb, Except.ok_bind, h.external_iff]
  cases b with
  | true => exact ⟨_, rfl, by simp⟩
  | false => exact ⟨_, rfl, by simp⟩

/-- Closing a nested scope adds what it captures and the scope around it does not own. -/
theorem Closed.absorb (hp : p.Closed) (h : p.HasScope d s) (captured nested : Closure)
    (hnested : ∀ v ∈ nested, ∃ value, p.values.get? v = some value) :
    ∃ captured', s.absorb p captured nested = .ok captured'
      ∧ ∀ x, x ∈ captured' ↔ x ∈ captured ∨ x ∈ nested ∧ ¬ p.Owns d x := by
  classical
  have htest : ∀ v ∈ nested.toList, (do return decide ((← p.owner v) ≠ s.decl) : Except Fault Bool)
      = .ok (decide (¬ p.Owns d v)) := by
    intro v hv
    obtain ⟨value, hvalue⟩ := hnested v hv
    rw [owner_of_get? hvalue, Except.ok_bind, hp.scope_decl h]
    simp only [owns_iff hvalue, ne_eq]
    rfl
  refine ⟨captured.insertAll (nested.toList.filter fun v => decide (¬ p.Owns d v)), ?_, ?_⟩
  · simp only [Scope.absorb, Except.filterM_eq_ok htest]
    rfl
  · intro x
    simp

/-! ## §3. Callees that capture. -/

theorem standsInBody_iff {parent : DeclId} {outer : Declaration}
    (hd : p.decls.get? d = some content) (hparent : content.parent = some parent)
    (houter : p.decls.get? parent = some outer) :
    p.StandsInBody d ↔ p.isLocal d = .ok true ∧ outer.isClass = false := by
  constructor
  · rintro ⟨hlocal, content', parent', outer', hd', hparent', houter', hclass⟩
    obtain rfl := Option.mem_unique hd hd'
    obtain rfl := Option.mem_unique hparent hparent'
    obtain rfl := Option.mem_unique houter houter'
    exact ⟨hlocal, hclass⟩
  · rintro ⟨hlocal, hclass⟩
    exact ⟨hlocal, content, parent, outer, hd, hparent, houter, hclass⟩

theorem StandsInBody.exists_parent (h : p.StandsInBody d) (hd : p.decls.get? d = some content) :
    content.parent ≠ none := by
  obtain ⟨-, content', parent, outer, hd', hparent, -⟩ := h
  obtain rfl := Option.mem_unique hd hd'
  simp [hparent]

/-- A use of a callee needs the closure that the analysis looks for. -/
theorem Closed.capturing? (hp : p.Closed) (hchains : p.ChainsEnd) {callee : DeclId}
    (hcallee : p.decls.get? callee = some content) :
    ∃ r, Captures.capturing? p callee = .ok r ∧ ∀ d, r = some d ↔ p.Draws callee d := by
  -- only functions and constructors are drawn from
  have kinds : ∀ {d}, p.Draws callee d →
      (∃ f, content = .function f ∧ d = callee ∧ p.StandsInBody callee)
      ∨ ∃ c, content = .constructor c ∧ c.parent = some d ∧ p.StandsInBody d := by
    intro d h
    cases h with
    | function hf hbody => exact .inl ⟨_, Option.mem_unique hcallee hf, rfl, hbody⟩
    | constructor hc hparent hbody =>
      exact .inr ⟨_, Option.mem_unique hcallee hc, hparent, hbody⟩
  have nothing : (∀ d, ¬ p.Draws callee d) →
      ∃ r, (.ok none : Except Fault (Option DeclId)) = .ok r ∧ ∀ d, r = some d ↔ p.Draws callee d :=
    fun h => ⟨none, rfl, fun d => by simp [h d]⟩
  unfold Captures.capturing?
  rw [decl_eq_ok.2 hcallee, Except.ok_bind]
  cases content with
  | function f =>
    obtain ⟨name, parent, _, _, _, _, _, _, _, _, _, _, _⟩ := f
    cases parent with
    | none =>
      refine nothing fun d h => ?_
      rcases kinds h with ⟨_, h, -, hbody⟩ | ⟨_, h, _⟩
      · exact hbody.exists_parent hcallee rfl
      · cases h
    | some parent =>
      obtain ⟨outer, houter⟩ := hp.exists_parent hcallee (by rfl)
      have hbody := standsInBody_iff hcallee (by rfl) houter
      have hdraws : ∀ d, p.Draws callee d ↔ d = callee ∧ p.StandsInBody callee := by
        intro d
        constructor
        · intro h
          rcases kinds h with ⟨_, h, heq, hbody⟩ | ⟨_, h, _⟩
          · exact ⟨heq, hbody⟩
          · cases h
        · rintro ⟨rfl, hbody⟩
          exact .function hcallee hbody
      simp only [isClass_of_get? houter, Except.ok_bind, isLocal_of_ending (hchains.ending hcallee),
        hdraws, hbody]
      cases outer.isClass with
      | true => exact ⟨none, rfl, by simp⟩
      | false =>
        cases ((p.chain callee).scopes.tail.any fun s => s.2.isCallable) with
        | true => exact ⟨some callee, rfl, by simp [eq_comm]⟩
        | false => exact ⟨none, rfl, by simp⟩
  | constructor c =>
    obtain ⟨parent, _, _, _, _, _⟩ := c
    cases parent with
    | none =>
      refine nothing fun d h => ?_
      rcases kinds h with ⟨_, h, _⟩ | ⟨_, h, hparent, -⟩
      · cases h
      · cases h
        cases hparent
    | some cls =>
      obtain ⟨content, hcls⟩ := hp.exists_parent hcallee (by rfl)
      have hdraws : ∀ d, p.Draws callee d ↔ d = cls ∧ p.StandsInBody cls := by
        intro d
        constructor
        · intro h
          rcases kinds h with ⟨_, h, _⟩ | ⟨_, h, hparent, hbody⟩
          · cases h
          · cases h
            cases hparent
            exact ⟨rfl, hbody⟩
        · rintro ⟨rfl, hbody⟩
          exact .constructor hcallee rfl hbody
      simp only [isLocal_of_ending (hchains.ending hcls), Except.ok_bind,
        parent_of_get? hcls, hdraws]
      cases hlocal : ((p.chain cls).scopes.tail.any fun s => s.2.isCallable) with
      | false =>
        have : ¬ p.StandsInBody cls := fun h => by
          have := h.1
          rw [isLocal_of_ending (hchains.ending hcls), hlocal] at this
          cases this
        exact ⟨none, rfl, by simp [this]⟩
      | true =>
        cases hparent : content.parent with
        | none =>
          have : ¬ p.StandsInBody cls := fun h => h.exists_parent hcls hparent
          exact ⟨none, rfl, by simp [this]⟩
        | some parent =>
          obtain ⟨outer, houter⟩ := hp.exists_parent hcls hparent
          simp only [isClass_of_get? houter, Except.ok_bind, standsInBody_iff hcls hparent houter,
            isLocal_of_ending (hchains.ending hcls), hlocal]
          cases outer.isClass with
          | true => exact ⟨none, rfl, by simp⟩
          | false => exact ⟨some cls, rfl, by simp [eq_comm]⟩
  | cls c => exact nothing fun d h => by rcases kinds h with ⟨_, h, _⟩ | ⟨_, h, _⟩ <;> cases h
  | property q => exact nothing fun d h => by rcases kinds h with ⟨_, h, _⟩ | ⟨_, h, _⟩ <;> cases h
  | field f => exact nothing fun d h => by rcases kinds h with ⟨_, h, _⟩ | ⟨_, h, _⟩ <;> cases h

/-- A value that is used is there. -/
theorem Closed.exists_used (hp : p.Closed) {place : Place} (hlabel : p.label? place = some label)
    (hused : label.used? = some v) : ∃ value, p.values.get? v = some value := by
  cases label with
  | expr e node =>
    simp only [Label.used?] at hused
    exact hp.exists_value_of_expr (label?_eq_expr.1 hlabel).2 (by simp [Expr.namedValues, hused])
  | decl d content => cases hused
  | backing d content => cases hused

/-- A callee that is used is there. -/
theorem Closed.exists_callee (hp : p.Closed) {a : Access} (hnode : p.exprs.get? e = some node)
    (ha : node.access? = some a) : ∃ content, p.decls.get? a.callee = some content := by
  cases node with
  | access form a' =>
    cases ha
    exact hp.exists_decl_of_expr hnode (by simp [Expr.namedDecls])
  | _ => cases ha

end Program

namespace Captures

/-! ## §4. The invariant of the walk. -/

/-- What a declaration captures by uses below it. -/
def Direct (p : Program) (d : DeclId) (v : ValueId) : Prop :=
  ∃ rel place label, Occurs p d rel place ∧ p.label? place = some label ∧ label.used? = some v
    ∧ Reaches p v (rel ++ [d]) [d]

/-- A reference records a use of a callee under open scopes. -/
def Records (p : Program) (r : Reference) (x : List DeclId × Label) : Prop :=
  x.1 ≠ [] ∧ List.Forall₂ p.HasScope x.1 r.scopes ∧ ∃ callee, x.2.callee? = some callee
    ∧ p.Draws callee r.callee

/-- A walk under the scopes `ds` has gone over occurrences. -/
structure Walked (p : Program) (ds : List DeclId) (occs : List (List DeclId × Label))
    (w w' : Walk) : Prop where
  scopes : w'.scopes = w.scopes
  captured : ∀ v, v ∈ w'.captured ↔
    v ∈ w.captured ∨ ∃ x ∈ occs, x.2.used? = some v ∧ Reaches p v x.1 ds
  keys : ∀ d, d ∈ w'.gathered.closures.keys ↔
    d ∈ w.gathered.closures.keys ∨ ∃ x ∈ occs, ∃ content, x.2.opened? = some (d, content)
  closures : ∀ d c, w'.gathered.closures.get? d = some c →
    w.gathered.closures.get? d = some c ∨ ∀ v, v ∈ c ↔ Direct p d v
  references : ∀ r, r ∈ w'.gathered.references ↔ r ∈ w.gathered.references
    ∨ ∃ x ∈ occs, Records p r x

namespace Walked

variable {p : Program} {ds : List DeclId}
  {occs occs' : List (List DeclId × Label)} {w w' w'' : Walk}

theorem refl (p : Program) (ds : List DeclId) (w : Walk) : Walked p ds [] w w :=
  ⟨rfl, by simp, by simp, fun _ _ h => .inl h, by simp⟩

theorem trans (h : Walked p ds occs w w') (h' : Walked p ds occs' w' w'') :
    Walked p ds (occs ++ occs') w w'' := by
  refine ⟨h'.scopes.trans h.scopes, fun v => ?_, fun d => ?_, fun d c hc => ?_, fun r => ?_⟩
  · rw [h'.captured, h.captured]
    simp only [List.mem_append, or_and_right, exists_or, or_assoc]
  · rw [h'.keys, h.keys]
    simp only [List.mem_append, or_and_right, exists_or, or_assoc]
  · rcases h'.closures d c hc with hc | hc
    · exact h.closures d c hc
    · exact .inr hc
  · rw [h'.references, h.references]
    simp only [List.mem_append, or_and_right, exists_or, or_assoc]

/-- A label that uses nothing and opens nothing adds nothing. -/
theorem silent (hused : label.used? = none) (hopened : label.opened? = none)
    (hcallee : label.callee? = none) : Walked p ds [(ds, label)] w w := by
  refine ⟨rfl, ?_, ?_, fun _ _ h => .inl h, ?_⟩ <;> simp [hused, hopened, hcallee, Records]

end Walked

variable {p : Program}

/-- Scopes are determined by the declarations that open them. -/
theorem forall₂_hasScope_unique {ss' : List Scope} (h : List.Forall₂ p.HasScope ds ss)
    (h' : List.Forall₂ p.HasScope ds ss') : ss = ss' := by
  induction h generalizing ss' with
  | nil => cases h'; rfl
  | cons hs _ ih =>
    cases h' with
    | cons hs' hrest => rw [hs.unique hs', ih hrest]

/-- The closure that a node needs. -/
theorem needed?_eq (hp : p.Closed) (hchains : p.ChainsEnd) (hnode : p.exprs.get? e = some node) :
    ∃ r, needed? p node = .ok r
      ∧ ∀ d, r = some d ↔ ∃ callee, (Label.expr e node).callee? = some callee
      ∧ p.Draws callee d := by
  unfold needed?
  cases ha : node.access? with
  | none => exact ⟨none, rfl, by simp [Label.callee?, ha]⟩
  | some a =>
    obtain ⟨content, hcallee⟩ := hp.exists_callee hnode ha
    obtain ⟨r, hr, hdraws⟩ := hp.capturing? hchains hcallee
    exact ⟨r, hr, by simp [Label.callee?, ha, hdraws]⟩

/-- What the innermost scope captures after a node. -/
theorem captureUse_eq (hp : p.Closed) (hchains : p.ChainsEnd) (hnode : p.exprs.get? e = some node)
    (hs : p.HasScope d s) (captured : Closure) :
    ∃ captured', captureUse p s captured node = .ok captured'
      ∧ ∀ x, x ∈ captured' ↔ x ∈ captured ∨ node.used? = some x ∧ p.External d x := by
  unfold captureUse
  cases hused : node.used? with
  | none => exact ⟨captured, rfl, by simp⟩
  | some v =>
    obtain ⟨value, hv⟩ := hp.exists_value_of_expr hnode (v := v) (by simp [Expr.namedValues, hused])
    obtain ⟨captured', hcaptured, hmem⟩ := hp.capture hchains hs hv captured
    refine ⟨captured', hcaptured, fun x => ?_⟩
    rw [hmem, Option.some_inj]
    constructor
    · rintro (h | ⟨rfl, h⟩)
      · exact .inl h
      · exact .inr ⟨rfl, h⟩
    · rintro (h | ⟨rfl, h⟩)
      · exact .inl h
      · exact .inr ⟨rfl, h⟩

/-- A node adds the value that it uses and the reference that it makes. -/
theorem walked_node (hp : p.Closed) (hchains : p.ChainsEnd) (hnode : p.exprs.get? e = some node)
    {w : Walk} (hscopes : List.Forall₂ p.HasScope ds w.scopes) :
    ∃ w', visitNode p node w = .ok w' ∧ Walked p ds [(ds, .expr e node)] w w' := by
  obtain ⟨r, hr, hdraws⟩ := needed?_eq hp hchains hnode
  unfold visitNode
  rw [hr, Except.ok_bind]
  cases ds with
  | nil =>
    have hnil : w.scopes = [] := List.forall₂_nil_left_iff.1 hscopes
    have hno : ∀ v, ¬ Reaches p v [] [] := fun v h => h.ne_nil rfl
    rw [hnil]
    exact ⟨w, rfl, rfl, by simp [hno], by simp [Label.opened?],
      fun _ _ h => .inl h, by simp [Records]⟩
  | cons d ds =>
    obtain ⟨s, ss, hs, hrest, hcons⟩ := List.forall₂_cons_left_iff.1 hscopes
    obtain ⟨captured, hcaptured, hmem⟩ := captureUse_eq hp hchains hnode hs w.captured
    rw [hcons]
    simp only [hcaptured, Except.ok_bind]
    refine ⟨_, rfl, hcons.symm, fun v => ?_, by simp [Label.opened?],
      fun _ _ h => .inl h, fun ref => ?_⟩
    · simp [hmem, Label.used?, Reaches.innermost_iff]
    · have hscopes' : ref.scopes = w.scopes ↔ List.Forall₂ p.HasScope (d :: ds) ref.scopes :=
        ⟨fun h => h ▸ hscopes, fun h => forall₂_hasScope_unique h hscopes⟩
      have hmap : ref ∈ (r.toList.map fun callee => ({ scopes := s :: ss, callee } : Reference))
          ↔ ref.scopes = w.scopes ∧ r = some ref.callee := by
        cases r with
        | none => simp
        | some d => cases ref; simp [hcons, eq_comm]
      simp [List.mem_append, hmap, hscopes', hdraws, Records]

/-! ## §5. Declarations. -/

/-- Recording the closure of a local declaration. -/
theorem record_eq (hlocal : p.isLocal d = .ok true) (content : Declaration) {closure : Closure}
    (hclosure : ∀ v ∈ closure, ∃ value, p.values.get? v = some value) (g : Gathered) :
    ∃ g', record p d content closure g = .ok g' ∧ g'.closures = g.closures.insert d closure
      ∧ g'.references = g.references := by
  obtain ⟨names, hnames, -⟩ := Except.mapM_eq_ok
    (f := fun v => (return (← p.value v).name : Except Fault _))
    (P := fun _ _ => True) fun v hv => by
      obtain ⟨value, hvalue⟩ := hclosure v hv
      exact ⟨value.name, by rw [Program.value_eq_ok.2 hvalue]; rfl, trivial⟩
  unfold record
  rw [hlocal, Except.ok_bind, hnames]
  exact ⟨_, rfl, rfl, rfl⟩

/-- What a closed scope hands to the scope around it. -/
theorem handOut_eq (hp : p.Closed) {scopes : List Scope}
    (hscopes : List.Forall₂ p.HasScope ds scopes) (captured nested : Closure)
    (hnested : ∀ v ∈ nested, ∃ value, p.values.get? v = some value) :
    ∃ captured', handOut p scopes captured nested = .ok captured'
      ∧ ∀ x, x ∈ captured' ↔ x ∈ captured ∨ ∃ d outer, ds = d :: outer ∧ x ∈ nested
      ∧ ¬ p.Owns d x := by
  cases hscopes with
  | nil => exact ⟨captured, rfl, by simp⟩
  | cons hs _ =>
    obtain ⟨captured', h, hmem⟩ := hp.absorb hs captured nested hnested
    exact ⟨captured', h, by simp [hmem]⟩

/-- The uses below a declaration that reach it, whatever stands around it, are those it captures
directly. -/
theorem direct_iff (hd : p.decls.get? d = some content)
    (hts : Tree.ReadsAll p .nested ts content.parts) (ds : List DeclId) (v : ValueId) :
    (∃ x ∈ Tree.occurrencesAll (d :: ds) ts, x.2.used? = some v ∧ Reaches p v x.1 (d :: ds))
      ↔ Direct p d v := by
  have hreach : ∀ rel, Reaches p v (rel ++ d :: ds) (d :: ds)
      ↔ Reaches p v (rel ++ [d]) [d] := fun rel => by
    have happend : Reaches p v (rel ++ [d] ++ ds) ([d] ++ ds) ↔ _ := Reaches.append_iff ds (by simp)
    simpa using happend
  rw [← List.nil_append (d :: ds), Tree.occurrencesAll_append]
  constructor
  · rintro ⟨x, hx, hused, hr⟩
    obtain ⟨y, hy, rfl⟩ := List.mem_map.1 hx
    obtain ⟨place, hocc, hlabel⟩ := (Occurs.iff_mem hd hts).2 hy
    exact ⟨y.1, place, y.2, hocc, hlabel, hused, (hreach y.1).1 hr⟩
  · rintro ⟨rel, place, label, hocc, hlabel, hused, hr⟩
    have hy := (Occurs.iff_mem hd hts).1 ⟨place, hocc, hlabel⟩
    exact ⟨_, List.mem_map.2 ⟨_, hy, rfl⟩, hused, (hreach rel).2 hr⟩

/-- A declaration that opens a scope: the walk inside it, its closure, and what it hands
outwards. -/
theorem walked_opened (hp : p.Closed) (hd : p.decls.get? d = some content)
    (hopens : content.opensScope = true) (hlocal : p.isLocal d = .ok true)
    (hts : Tree.ReadsAll p .nested ts content.parts) {w : Walk}
    (hscopes : List.Forall₂ p.HasScope ds w.scopes) {below : Walk → Except Fault Walk}
    (hbelow : ∀ w : Walk, List.Forall₂ p.HasScope (d :: ds) w.scopes →
      ∃ w', below w = .ok w' ∧ Walked p (d :: ds) (Tree.occurrencesAll (d :: ds) ts) w w')
    (hopened : label.opened? = some (d, content)) (hused : label.used? = none)
    (hcallee : label.callee? = none) : ∃ w', visitDecl p d content below w = .ok w'
      ∧ Walked p ds ((ds, label) :: Tree.occurrencesAll (d :: ds) ts) w w' := by
  have hscope := hp.exists_scope hd
  rw [if_pos hopens] at hscope
  obtain ⟨s, -, hs⟩ := hscope
  obtain ⟨inner, hinner, hwalked⟩ := hbelow { w with scopes := s :: w.scopes, captured := .empty }
    (.cons ⟨content, hd, hs⟩ hscopes)
  have hdirect : ∀ v, v ∈ inner.captured ↔ Direct p d v := fun v => by
    rw [hwalked.captured, ← direct_iff hd hts ds v]
    simp
  have hthere : ∀ v ∈ inner.captured, ∃ value, p.values.get? v = some value := fun v hv => by
    obtain ⟨rel, place, label, -, hlabel, hused, -⟩ := (hdirect v).1 hv
    exact hp.exists_used hlabel hused
  obtain ⟨g, hg, hclosures, hreferences⟩ := record_eq hlocal content hthere inner.gathered
  obtain ⟨captured, hcaptured, hmem⟩ := handOut_eq hp hscopes w.captured inner.captured hthere
  refine ⟨{ w with captured, gathered := g }, ?_, rfl, fun v => ?_, fun d' => ?_,
    fun d' c hc => ?_, fun r => ?_⟩
  · simp only [visitDecl, hs, Except.ok_bind, hinner, hg, hcaptured]
    rfl
  · -- what reaches the scope around is what reaches this one and is not owned there
    rw [hmem, hwalked.captured]
    simp only [OrderedSet.not_mem_empty, false_or, List.exists_mem_cons_iff, hused,
      reduceCtorEq, false_and]
    refine or_congr_right ?_
    constructor
    · rintro ⟨o, outer, rfl, ⟨x, hx, hu, hr⟩, howns⟩
      exact ⟨x, hx, hu, .outwards hr howns⟩
    · rintro ⟨x, hx, hu, hr⟩
      cases ds with
      | nil => exact absurd rfl hr.ne_nil
      | cons o outer =>
        obtain ⟨hr, howns⟩ := (Reaches.outwards_iff (Tree.suffix_of_mem hx)).1 hr
        exact ⟨o, outer, rfl, ⟨x, hx, hu, hr⟩, howns⟩
  · have hkeys := hwalked.keys d'
    have hnew : (∃ content', label.opened? = some (d', content')) ↔ d' = d := by
      simp [hopened, eq_comm]
    simp only [List.exists_mem_cons_iff, hnew, hclosures, OrderedMap.keys_insert]
    split
    · rw [hkeys]
      constructor
      · rintro (h | h)
        · exact .inl h
        · exact .inr (.inr h)
      · rintro (h | rfl | h)
        · exact .inl h
        · exact hkeys.1 (by assumption)
        · exact .inr h
    · rw [List.mem_append, hkeys, List.mem_singleton]
      constructor
      · rintro ((h | h) | h)
        · exact .inl h
        · exact .inr (.inr h)
        · exact .inr (.inl h)
      · rintro (h | h | h)
        · exact .inl (.inl h)
        · exact .inr h
        · exact .inl (.inr h)
  · simp only [hclosures, OrderedMap.get?_insert] at hc
    split at hc
    · obtain rfl := Option.some.inj hc
      rename_i h
      exact .inr (h.1 ▸ hdirect)
    · exact hwalked.closures d' c hc
  · rw [hreferences, hwalked.references]
    simp [Records, hcallee]

/-! ## §6. Trees and roots. -/

/-- The walk over a tree does not fault, and it adds what the occurrences in the tree ask for. -/
def Follows (p : Program) (t : Tree) : Prop :=
  ∀ {place : Place} {ds : List DeclId} {w : Walk}, t.Reads p .nested place →
    List.Forall₂ p.HasScope ds w.scopes →
    (∀ x ∈ t.occurrences ds, ∀ d content, x.2.opened? = some (d, content) →
    p.isLocal d = .ok true) →
    ∃ w', t.visit (visitor p) w = .ok w' ∧ Walked p ds (t.occurrences ds) w w'

/-- Trees that are walked over one after the other. -/
theorem walked_all (hts : ∀ t ∈ ts, Follows p t) {places : List Place} {w : Walk}
    (hr : Tree.ReadsAll p .nested ts places) (hscopes : List.Forall₂ p.HasScope ds w.scopes)
    (hlocal : ∀ x ∈ Tree.occurrencesAll ds ts, ∀ d content, x.2.opened? = some (d, content) →
      p.isLocal d = .ok true) :
    ∃ w', Tree.visitAll (visitor p) ts w = .ok w'
      ∧ Walked p ds (Tree.occurrencesAll ds ts) w w' := by
  induction ts generalizing places w with
  | nil => exact ⟨w, rfl, Walked.refl p ds w⟩
  | cons t ts ih =>
    cases places with
    | nil => exact absurd hr (by simp [Tree.ReadsAll])
    | cons place places =>
      obtain ⟨w₁, h₁, hw₁⟩ := hts t List.mem_cons_self hr.1 hscopes fun x hx =>
        hlocal x (List.mem_append_left _ hx)
      obtain ⟨w₂, h₂, hw₂⟩ := ih (fun u hu => hts u (List.mem_cons_of_mem _ hu)) hr.2
        (hw₁.scopes ▸ hscopes) fun x hx => hlocal x (List.mem_append_right _ hx)
      exact ⟨w₂, by simp only [Tree.visitAll, h₁, Except.ok_bind, h₂], hw₁.trans hw₂⟩

/-- A declaration and the trees of its parts. -/
theorem walked_decl (hp : p.Closed) (hd : p.decls.get? d = some content)
    (hts : ∀ t ∈ ts, Follows p t) (hr : Tree.ReadsAll p .nested ts content.parts) {w : Walk}
    (hscopes : List.Forall₂ p.HasScope ds w.scopes) (hopened : label.opened? = if content.opensScope
      then some (d, content) else none) (hused : label.used? = none)
    (hcallee : label.callee? = none)
    (hlocal : ∀ x ∈ (Tree.node label ts).occurrences ds, ∀ d content,
      x.2.opened? = some (d, content) →
      p.isLocal d = .ok true) :
    ∃ w', visitDecl p d content (Tree.visitAll (visitor p) ts) w = .ok w'
      ∧ Walked p ds ((Tree.node label ts).occurrences ds) w w' := by
  simp only [Tree.occurrences] at hlocal ⊢
  cases hopens : content.opensScope with
  | true =>
    rw [hopens, if_pos rfl] at hopened
    have hscopes' : label.scopes ds = d :: ds := by simp [Label.scopes, hopened]
    rw [hscopes'] at hlocal ⊢
    refine walked_opened hp hd hopens
      (hlocal _ List.mem_cons_self d content hopened) hr hscopes ?_ hopened
      hused hcallee
    exact fun w hw => walked_all hts hr hw fun x hx => hlocal x (List.mem_cons_of_mem _ hx)
  | false =>
    rw [hopens, if_neg (by simp)] at hopened
    have hscopes' : label.scopes ds = ds := by simp [Label.scopes, hopened]
    rw [hscopes'] at hlocal ⊢
    have hscope := hp.exists_scope hd
    rw [hopens, if_neg (by simp)] at hscope
    obtain ⟨w', h', hw'⟩ :=
      walked_all hts hr hscopes fun x hx => hlocal x (List.mem_cons_of_mem _ hx)
    exact ⟨w', by simp only [visitDecl, hscope, Except.ok_bind, h'],
      (Walked.silent hused hopened hcallee).trans hw'⟩

/-- **The walk over a tree.**  It does not fault, and it adds what the occurrences in the tree ask
for. -/
theorem follows (hp : p.Closed) (hchains : p.ChainsEnd) (t : Tree) : Follows p t := by
  induction t using Tree.induct with
  | missing => intro place ds w hr; exact absurd hr (by simp [Tree.Reads])
  | endless => intro place ds w hr; exact absurd hr (by simp [Tree.Reads])
  | node label below ih =>
    intro place ds w hr hscopes hlocal
    obtain ⟨hlabel, hbelow⟩ := hr
    cases label with
    | expr e node =>
      obtain ⟨w₁, h₁, hw₁⟩ := walked_node hp hchains (Program.label?_eq_expr.1 hlabel).2 hscopes
      obtain ⟨w₂, h₂, hw₂⟩ := walked_all ih hbelow (hw₁.scopes ▸ hscopes) fun x hx =>
        hlocal x (List.mem_cons_of_mem _ hx)
      exact ⟨w₂, by simp only [Tree.visit, visitor, h₁, Except.ok_bind, h₂], hw₁.trans hw₂⟩
    | decl d content =>
      exact walked_decl hp (Program.label?_eq_decl.1 hlabel).2 ih hbelow hscopes rfl rfl rfl hlocal
    | backing d content =>
      exact walked_decl hp
        (Program.label?_eq_backing.1 hlabel).2 ih hbelow hscopes rfl rfl rfl hlocal

/-- **The walk over a root.**  It records each declaration that opens a scope below the root with
what it captures directly, and it lists the uses of local callables. -/
theorem walked_root (hp : p.Closed) (hchains : p.ChainsEnd) {root : DeclId}
    (hroot : p.decls.get? root = some content) (hts : Tree.ReadsAll p .nested ts content.parts)
    (hlocal : ∀ d, Opens p root d → p.isLocal d = .ok true) :
    ∃ w, p.visitBelow (visitor p) root {} = .ok w
      ∧ (∀ d, d ∈ w.gathered.closures.keys ↔ Opens p root d)
      ∧ (∀ d c, w.gathered.closures.get? d = some c → ∀ v, v ∈ c ↔ Direct p d v)
      ∧ ∀ r, r ∈ w.gathered.references ↔ ∃ ds place label, Occurs p root ds place
          ∧ p.label? place = some label ∧ Records p r (ds, label) := by
  obtain ⟨w, hw, hwalked⟩ := walked_all (w := {}) (fun t _ => follows hp hchains t) hts .nil
    fun x hx d content hopened =>
    hlocal d ((Occurs.opens_iff hroot hts).2 ⟨x, hx, content, hopened⟩)
  refine ⟨w, (Program.visitBelow_of_reads _ hroot hts _).trans hw, fun d => ?_,
    fun d c hc => ?_, fun r => ?_⟩
  · rw [hwalked.keys, Occurs.opens_iff hroot hts]
    simp
  · rcases hwalked.closures d c hc with hc | hc
    · cases hc
    · exact hc
  · rw [hwalked.references]
    simp only [List.not_mem_nil, false_or]
    constructor
    · rintro ⟨x, hx, hrec⟩
      obtain ⟨place, hocc, hlabel⟩ := (Occurs.iff_mem hroot hts).2 hx
      exact ⟨x.1, place, x.2, hocc, hlabel, hrec⟩
    · rintro ⟨ds, place, label, hocc, hlabel, hrec⟩
      exact ⟨_, hocc.mem_occurrencesAll hroot hts hlabel, hrec⟩

end Captures

end LambdaLift
