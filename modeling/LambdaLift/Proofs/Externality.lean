/-
  LambdaLift.Proofs.Externality
  **WHAT IS CAPTURED IS BOUND OUTSIDE, EXCEPT FROM INITIALIZERS.**

  A scope takes over what the scopes in it capture unless it owns it.  In a
  lexically scoped program that is the test for external values in all
  cases but one.  The constructors and fields of a class own values that
  can be read in its initializers, where they are not around the reader;
  if a declaration placed there captures one, the class hands it on.

  Main results:
    * `LexicallyScoped.not_ancestor` — no class is an ancestor of what is around it;
    * `LexicallyScoped.traced` — where the owner of a captured value stands;
    * `captured_external` — which captured values are not external.
-/
import Mathlib
import LambdaLift.Sample
import LambdaLift.Proofs.Placement

namespace LambdaLift

variable {p : Program} {d k q root x : DeclId} {ds outer rest : List DeclId} {v : ValueId}
  {c : ClassDecl} {f : FunctionDecl} {label : Label} {place : Place} {value : Value}

/-! ## §1. Lexical scoping. -/

/-- What runs when an instance is made, besides the members that are called later. -/
def Declaration.initializes : Declaration → Bool
  | .constructor _ | .field _ => true
  | .function _ | .cls _ | .property _ => false

/-- A declaration opens a scope below the root, directly under these scopes. -/
def OpensUnder (p : Program) (root : DeclId) (outer : List DeclId) (d : DeclId) : Prop :=
  ∃ place label content, Occurs p root outer place ∧ p.label? place = some label
    ∧ label.opened? = some (d, content)

namespace Program

instance (p : Program) (d outer : DeclId) : Decidable (p.Parent d outer) :=
  decidable_of_iff (∃ content ∈ p.decls.get? d, content.parent = some outer) Iff.rfl

/-- The classes in whose initializers something stands, by the scopes open around it: the next scope
further in, if there is one, is no member of the class. -/
def initialized (p : Program) : (inner : Option DeclId) → List DeclId → List DeclId
  | _, [] => []
  | inner, d :: ds =>
    (if (p.decls.get? d).any Declaration.isClass ∧ ∀ g ∈ inner, ¬ p.Parent g d then [d] else [])
      ++ initialized p (some d) ds

/-- A declaration is around a place below the root: it has opened a scope there, it is the root, or
the place stands in an initializer of its class. -/
def InScope (p : Program) (root : DeclId) (ds : List DeclId) (q : DeclId) : Prop :=
  q ∈ ds ∨ q = root ∨ ∃ k ∈ p.initialized none ds, p.Parent q k
    ∧ (p.decls.get? q).any Declaration.initializes

instance (p : Program) (root : DeclId) (ds : List DeclId) (q : DeclId) :
    Decidable (p.InScope root ds q) :=
  decidable_of_iff ((∃ d ∈ ds, d = q) ∨ q = root
      ∨ ∃ k ∈ p.initialized none ds, p.Parent q k
      ∧ (p.decls.get? q).any Declaration.initializes) <| by
    rw [exists_eq_right]
    rfl

/-- A value can be read at a place below the root: its owner is around the place or around the
root. -/
def Visible (p : Program) (root : DeclId) (ds : List DeclId) (v : ValueId) : Prop :=
  ∃ value ∈ p.values.get? v,
    p.InScope root ds value.owner ∨ value.owner ∈ (p.chain root).scopes.map Prod.fst

instance (p : Program) (root : DeclId) (ds : List DeclId) (v : ValueId) :
    Decidable (p.Visible root ds v) :=
  decidable_of_iff (∃ value ∈ p.values.get? v,
      p.InScope root ds value.owner ∨ ∃ s ∈ (p.chain root).scopes, s.1 = value.owner) <| by
    simp only [Visible, List.mem_map]

/-- A function that is no member has no receiver to be called on, and an extension receiver belongs
to its function. -/
def BindsReceivers (p : Program) (d : DeclId) : Declaration → Prop
  | .function f => (p.isMember d = .ok false → f.dispatchReceiver = none)
      ∧ ∀ v ∈ f.extensionReceiver, ∃ value ∈ p.values.get? v, value.owner = d
  | _ => True

instance (p : Program) (d : DeclId) :
    (content : Declaration) → Decidable (p.BindsReceivers d content)
  | .function f =>
    inferInstanceAs (Decidable ((p.isMember d = .ok false → f.dispatchReceiver = none)
      ∧ ∀ v ∈ f.extensionReceiver, ∃ value ∈ p.values.get? v, value.owner = d))
  | .constructor _ | .cls _ | .property _ | .field _ => .isTrue trivial

/-- What stands below a root is lexically scoped.  Values are read where they are visible, a
callable that captures for itself is used under all scopes that are open where it is declared, and
what opens a scope has as its parent something around it. -/
structure ScopedAt (p : Program) (root : DeclId) (ds : List DeclId) (label : Label) : Prop where
  reads : ∀ v ∈ label.used?, p.Visible root ds v
  calls : ∀ callee ∈ label.callee?, ∀ x ∈ p.occurrencesBelow root, ∀ y ∈ x.2.opened?,
    Captures.capturing? p callee = .ok (some y.1) → x.1 <:+ ds
  parents : ∀ x ∈ label.opened?, (∃ q ∈ x.2.parent, p.InScope root ds q) ∧ p.BindsReceivers x.1 x.2

instance (p : Program) (root : DeclId) (ds : List DeclId) (label : Label) :
    Decidable (p.ScopedAt root ds label) :=
  decidable_of_iff ((∀ v ∈ label.used?, p.Visible root ds v)
      ∧ (∀ callee ∈ label.callee?, ∀ x ∈ p.occurrencesBelow root, ∀ y ∈ x.2.opened?,
        Captures.capturing? p callee = .ok (some y.1) → x.1 <:+ ds)
      ∧ ∀ x ∈ label.opened?, (∃ q ∈ x.2.parent, p.InScope root ds q) ∧ p.BindsReceivers x.1 x.2)
    ⟨fun h => ⟨h.1, h.2.1, h.2.2⟩, fun h => ⟨h.reads, h.calls, h.parents⟩⟩

/-- A callable below which nothing is shared and everything is lexically scoped. -/
structure LexicallyScoped (p : Program) (root : DeclId) : Prop extends Unfoldable p root where
  once : ((p.occurrencesBelow root).map (·.2.entry)).Nodup
  lexical : ∀ x ∈ p.occurrencesBelow root, p.ScopedAt root x.1 x.2

instance (p : Program) (root : DeclId) : Decidable (p.LexicallyScoped root) :=
  decidable_of_iff (p.Unfoldable root ∧ ((p.occurrencesBelow root).map (·.2.entry)).Nodup
      ∧ ∀ x ∈ p.occurrencesBelow root, p.ScopedAt root x.1 x.2)
    ⟨fun h => ⟨h.1, h.2.1, h.2.2⟩, fun h => ⟨h.toUnfoldable, h.once, h.lexical⟩⟩

end Program

/-! ## §2. Scopes and the declarations around them. -/

/-- An open scope is opened directly under the scopes further out. -/
theorem Occurs.opensUnder (h : Occurs p root ds place) :
    ∀ {rel}, ds = rel ++ d :: outer → OpensUnder p root outer d := by
  induction h with
  | part _ _ => intro rel hds; simp at hds
  | @inner ds q place label hocc hlabel hplace ih =>
    intro rel hds
    cases hopened : label.opened? with
    | none =>
      have hscopes : label.scopes ds = ds := by simp [Label.scopes, hopened]
      exact ih (hscopes.symm.trans hds)
    | some x =>
      have hscopes : label.scopes ds = x.1 :: ds := by simp [Label.scopes, hopened]
      rw [hscopes] at hds
      cases rel with
      | nil =>
        obtain ⟨rfl, rfl⟩ := List.cons.inj hds
        exact ⟨q, label, x.2, hocc, hlabel, hopened⟩
      | cons a as => exact ih (List.cons.inj hds).2

/-- What stands directly in the scope of `k` below a root stands directly in `k`. -/
theorem OpensUnder.inside (h : OpensUnder p root (k :: outer) d) : OpensUnder p k [] d := by
  obtain ⟨place, label, content, hocc, hlabel, hopened⟩ := h
  have hin := (hocc.inside (show k :: outer = [] ++ k :: outer from rfl)).1
  exact ⟨place, label, content, hin, hlabel, hopened⟩

namespace Program

theorem Parent.unique {q' : DeclId} (h : p.Parent d q) (h' : p.Parent d q') : q = q' := by
  obtain ⟨content, hd, hq⟩ := h
  obtain ⟨content', hd', hq'⟩ := h'
  obtain rfl := Option.mem_unique hd hd'
  exact Option.mem_unique hq hq'

/-- The ancestors of a declaration are its parent and the ancestors of that. -/
theorem Parent.ancestor (h : p.Parent d q) (hx : Relation.TransGen p.Parent d x) :
    Relation.ReflTransGen p.Parent q x := by
  obtain ⟨q', hq', hrest⟩ := Relation.TransGen.head'_iff.1 hx
  exact h.unique hq' ▸ hrest

/-- A class in whose initializers something stands is one of the scopes around it, and what stands
next to it further in is no member. -/
theorem exists_of_mem_initialized : ∀ {ds : List DeclId} {inner : Option DeclId},
    k ∈ p.initialized inner ds → (p.decls.get? k).any Declaration.isClass = true
      ∧ ((∃ outer, ds = k :: outer ∧ ∀ g ∈ inner, ¬ p.Parent g k)
        ∨ ∃ rel g outer, ds = rel ++ g :: k :: outer ∧ ¬ p.Parent g k) := by
  intro ds
  induction ds with
  | nil => intro inner hk; cases hk
  | cons d ds ih =>
    intro inner hk
    rcases List.mem_append.1 hk with hk | hk
    · split at hk
      · rename_i hd
        obtain rfl := List.mem_singleton.1 hk
        exact ⟨hd.1, .inl ⟨ds, rfl, hd.2⟩⟩
      · cases hk
    · obtain ⟨hclass, hin⟩ := ih hk
      refine ⟨hclass, .inr ?_⟩
      rcases hin with ⟨outer, rfl, hd⟩ | ⟨rel, g, outer, rfl, hg⟩
      · exact ⟨[], d, outer, rfl, hd d rfl⟩
      · exact ⟨d :: rel, g, outer, rfl, hg⟩

theorem mem_of_mem_initialized (hk : k ∈ p.initialized none ds) : k ∈ ds := by
  rcases (exists_of_mem_initialized hk).2 with ⟨outer, rfl, -⟩ | ⟨rel, g, outer, rfl, -⟩
  · exact List.mem_cons_self
  · simp

namespace LexicallyScoped

variable {p : Program} {root : DeclId} (h : p.LexicallyScoped root)
include h

theorem scopedAt (hocc : Occurs p root ds place) (hlabel : p.label? place = some label) :
    p.ScopedAt root ds label :=
  h.lexical _ (h.mem_iff.1 ⟨place, hocc, hlabel⟩)

/-- A declaration opens its scope in one place. -/
theorem opensUnder_unique {outer' : List DeclId} (hd : OpensUnder p root outer d)
    (hd' : OpensUnder p root outer' d) : outer = outer' := by
  obtain ⟨place, label, content, hocc, hlabel, hopened⟩ := hd
  obtain ⟨place', label', content', hocc', hlabel', hopened'⟩ := hd'
  have hentry : label.entry = label'.entry := by
    rw [Label.entry_of_opened hopened, Label.entry_of_opened hopened']
  exact congrArg Prod.fst (List.inj_on_of_nodup_map h.once (h.mem_iff.1 ⟨place, hocc, hlabel⟩)
    (h.mem_iff.1 ⟨place', hocc', hlabel'⟩) hentry)

/-- The parent of what opens a scope is around it. -/
theorem exists_parent (hd : OpensUnder p root outer d) :
    ∃ q, p.Parent d q ∧ p.InScope root outer q := by
  obtain ⟨place, label, content, hocc, hlabel, hopened⟩ := hd
  obtain ⟨hget, -, -⟩ := Program.opened_of_label hlabel hopened
  obtain ⟨⟨q, hq, hscope⟩, -⟩ := (h.scopedAt hocc hlabel).parents _ hopened
  exact ⟨q, ⟨content, hget, hq⟩, hscope⟩

omit h in
/-- An open scope is opened under fewer scopes. -/
theorem exists_shorter (hd : OpensUnder p root outer d) (hx : x ∈ outer) :
    ∃ outer', OpensUnder p root outer' x ∧ outer' ⊆ outer ∧ outer'.length < outer.length := by
  obtain ⟨place, label, content, hocc, -⟩ := hd
  obtain ⟨rel, outer', heq⟩ := List.append_of_mem hx
  refine ⟨outer', hocc.opensUnder heq, ?_, ?_⟩
  · rw [heq]
    exact fun y hy => List.mem_append_right _ (List.mem_cons_of_mem _ hy)
  · rw [heq]
    simp
    omega

/-- **The ancestors of what opens a scope below a root.**  Each is one of the scopes around it, a
constructor or a field, or the root or an ancestor of the root; and the root is one of them. -/
theorem ancestors (hd : OpensUnder p root outer d) :
    Relation.TransGen p.Parent d root ∧ ∀ x, Relation.TransGen p.Parent d x →
      x ∈ outer ∨ (p.decls.get? x).any Declaration.initializes = true
      ∨ Relation.ReflTransGen p.Parent root x := by
  -- from scope to scope outwards: each is opened under fewer scopes
  induction hn : outer.length using Nat.strong_induction_on generalizing d outer with
  | _ n ih =>
    subst hn
    have inward : ∀ {k}, k ∈ outer → Relation.TransGen p.Parent k root
        ∧ ∀ x, Relation.ReflTransGen p.Parent k x →
        x ∈ outer ∨ (p.decls.get? x).any Declaration.initializes = true
        ∨ Relation.ReflTransGen p.Parent root x := by
      intro k hk
      obtain ⟨outer', hk', hsub, hlt⟩ := exists_shorter hd hk
      obtain ⟨hroot, hanc⟩ := ih _ hlt hk' rfl
      refine ⟨hroot, fun x hx => ?_⟩
      rcases Relation.reflTransGen_iff_eq_or_transGen.1 hx with rfl | hx
      · exact .inl hk
      · exact (hanc x hx).imp_left fun hmem => hsub hmem
    obtain ⟨q, hq, hscope⟩ := h.exists_parent hd
    rcases hscope with hmem | rfl | ⟨k, hk, hqk, hinit⟩
    · obtain ⟨hroot, hanc⟩ := inward hmem
      exact ⟨.head hq hroot, fun x hx => hanc x (hq.ancestor hx)⟩
    · exact ⟨.single hq, fun x hx => .inr (.inr (hq.ancestor hx))⟩
    · obtain ⟨hroot, hanc⟩ := inward (mem_of_mem_initialized hk)
      refine ⟨.head hq (.head hqk hroot), fun x hx => ?_⟩
      rcases Relation.reflTransGen_iff_eq_or_transGen.1 (hq.ancestor hx) with rfl | hx
      · exact .inr (.inl hinit)
      · exact hanc x (hqk.ancestor hx)

/-- **No class is an ancestor of what is around it.** -/
theorem not_ancestor {o : DeclId} (hd : OpensUnder p root outer d)
    (hcls : p.decls.get? d = some (.cls c)) (ho : o ∈ outer) :
    ¬ Relation.ReflTransGen p.Parent o d := by
  intro hanc
  obtain ⟨outer', ho', hsub, hlt⟩ := exists_shorter hd ho
  -- the scope of `d` would be opened inside itself
  have hapart : ∀ {outer''}, OpensUnder p root outer'' d → ¬ outer''.length < outer.length := by
    intro outer'' hd'' hlt
    rw [h.opensUnder_unique hd'' hd] at hlt
    omega
  rcases Relation.reflTransGen_iff_eq_or_transGen.1 hanc with rfl | hanc
  · exact hapart ho' hlt
  · rcases (h.ancestors ho').2 d hanc with hmem | hinit | hroot
    · obtain ⟨outer'', hd'', -, hlt'⟩ := exists_shorter ho' hmem
      exact hapart hd'' (by omega)
    · rw [hcls] at hinit
      cases hinit
    · exact h.chains.acyclic d ((h.ancestors hd).1.trans_left hroot)

/-- Every scope below the root stands below a callable. -/
theorem isLocal (hopens : Opens p root d) : p.isLocal d = .ok true := by
  obtain ⟨outer, hd⟩ := hopens
  obtain ⟨content, hroot, hcallable⟩ := h.callable
  exact h.chains.isLocal (h.ancestors hd).1 hroot hcallable

end LexicallyScoped

/-! ## §3. What is external. -/

/-- A value is external to a class unless the class is its owner or an ancestor of its owner. -/
theorem external_cls_iff (hp : p.Closed) (hchains : p.ChainsEnd)
    (hd : p.decls.get? d = some (.cls c)) (hv : p.values.get? v = some value) :
    p.External d v ↔ ¬ Relation.ReflTransGen p.Parent value.owner d := by
  have hscope : p.HasScope d (.cls d) := ⟨_, hd, rfl⟩
  obtain ⟨content, howner⟩ := hp.exists_owner hv
  have hending := hchains.ending howner
  have hanc : ((p.chain value.owner).scopes.any fun x => decide (x.1 = d)) = true
      ↔ Relation.ReflTransGen p.Parent value.owner d := by
    rw [List.any_eq_true]
    constructor
    · intro hany
      obtain ⟨⟨x, content'⟩, hmem, hx⟩ := hany
      obtain rfl := of_decide_eq_true hx
      exact (parents_of_mem_chainFrom hmem).1
    · intro hanc
      obtain ⟨content', -, hmem⟩ := mem_chainFrom hending hanc
      exact ⟨_, hmem, decide_eq_true rfl⟩
  rw [hscope.external_iff, ← hanc]
  simp only [Scope.isExternal, owner_of_get? hv, Except.ok_bind, Chain.any_of_ending hending]
  show Except.ok _ = Except.ok true ↔ _
  rw [Except.ok.injEq, Bool.not_eq_true', Bool.not_eq_true]

/-- A value is external to a function that is no member unless the function owns it. -/
theorem external_function_iff (hd : p.decls.get? d = some (.function f))
    (hbinds : p.BindsReceivers d (.function f)) (hmember : p.isMember d = .ok false)
    (hv : p.values.get? v = some value) : p.External d v ↔ ¬ p.Owns d v := by
  have hscope : p.HasScope d (.callable d f.dispatchReceiver f.extensionReceiver none) := by
    refine ⟨_, hd, ?_⟩
    simp only [Scope.ofDeclaration?, Scope.ofCallable, decl_eq_ok.2 hd, Except.ok_bind]
    rfl
  have hextension : f.extensionReceiver = some v → value.owner = d := by
    intro heq
    obtain ⟨value', hv', howner⟩ := hbinds.2 v heq
    rwa [Option.mem_unique hv hv']
  rw [hscope.external_iff, owns_iff hv, hbinds.1 hmember]
  simp only [Scope.isExternal, owner_of_get? hv, Except.ok_bind]
  show Except.ok _ = Except.ok true ↔ _
  simp
  grind

/-- What a declaration owns is not external to it. -/
theorem External.not_owns (hp : p.Closed) (hchains : p.ChainsEnd)
    (h : p.External d v) : ¬ p.Owns d v := by
  intro howns
  obtain ⟨value, hv, rfl⟩ := howns
  obtain ⟨s, ⟨content, hd, hs⟩, hext⟩ := h
  have callable : ∀ {this},
      Scope.ofCallable p value.owner = .ok (.callable value.owner content.dispatchReceiver
      content.extensionReceiver this) →
      some <$> Scope.ofCallable p value.owner = .ok (some s) → False := by
    intro this hthis hs
    rw [hthis] at hs
    cases hs
    simp [Scope.isExternal, owner_of_get? hv] at hext
  obtain ⟨this, hthis⟩ := hp.ofCallable hd
  cases content with
  | function f => exact callable hthis hs
  | constructor c => exact callable hthis hs
  | cls c => exact (external_cls_iff hp hchains hd hv).1 ⟨s, ⟨_, hd, hs⟩, hext⟩ .refl
  | property q => cases hs
  | field f => cases hs

end Program

namespace Reaches

variable {p : Program} {v : ValueId}

theorem not_owns (hp : p.Closed) (hchains : p.ChainsEnd)
    (h : Reaches p v ds (d :: outer)) : ¬ p.Owns d v := by
  cases h with
  | innermost hext => exact hext.not_owns hp hchains
  | outwards _ howns => exact howns

/-- A value that gets to a scope has got to those further in. -/
theorem of_suffix {mid : List DeclId} (h : Reaches p v ds rest) (hmid : mid <:+ ds)
    (hrest : rest <:+ mid) : Reaches p v ds mid := by
  induction h with
  | innermost hext =>
    obtain rfl := hrest.eq_of_length_le hmid.length_le
    exact .innermost hext
  | @outwards ds d d' outer hreach howns ih =>
    by_cases hlen : mid.length ≤ (d' :: outer).length
    · obtain rfl := hrest.eq_of_length_le hlen
      exact .outwards hreach howns
    · exact ih hmid (List.suffix_of_suffix_length_le hreach.suffix hmid (by simp at hlen ⊢; omega))

end Reaches

/-! ## §4. Where the owners of captured values stand. -/

namespace Program

/-- A value that a constructor or a field of the class `k` owns, and a declaration `g` that stands
in an initializer of the class. -/
structure InInitializer (p : Program) (k g : DeclId) (v : ValueId) : Prop where
  owner : ∃ value, p.values.get? v = some value ∧ p.Parent value.owner k
    ∧ (p.decls.get? value.owner).any Declaration.initializes = true
  inside : OpensUnder p k [] g
  not_member : ¬ p.Parent g k

/-- The value is bound around these scopes or by one of them. -/
inductive BoundAround (p : Program) (root : DeclId) (ds : List DeclId) (v : ValueId) : Prop
  /-- by one of the scopes -/
  | scope {value : Value} : p.values.get? v = some value → value.owner ∈ ds →
      BoundAround p root ds v
  /-- by the root or around it -/
  | root {value : Value} : p.values.get? v = some value →
      Relation.ReflTransGen p.Parent root value.owner →
      BoundAround p root ds v
  /-- by a class of which this is an initializer -/
  | initializer {rel outer : List DeclId} {k g : DeclId} : ds = rel ++ g :: k :: outer →
      p.InInitializer k g v →
      BoundAround p root ds v

theorem BoundAround.mono {ds' : List DeclId} (hds : ds <:+ ds') (h : p.BoundAround root ds v) :
    p.BoundAround root ds' v := by
  cases h with
  | scope hv ho => exact .scope hv (hds.subset ho)
  | root hv ho => exact .root hv ho
  | @initializer rel outer k g heq hin =>
    obtain ⟨more, rfl⟩ := hds
    have hds : more ++ ds = (more ++ rel) ++ g :: k :: outer := by rw [heq, List.append_assoc]
    exact .initializer hds hin

end Program

theorem Captured.not_owns (hp : p.Closed) (hchains : p.ChainsEnd)
    (h : Captured p root d v) : ¬ p.Owns d v := by
  cases h with
  | use _ _ _ hreach => exact hreach.not_owns hp hchains
  | through _ _ _ _ _ hreach => exact hreach.not_owns hp hchains

theorem Captured.opens (h : Captured p root d v) : Opens p root d := by
  cases h with
  | use hocc _ _ hreach => exact hocc.opens (hreach.suffix.subset List.mem_cons_self)
  | through hocc _ _ _ _ hreach => exact hocc.opens (hreach.suffix.subset List.mem_cons_self)

namespace Program.LexicallyScoped

variable {p : Program} {root : DeclId} (h : p.LexicallyScoped root)
include h

/-- What is read and captured by anything is bound around the place where it is read. -/
theorem boundAround_of_reads (hocc : Occurs p root ds place) (hlabel : p.label? place = some label)
    (hused : label.used? = some v) (hreach : Reaches p v ds rest) : p.BoundAround root ds v := by
  obtain ⟨value, hv, hvisible⟩ := (h.scopedAt hocc hlabel).reads v hused
  rcases hvisible with (hmem | heq | ⟨k, hk, hparent, hinit⟩) | hchain
  · exact .scope hv hmem
  · exact .root hv (heq ▸ .refl)
  · obtain ⟨hclass, ⟨outer, rfl, -⟩ | ⟨rel, g, outer, rfl, hg⟩⟩ := exists_of_mem_initialized hk
    · -- directly in the initializer the class itself is asked, and knows the value
      obtain ⟨content, hcontent, hclass⟩ := (Option.any_eq_true ..).1 hclass
      cases content with
      | cls c =>
        have hext := Reaches.innermost_iff.1 (hreach.of_suffix List.suffix_rfl hreach.suffix)
        exact absurd (.single hparent) ((external_cls_iff h.closed h.chains hcontent hv).1 hext)
      | _ => cases hclass
    · have hinside := (hocc.opensUnder rfl : OpensUnder p root (k :: outer) g).inside
      exact .initializer rfl ⟨⟨value, hv, hparent, hinit⟩, hinside, hg⟩
  · obtain ⟨⟨o, content⟩, hmem, ho⟩ := List.mem_map.1 hchain
    obtain rfl : o = value.owner := ho
    exact .root hv (parents_of_mem_chainFrom hmem).1

/-- **One step of passing on.**  A value that comes to a scope is bound further out, or it has come
through a declaration in an initializer of the class that binds it. -/
theorem boundAround_of_reaches (hbound : p.BoundAround root ds v)
    (hreach : Reaches p v ds (d :: outer))
    (hcaptured : ∀ {g out}, Reaches p v ds (g :: out) → Captured p root g v) :
    p.BoundAround root (d :: outer) v ∨ ∃ k g, p.InInitializer k g v ∧ Captured p root g v := by
  cases hbound with
  | root hv ho => exact .inl (.root hv ho)
  | @scope value hv ho =>
    by_cases hmem : value.owner ∈ d :: outer
    · exact .inl (.scope hv hmem)
    · -- the value would have been stopped at its owner
      exfalso
      obtain ⟨rel, heq⟩ := hreach.suffix
      rw [← heq] at ho
      obtain ⟨inner, more, rfl⟩ := List.append_of_mem ((List.mem_append.1 ho).resolve_right hmem)
      have hmid : value.owner :: (more ++ d :: outer) <:+ ds := ⟨inner, by rw [← heq]; simp⟩
      have hto :=
        hreach.of_suffix hmid ((List.suffix_append more (d :: outer)).trans (List.suffix_cons _ _))
      exact hto.not_owns h.closed h.chains ⟨value, hv, rfl⟩
  | @initializer rel outer' k g heq hin =>
    have hg : g :: k :: outer' <:+ ds := ⟨rel, heq.symm⟩
    by_cases hlen : (g :: k :: outer').length ≤ (d :: outer).length
    · obtain ⟨rel', heq'⟩ := List.suffix_of_suffix_length_le hg hreach.suffix hlen
      exact .inl (.initializer heq'.symm hin)
    · -- the value has passed `g` on its way
      have hto := hreach.of_suffix hg (List.suffix_of_suffix_length_le hreach.suffix hg (by omega))
      exact .inr ⟨k, g, hin, hcaptured hto⟩

/-- **Where the owner of a captured value stands**: around the scope that captures it, or it is a
part of a class with an initializer in which something captures the value. -/
theorem traced (hd : Captured p root d v) : ∀ {outer}, OpensUnder p root outer d →
    p.BoundAround root (d :: outer) v ∨ ∃ k g, p.InInitializer k g v ∧ Captured p root g v := by
  induction hd with
  | @use ds place label v d outer' hocc hlabel hused hreach =>
    intro outer hopens
    obtain ⟨rel, heq⟩ := hreach.suffix
    obtain rfl := h.opensUnder_unique (hocc.opensUnder heq.symm) hopens
    exact h.boundAround_of_reaches (h.boundAround_of_reads hocc hlabel hused hreach) hreach
      fun hto => .use hocc hlabel hused hto
  | @through ds place label callee g v d outer' hocc hlabel hcallee hdraws hg hreach ih =>
    intro outer hopens
    obtain ⟨rel, heq⟩ := hreach.suffix
    obtain rfl := h.opensUnder_unique (hocc.opensUnder heq.symm) hopens
    obtain ⟨outerg, hopensg⟩ := hg.opens
    -- the callable is used under all the scopes that it stands under
    have hsuffix : outerg <:+ ds := by
      obtain ⟨place', label', content', hocc', hlabel', hopened'⟩ := hopensg
      obtain ⟨content, hcontent⟩ : ∃ content, p.decls.get? callee = some content := by
        cases hdraws with
        | function hf _ => exact ⟨_, hf⟩
        | constructor hc _ _ => exact ⟨_, hc⟩
      obtain ⟨r, hr, hdrawn⟩ := h.closed.capturing? h.chains hcontent
      rw [(hdrawn g).2 hdraws] at hr
      exact (h.scopedAt hocc hlabel).calls callee hcallee _
        (h.mem_iff.1 ⟨_, hocc', hlabel'⟩) _ hopened' hr
    rcases ih hopensg with hbound | hleak
    · have hcases : p.BoundAround root outerg v ∨ ∃ k g, p.InInitializer k g v
          ∧ Captured p root g v := by
        cases hbound with
        | root hv ho => exact .inl (.root hv ho)
        | @scope value hv ho =>
          rcases List.mem_cons.1 ho with heq | ho
          · exact absurd ⟨value, hv, heq⟩ (hg.not_owns h.closed h.chains)
          · exact .inl (.scope hv ho)
        | @initializer rel outer'' k g' heq hin =>
          cases rel with
          | nil =>
            obtain ⟨rfl, -⟩ := List.cons.inj heq
            exact .inr ⟨k, g, hin, hg⟩
          | cons a as => exact .inl (.initializer (List.cons.inj heq).2 hin)
      rcases hcases with hbound | hleak
      · exact h.boundAround_of_reaches (hbound.mono hsuffix) hreach
          fun hto => .through hocc hlabel hcallee hdraws hg hto
      · exact .inr hleak
    · exact .inr hleak

/-- What a local function captures is external to it. -/
theorem external_of_captured_function (hd : p.decls.get? d = some (.function f))
    (hmember : p.isMember d = .ok false) (hcaptured : Captured p root d v) : p.External d v := by
  obtain ⟨value, hv⟩ := Captures.exists_of_captured h.closed hcaptured
  obtain ⟨ds, place, label, content, hocc, hlabel, hopened⟩ := hcaptured.opens
  obtain ⟨hd', -, -⟩ := opened_of_label hlabel hopened
  obtain rfl := Option.mem_unique hd hd'
  have hbinds := ((h.scopedAt hocc hlabel).parents _ hopened).2
  exact (external_function_iff hd hbinds hmember hv).2 (hcaptured.not_owns h.closed h.chains)

/-- What a class captures is external to it unless it comes from an initializer. -/
theorem not_external_iff (hd : p.decls.get? d = some (.cls c))
    (hcaptured : Captured p root d v) : ¬ p.External d v
      ↔ ∃ k g, Relation.ReflTransGen p.Parent k d ∧ p.InInitializer k g v
        ∧ Captured p root g v := by
  obtain ⟨value, hv⟩ := Captures.exists_of_captured h.closed hcaptured
  rw [external_cls_iff h.closed h.chains hd hv, not_not]
  constructor
  · intro hanc
    obtain ⟨outer, hopens⟩ := hcaptured.opens
    -- the owner is not the class, so its parent is the class or inside it
    have hne : value.owner ≠ d := fun heq => hcaptured.not_owns h.closed h.chains ⟨value, hv, heq⟩
    have hinner : ∀ {k g}, p.InInitializer k g v → Relation.ReflTransGen p.Parent k d := by
      intro k g hin
      obtain ⟨value', hv', hparent, -⟩ := hin.owner
      obtain rfl := Option.mem_unique hv hv'
      exact hparent.ancestor
        ((Relation.reflTransGen_iff_eq_or_transGen.1 hanc).resolve_left fun heq => hne heq.symm)
    rcases h.traced hcaptured hopens with hbound | ⟨k, g, hin, hg⟩
    · exfalso
      cases hbound with
      | @scope value' hv' ho =>
        obtain rfl := Option.mem_unique hv hv'
        exact h.not_ancestor hopens hd ((List.mem_cons.1 ho).resolve_left hne) hanc
      | @root value' hv' ho =>
        obtain rfl := Option.mem_unique hv hv'
        exact h.chains.acyclic d ((h.ancestors hopens).1.trans_left (ho.trans hanc))
      | @initializer rel outer' k g heq hin =>
        have hk : k ∈ outer := by
          cases rel with
          | nil => simp [(List.cons.inj heq).2]
          | cons a as => simp [(List.cons.inj heq).2]
        exact h.not_ancestor hopens hd hk (hinner hin)
    · exact ⟨k, g, hinner hin, hin, hg⟩
  · intro hleak
    obtain ⟨k, g, hk, hin, -⟩ := hleak
    obtain ⟨value', hv', hparent, -⟩ := hin.owner
    obtain rfl := Option.mem_unique hv hv'
    exact .head hparent hk

end Program.LexicallyScoped

/-! ## §5. Captured values are external. -/

/-- **Captured values are external, except those that leave an initializer.**  Below a lexically
scoped root the analysis answers.  Whatever a local function captures is external to it.  What a
class captures is external to it unless a constructor or field of the class, or of a class inside
it, owns the value and a declaration that stands in an initializer of that class captures it. -/
theorem captured_external {p : Program} {root : DeclId} (h : p.LexicallyScoped root) :
    ∃ cl events, p.closures root = .ok (cl, events)
      ∧ (∀ d f v, p.decls.get? d = some (.function f) → p.isMember d = .ok false →
        cl.Holds d v → p.External d v)
      ∧ ∀ d c v, p.decls.get? d = some (.cls c) → cl.Holds d v →
        (p.External d v ↔ ¬ ∃ k g, Relation.ReflTransGen p.Parent k d ∧ p.InInitializer k g v
            ∧ cl.Holds g v) := by
  obtain ⟨cl, events, hcl, -, hholds⟩ := h.closures fun d => h.isLocal
  refine ⟨cl, events, hcl, ?_, ?_⟩
  · intro d f v hd hmember hv
    exact h.external_of_captured_function hd hmember ((hholds d v).1 hv)
  · intro d c v hd hv
    simp only [hholds]
    rw [← h.not_external_iff hd ((hholds d v).1 hv), not_not]

namespace Sample

open Build

/-- A lambda in an initializer of a local class reads a parameter of the function around the class
and one of the constructor.

    fun f(n: Int): Int { class D(x: Int) { val g: Int = { n + x }() }; return D(5).g }
-/
def lambdaInInitializer : Build Sample := do
  let f ← function none (.ident "f") .int
  let n ← param f (.ident "n") .int
  let d ← cls (some f) (.ident "D") .plain false
  let init ← constructor d true
  let x ← param init (.ident "x") .int
  let lam ← lambda init .int
  let lhs ← read n
  let rhs ← read x
  returning lam (← addExpr (.binary .add lhs rhs))
  let placed ← addExpr (.decl lam)
  let g ← field d (.ident "g") .int (some (← block [placed, ← call lam []]))
  placing f [d] do
    let five ← addExpr (.lit (.int 5))
    addExpr (.getField g (some (← instantiate init [five])))
  return ⟨f, [d, lam]⟩

end Sample

/-- The class captures both parameters through the lambda; for the one of the function the test is
right. -/
theorem captured_external_initializer :
    (Sample.program Sample.lambdaInInitializer).LexicallyScoped ⟨0⟩
    ∧ ∃ cl events, (Sample.program Sample.lambdaInInitializer).closures ⟨0⟩ = .ok (cl, events)
      ∧ (∀ d f v, (Sample.program Sample.lambdaInInitializer).decls.get? d = some (.function f) →
        (Sample.program Sample.lambdaInInitializer).isMember d = .ok false → cl.Holds d v →
        (Sample.program Sample.lambdaInInitializer).External d v)
      ∧ ∀ d c v, (Sample.program Sample.lambdaInInitializer).decls.get? d = some (.cls c) →
      cl.Holds d v →
        ((Sample.program Sample.lambdaInInitializer).External d v ↔ ¬ ∃ k g,
          Relation.ReflTransGen (Sample.program Sample.lambdaInInitializer).Parent k d
            ∧ (Sample.program Sample.lambdaInInitializer).InInitializer k g v ∧ cl.Holds g v) :=
  ⟨by decide +kernel, captured_external (by decide +kernel)⟩

/-- **A class captures its own parameter.**  The program is lexically scoped, and the closure of the
class holds a value that the test of the class calls its own. -/
theorem captured_not_external : (Sample.program Sample.lambdaInInitializer).LexicallyScoped ⟨0⟩
    ∧ ∃ cl events, (Sample.program Sample.lambdaInInitializer).closures ⟨0⟩ = .ok (cl, events)
      ∧ cl.get? ⟨1⟩ = some (.ofList [⟨0⟩, ⟨2⟩])
      ∧ Scope.isExternal (Sample.program Sample.lambdaInInitializer) ⟨0⟩ (.cls ⟨1⟩) = .ok true
      ∧ Scope.isExternal (Sample.program Sample.lambdaInInitializer) ⟨2⟩ (.cls ⟨1⟩) = .ok false :=
  ⟨by decide +kernel, .ofList [(⟨2⟩, .empty), (⟨3⟩, .ofList [⟨0⟩, ⟨2⟩]), (⟨1⟩, .ofList [⟨0⟩, ⟨2⟩])],
    [.captures .init [], .captures .anonymous [.ident "n", .ident "x"],
    .captures (.ident "D") [.ident "n", .ident "x"]], by decide +kernel, by decide, by
    decide +kernel, by decide +kernel⟩

end LambdaLift
