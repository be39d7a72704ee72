/-
  LambdaLift.Proofs.Placement
  **ROOTS WHOSE DECLARATIONS ARE EACH PLACED ONCE.**

  A root is well shaped when nothing below it is shared, every declaration
  below it names as its parent what it stands in, and values, members and
  accessors are kept as building a program keeps them.  These are
  conditions on one entry at a time, and they can be checked by running
  over the unfolded root (`Program.WellShaped`).

  Main results:
    * `Tree.entries_perm` — the entries of a tree are its root and whatever
      is nested directly in one of its labels, so an entry that occurs once
      has one parent;
    * `WellShaped.standing` — the five ways to stand below a root;
    * `WellShaped.isLocal` — everything below a root stands below a callable.
-/
import Mathlib
import LambdaLift.Proofs.LeastClosures

namespace LambdaLift

variable {p : Program} {d k m q : DeclId} {ds ds' : List DeclId} {e : ExprId} {c : ClassDecl}
  {content : Declaration} {label : Label} {outer place place' : Place} {x : PropertyDecl}
  {kind kind' : ValueKind}

/-! ## §1. Entries that occur once. -/

/-- The entry that a label shows. -/
def Label.entry : Label → ExprId ⊕ DeclId
  | .expr e _ => .inl e
  | .decl d _ => .inr d
  | .backing d _ => .inr d

theorem Label.entry_of_opened (h : label.opened? = some (d, content)) : label.entry = .inr d := by
  cases label with
  | expr e node => cases h
  | decl d' content' =>
    simp only [Label.opened?, Option.ite_none_right_eq_some, Option.some.injEq, Prod.mk.injEq] at h
    rw [← h.2.1]
    rfl
  | backing d' content' =>
    simp only [Label.opened?, Option.ite_none_right_eq_some, Option.some.injEq, Prod.mk.injEq] at h
    rw [← h.2.1]
    rfl

/-- The entries nested directly in a label. -/
def Label.nestedEntries (label : Label) : List (ExprId ⊕ DeclId) :=
  (label.places .nested).map Place.entry

theorem Program.entry_of_label (h : p.label? place = some label) : label.entry = place.entry := by
  cases label with
  | expr e node => rw [(label?_eq_expr.1 h).1]; rfl
  | decl d content => rw [(label?_eq_decl.1 h).1]; rfl
  | backing d content => rw [(label?_eq_backing.1 h).1]; rfl

namespace Tree

variable {p : Program}

/-- The entries of trees are those at the places where they are read, and those nested in their
labels. -/
theorem entriesAll_perm {ts : List Tree} (hts : ∀ t ∈ ts, ∀ (place : Place) (ds : List DeclId),
      t.Reads p .nested place → ((t.occurrences ds).map (·.2.entry)).Perm
        (place.entry :: (t.occurrences ds).flatMap (·.2.nestedEntries)))
    {places : List Place} (h : ReadsAll p .nested ts places) (ds : List DeclId) :
    ((occurrencesAll ds ts).map (·.2.entry)).Perm
      (places.map Place.entry ++ (occurrencesAll ds ts).flatMap (·.2.nestedEntries)) := by
  induction ts generalizing places with
  | nil =>
    cases places with
    | nil => exact .refl _
    | cons _ _ => exact absurd h (by simp [ReadsAll])
  | cons t ts ih =>
    cases places with
    | nil => exact absurd h (by simp [ReadsAll])
    | cons place places =>
      have hhead := hts t List.mem_cons_self place ds h.1
      have htail := ih (fun u hu => hts u (List.mem_cons_of_mem _ hu)) h.2
      simp only [occurrencesAll, List.map_append, List.flatMap_append,
        List.map_cons, List.cons_append]
      refine (hhead.append htail).trans ?_
      rw [List.cons_append]
      refine List.Perm.cons _ ?_
      rw [← List.append_assoc, ← List.append_assoc]
      exact List.perm_append_comm.append_right _

/-- **The entries of a tree** are its root and whatever is nested directly in one of its labels. -/
theorem entries_perm (t : Tree) : ∀ (place : Place) (ds : List DeclId), t.Reads p .nested place →
    ((t.occurrences ds).map (·.2.entry)).Perm
      (place.entry :: (t.occurrences ds).flatMap (·.2.nestedEntries)) := by
  induction t using Tree.induct with
  | missing => intro place ds h; exact absurd h (by simp [Reads])
  | endless => intro place ds h; exact absurd h (by simp [Reads])
  | node label below ih =>
    intro place ds h
    obtain ⟨hlabel, hbelow⟩ := h
    have hall := entriesAll_perm ih hbelow (label.scopes ds)
    simp only [occurrences, List.map_cons, List.flatMap_cons, Program.entry_of_label hlabel]
    exact hall.cons _

end Tree

/-- The trees of the parts of a declaration. -/
def Program.below (p : Program) (root : DeclId) : List Tree :=
  (p.unfold .nested (.decl root)).children

/-- Everything below a declaration, each label with the scopes open around it. -/
def Program.occurrencesBelow (p : Program) (root : DeclId) : List (List DeclId × Label) :=
  Tree.occurrencesAll [] (p.below root)

/-! ## §2. How declarations are kept. -/

/-- Functions and properties can be named on an instance. -/
def Declaration.isNameable : Declaration → Bool
  | .function _ | .property _ => true
  | _ => false

namespace Program

/-- A value has this owner and this role. -/
def ValueIs (p : Program) (v : ValueId) (owner : DeclId) (kind : ValueKind) : Prop :=
  ∃ value ∈ p.values.get? v, value.owner = owner ∧ value.kind = kind

instance (p : Program) (v : ValueId) (owner : DeclId) (kind : ValueKind) :
    Decidable (p.ValueIs v owner kind) := by
  unfold ValueIs
  infer_instance

/-- Parameters belong to their callable, each at its position. -/
def BindsParams (p : Program) (d : DeclId) (params : List ValueId) : Prop :=
  ∀ x ∈ params.zipIdx, p.ValueIs x.1 d (.param x.2)

instance (p : Program) (d : DeclId) (params : List ValueId) :
    Decidable (p.BindsParams d params) := by
  unfold BindsParams
  infer_instance

section

variable {p : Program} {d d' : DeclId} {v : ValueId} {params : List ValueId}

/-- Parameters that are kept well are different values, and belong to their callable. -/
theorem BindsParams.nodup (h : p.BindsParams d params) : params.Nodup := by
  rw [List.nodup_iff_getElem?_ne_getElem?]
  intro i j hij hj heq
  rw [List.getElem?_eq_getElem hj] at heq
  obtain ⟨value, hi, -, hkind⟩ := h (params[j], i) (List.mk_mem_zipIdx_iff_getElem?.2 heq)
  obtain ⟨value', hj, -, hkind'⟩ :=
    h (params[j], j) (List.mk_mem_zipIdx_iff_getElem?.2 (List.getElem?_eq_getElem hj))
  obtain rfl := Option.mem_unique hi hj
  have := hkind.symm.trans hkind'
  simp only [ValueKind.param.injEq] at this
  omega

theorem BindsParams.valueIs (h : p.BindsParams d params) (hv : v ∈ params) :
    ∃ i, p.ValueIs v d (.param i) := by
  obtain ⟨i, hi, rfl⟩ := List.mem_iff_getElem.1 hv
  exact ⟨i, h (params[i], i) (by simp [List.mk_mem_zipIdx_iff_getElem?])⟩

theorem BindsParams.owner (h : p.BindsParams d params) (hv : v ∈ params) :
    ∃ value, p.values.get? v = some value ∧ value.owner = d := by
  obtain ⟨i, value, hvalue, howner, -⟩ := h.valueIs hv
  exact ⟨value, hvalue, howner⟩

/-- A value has one role. -/
theorem ValueIs.kind_eq (h : p.ValueIs v d kind) (h' : p.ValueIs v d' kind') : kind = kind' := by
  obtain ⟨value, hv, -, rfl⟩ := h
  obtain ⟨value', hv', -, rfl⟩ := h'
  rw [Option.mem_unique hv hv']

theorem ValueIs.owner_eq (h : p.ValueIs v d kind) (h' : p.ValueIs v d' kind') : d = d' := by
  obtain ⟨value, hv, rfl, -⟩ := h
  obtain ⟨value', hv', rfl, -⟩ := h'
  rw [Option.mem_unique hv hv']

/-- What is no parameter is none of the parameters. -/
theorem BindsParams.not_mem (h : p.BindsParams d params) (hv : p.ValueIs v d' kind)
    (hkind : ∀ i, kind ≠ .param i) : v ∉ params := by
  intro hmem
  obtain ⟨i, hi⟩ := h.valueIs hmem
  exact hkind i (hv.kind_eq hi)

end

/-- The receiver of the class that a handle leads to. -/
def receiver? (p : Program) (d : DeclId) : Option ValueId :=
  (p.decls.get? d).bind fun content => content.cls?.map (·.this)

/-- A member of the class `k`: methods are called on its receiver and are no accessors, and
constructors on the enclosing instance if there is one. -/
def MemberOf (p : Program) (k : DeclId) (c : ClassDecl) : Declaration → Prop
  | .function f => f.parent = some k ∧ f.dispatchReceiver = some c.this ∧ f.accessorOf = none
  | .constructor x => x.parent = some k
      ∧ x.dispatchReceiver = if c.isInner then c.parent.bind p.receiver? else none
  | content => content.parent = some k

instance (p : Program) (k : DeclId) (c : ClassDecl) (content : Declaration) :
    Decidable (p.MemberOf k c content) := by
  unfold MemberOf
  split <;> infer_instance

/-- An accessor of the property `q` of the class `k`. -/
def AccessorOf (k q : DeclId) (c : ClassDecl) (content : Declaration) : Prop :=
  ∃ f ∈ content.function?, f.parent = some k ∧ f.dispatchReceiver = some c.this
    ∧ f.accessorOf = some q

instance (k q : DeclId) (c : ClassDecl) (content : Declaration) :
    Decidable (AccessorOf k q c content) := by
  unfold AccessorOf
  infer_instance

/-- The backing field of a property of the class `k`. -/
def BacksIn (k : DeclId) (content : Declaration) : Prop := ∃ f ∈ content.field?, f.parent = some k

instance (k : DeclId) (content : Declaration) : Decidable (BacksIn k content) := by
  unfold BacksIn
  infer_instance

/-- A declaration is kept as building it keeps it.  Parameters and receivers belong to what binds
them, members stand in their class, what can be named on instances is among the members, and a
property has its accessors and its backing field in its own class. -/
def Kept (p : Program) (d : DeclId) : Declaration → Prop
  | .function f =>
    p.BindsParams d f.params ∧ ∀ v ∈ f.extensionReceiver, p.ValueIs v d .extensionReceiver
  | .constructor c => p.BindsParams d c.params
  | .cls c => p.ValueIs c.this d .dispatchReceiver
      ∧ (∀ m ∈ c.members, ∃ content ∈ p.decls.get? m, p.MemberOf d c content)
      ∧ ∀ m ∈ c.scope.declared, m ∈ c.members ∧ ∃ content ∈ p.decls.get? m,
      content.isNameable = true
  | .property q => ∃ k ∈ q.parent, ∃ outer ∈ p.decls.get? k, ∃ c ∈ outer.cls?,
      (∀ a ∈ q.getter.toList ++ q.setter.toList, ∃ content ∈ p.decls.get? a,
      AccessorOf k d c content)
      ∧ ∀ b ∈ q.backingField, ∃ content ∈ p.decls.get? b, BacksIn k content
  | .field _ => True

instance (p : Program) (d : DeclId) (content : Declaration) : Decidable (p.Kept d content) := by
  unfold Kept
  split <;> infer_instance

/-- The innermost callable around what stands under open scopes: one of the scopes, or the root. -/
def enclosing (p : Program) (root : DeclId) (ds : List DeclId) : DeclId :=
  (ds.find? fun d => (p.decls.get? d).any Declaration.isCallable).getD root

/-- A declaration that a statement of the callable `d` may place: a function without a receiver to
be called on, or a class. -/
def PlacedIn (d : DeclId) : Declaration → Prop
  | .function f => f.parent = some d ∧ f.dispatchReceiver = none
  | .cls c => c.parent = some d
  | _ => False

instance (d : DeclId) (content : Declaration) : Decidable (PlacedIn d content) := by
  unfold PlacedIn
  split <;> infer_instance

theorem MemberOf.parent (hm : p.MemberOf k c content) : content.parent = some k := by
  cases content with
  | function f => exact hm.1
  | constructor x => exact hm.1
  | cls x => exact hm
  | property x => exact hm
  | field x => exact hm

theorem PlacedIn.parent (hplaced : PlacedIn d content) : content.parent = some d := by
  cases content with
  | function f => exact hplaced.1
  | cls c => exact hplaced
  | constructor x => cases hplaced
  | property x => cases hplaced
  | field x => cases hplaced

/-- What stands below a root is kept well.  A statement places a declaration whose parent is the
innermost callable around it, and a class literal names a class. -/
def WellPlaced (p : Program) (root : DeclId) (ds : List DeclId) : Label → Prop
  | .expr _ (.decl d) => ∃ content ∈ p.decls.get? d, PlacedIn (p.enclosing root ds) content
  | .expr _ (.classRef k) => ∃ content ∈ p.decls.get? k, content.isClass = true
  | .expr _ _ => True
  | .decl d content => p.Kept d content
  | .backing _ content => content.field?.isSome = true

instance (p : Program) (root : DeclId) (ds : List DeclId) (label : Label) :
    Decidable (p.WellPlaced root ds label) := by
  unfold WellPlaced
  split <;> infer_instance

/-- A callable whose nesting ends, in a program whose handles all lead somewhere and whose chains of
parents end. -/
structure Unfoldable (p : Program) (root : DeclId) : Prop where
  closed : p.Closed
  chains : p.ChainsEnd
  callable : ∃ content ∈ p.decls.get? root, content.isCallable = true
  complete : (p.unfold .nested (.decl root)).complete = true

instance (p : Program) (root : DeclId) : Decidable (p.Unfoldable root) :=
  decidable_of_iff
    (p.Closed ∧ p.ChainsEnd ∧ (∃ content ∈ p.decls.get? root, content.isCallable = true)
      ∧ (p.unfold .nested (.decl root)).complete = true)
    ⟨fun h => ⟨h.1, h.2.1, h.2.2.1, h.2.2.2⟩, fun h => ⟨h.closed, h.chains, h.callable, h.complete⟩⟩

/-- A callable below which every declaration is placed once and kept well. -/
structure WellShaped (p : Program) (root : DeclId) : Prop extends Unfoldable p root where
  /-- no expression is shared and no declaration is placed twice, nor is the root placed -/
  once : (.inr root :: (p.occurrencesBelow root).map (·.2.entry)).Nodup
  placed : ∀ x ∈ p.occurrencesBelow root, p.WellPlaced root x.1 x.2

instance (p : Program) (root : DeclId) : Decidable (p.WellShaped root) :=
  decidable_of_iff
    (p.Unfoldable root ∧ (.inr root :: (p.occurrencesBelow root).map (·.2.entry)).Nodup
      ∧ ∀ x ∈ p.occurrencesBelow root, p.WellPlaced root x.1 x.2)
    ⟨fun h => ⟨h.1, h.2.1, h.2.2⟩, fun h => ⟨h.toUnfoldable, h.once, h.placed⟩⟩

/-! ## §3. One place for each entry. -/

namespace Unfoldable

variable {p : Program} {root : DeclId} (h : p.Unfoldable root)
include h

/-- The root, with the trees of its parts. -/
theorem exists_root : ∃ content, p.decls.get? root = some content ∧ content.isCallable = true
    ∧ Tree.ReadsAll p .nested (p.below root) content.parts := by
  obtain ⟨content, hroot, hcallable⟩ := h.callable
  exact ⟨content, hroot, hcallable, readsAll_parts (reads_unfoldUpTo h.complete) hroot⟩

theorem mem_iff :
    (∃ place, Occurs p root ds place ∧ p.label? place = some label)
      ↔ (ds, label) ∈ p.occurrencesBelow root := by
  obtain ⟨content, hroot, -, hts⟩ := h.exists_root
  exact Occurs.iff_mem hroot hts

/-- What stands below the root is there. -/
theorem exists_label (hocc : Occurs p root ds place) : ∃ label, p.label? place = some label := by
  cases hocc with
  | part hroot hplace =>
    have hlabel := label?_eq_decl.2 ⟨rfl, hroot⟩
    have hnested : p.Encloses .nested (.decl root) place := ⟨_, hlabel, hplace⟩
    exact h.closed.completeAt ⟨_, hlabel⟩ place (.single hnested)
  | inner _ hlabel hplace =>
    exact h.closed.completeAt ⟨_, hlabel⟩ place (.single ⟨_, hlabel, hplace⟩)

/-- The closures of a root, if what is declared below it is local. -/
theorem closures (hlocal : ∀ d, Opens p root d → p.isLocal d = .ok true) :
    ∃ cl events, p.closures root = .ok (cl, events)
      ∧ (∀ d, d ∈ OrderedMap.keys cl ↔ Opens p root d) ∧ ∀ d v, cl.Holds d v
      ↔ Captured p root d v := by
  obtain ⟨content, hroot, -, hts⟩ := h.exists_root
  exact closures_spec h.closed h.chains hroot hts hlocal

end Unfoldable

namespace WellShaped

variable {p : Program} {root : DeclId} (h : p.WellShaped root)
include h

theorem wellPlaced (hocc : Occurs p root ds place) (hlabel : p.label? place = some label) :
    p.WellPlaced root ds label :=
  h.placed _ (h.mem_iff.1 ⟨place, hocc, hlabel⟩)

/-- An entry stands in one place, under the same scopes. -/
theorem unique (hocc : Occurs p root ds place) (hocc' : Occurs p root ds' place')
    (hentry : place.entry = place'.entry) : ds = ds' ∧ place = place' := by
  obtain ⟨label, hlabel⟩ := h.exists_label hocc
  obtain ⟨label', hlabel'⟩ := h.exists_label hocc'
  have hinj :=
    List.inj_on_of_nodup_map (List.nodup_cons.1 h.once).2 (h.mem_iff.1 ⟨place, hocc, hlabel⟩)
    (h.mem_iff.1 ⟨place', hocc', hlabel'⟩) (by
      rw [entry_of_label hlabel, entry_of_label hlabel', hentry])
  obtain ⟨rfl, rfl⟩ := Prod.mk.inj hinj
  refine ⟨rfl, ?_⟩
  cases label with
  | expr e node => rw [(label?_eq_expr.1 hlabel).1, (label?_eq_expr.1 hlabel').1]
  | decl d content => rw [(label?_eq_decl.1 hlabel).1, (label?_eq_decl.1 hlabel').1]
  | backing d content => rw [(label?_eq_backing.1 hlabel).1, (label?_eq_backing.1 hlabel').1]

/-- The root does not stand below itself. -/
theorem entry_ne_root (hocc : Occurs p root ds place) : place.entry ≠ .inr root := by
  intro heq
  obtain ⟨label, hlabel⟩ := h.exists_label hocc
  refine (List.nodup_cons.1 h.once).1 (List.mem_map.2 ⟨_, h.mem_iff.1 ⟨place, hocc, hlabel⟩, ?_⟩)
  rw [entry_of_label hlabel, heq]

/-- What is nested in labels below the root is nested there once. -/
theorem nodup_nested : ((p.occurrencesBelow root).flatMap (·.2.nestedEntries)).Nodup := by
  obtain ⟨content, -, -, hts⟩ := h.exists_root
  have hperm := Tree.entriesAll_perm (fun t _ => Tree.entries_perm t) hts []
  exact (List.nodup_append.1 (hperm.nodup_iff.1 (List.nodup_cons.1 h.once).2)).2.1

theorem nestedEntries_nodup (hocc : Occurs p root ds outer) (hlabel : p.label? outer = some label) :
    label.nestedEntries.Nodup :=
  (List.nodup_flatMap.1 h.nodup_nested).1 _ (h.mem_iff.1 ⟨outer, hocc, hlabel⟩)

/-- An entry is nested directly in one label. -/
theorem unique_outer {outer' : Place} {label' : Label} (hocc : Occurs p root ds outer)
    (hlabel : p.label? outer = some label) (hplace : place ∈ label.places .nested)
    (hocc' : Occurs p root ds' outer') (hlabel' : p.label? outer' = some label')
    (hplace' : place' ∈ label'.places .nested) (hentry : place.entry = place'.entry) :
    label = label' := by
  have hmem := h.mem_iff.1 ⟨outer, hocc, hlabel⟩
  have hmem' := h.mem_iff.1 ⟨outer', hocc', hlabel'⟩
  have hsymm :
      Std.Symm (Function.onFun List.Disjoint fun x : List DeclId × Label => x.2.nestedEntries) :=
    ⟨fun _ _ hd => hd.symm⟩
  by_contra hne
  have hdisjoint := (List.nodup_flatMap.1 h.nodup_nested).2.forall hmem hmem' fun heq =>
    hne (congrArg Prod.snd heq)
  refine hdisjoint (List.mem_map_of_mem hplace) ?_
  rw [hentry]
  exact List.mem_map_of_mem hplace'

/-- A part of the root is nested in nothing below it. -/
theorem part_not_nested (hroot : p.decls.get? root = some content) (hplace : place ∈ content.parts)
    (hocc : Occurs p root ds outer) (hlabel : p.label? outer = some label)
    (hplace' : place' ∈ label.places .nested) : place.entry ≠ place'.entry := by
  obtain ⟨content', hroot', -, hts⟩ := h.exists_root
  obtain rfl := Option.mem_unique hroot hroot'
  have hperm := Tree.entriesAll_perm (fun t _ => Tree.entries_perm t) hts []
  have hdisjoint := (List.nodup_append.1 (hperm.nodup_iff.1 (List.nodup_cons.1 h.once).2)).2.2
  exact hdisjoint _ (List.mem_map_of_mem hplace) _
    (List.mem_flatMap.2 ⟨_, h.mem_iff.1 ⟨outer, hocc, hlabel⟩, List.mem_map_of_mem hplace'⟩)

omit h in
/-- The innermost callable is the root or one of the scopes. -/
theorem enclosing_cases (ds : List DeclId) : p.enclosing root ds = root
    ∨ p.enclosing root ds ∈ ds ∧ ∃ content, p.decls.get? (p.enclosing root ds) = some content
      ∧ content.isCallable = true := by
  unfold enclosing
  cases hfind : ds.find? fun d => (p.decls.get? d).any Declaration.isCallable with
  | none => exact .inl rfl
  | some d =>
    have hcallable := List.find?_some hfind
    rw [Option.any_eq_true] at hcallable
    exact .inr ⟨List.mem_of_find?_eq_some hfind, hcallable⟩

/-- The innermost callable is a callable. -/
theorem enclosing_callable (ds : List DeclId) :
    ∃ content, p.decls.get? (p.enclosing root ds) = some content ∧ content.isCallable = true := by
  rcases @enclosing_cases p root ds with heq | ⟨-, hcallable⟩
  · rw [heq]
    obtain ⟨content, hroot, hcallable⟩ := h.callable
    exact ⟨content, hroot, hcallable⟩
  · exact hcallable

end WellShaped

/-! ## §4. The ways to stand below a root. -/

/-- How something stands in what is directly around it: as code, placed by a statement, or as a
member of a class, an accessor of a property or its backing field. -/
inductive StandsIn (p : Program) : (outer place : Place) → Prop
  | code {outer : Place} {e : ExprId} : StandsIn p outer (.expr e)
  | placed {e : ExprId} {d : DeclId} : p.exprs.get? e = some (.decl d) →
      StandsIn p (.expr e) (.decl d)
  | member {k m : DeclId} {c : ClassDecl} : p.decls.get? k = some (.cls c) → m ∈ c.members →
      StandsIn p (.decl k) (.decl m)
  | accessor {q a : DeclId} {x : PropertyDecl} : p.decls.get? q = some (.property x) →
      a ∈ x.getter.toList ++ x.setter.toList → StandsIn p (.decl q) (.decl a)
  | backing {q b : DeclId} {x : PropertyDecl} : p.decls.get? q = some (.property x) →
      b ∈ x.backingField →
      StandsIn p (.decl q) (.backing b)

/-- How something stands below a root, with the scopes open around it. -/
inductive Standing (p : Program) (root : DeclId) : List DeclId → Place → Prop
  | code {ds : List DeclId} {e : ExprId} : Standing p root ds (.expr e)
  | placed {ds : List DeclId} {e : ExprId} {d : DeclId} : Occurs p root ds (.expr e) →
      p.exprs.get? e = some (.decl d) → Standing p root ds (.decl d)
  | member {ds : List DeclId} {k m : DeclId} {c : ClassDecl} : Occurs p root ds (.decl k) →
      p.decls.get? k = some (.cls c) → m ∈ c.members → Standing p root (k :: ds) (.decl m)
  | accessor {ds : List DeclId} {q a : DeclId} {x : PropertyDecl} : Occurs p root ds (.decl q) →
      p.decls.get? q = some (.property x) → a ∈ x.getter.toList ++ x.setter.toList →
      Standing p root ds (.decl a)
  | backing {ds : List DeclId} {q b : DeclId} {x : PropertyDecl} : Occurs p root ds (.decl q) →
      p.decls.get? q = some (.property x) → b ∈ x.backingField → Standing p root ds (.backing b)

namespace WellShaped

variable {p : Program} {root : DeclId} (h : p.WellShaped root)
include h

theorem standsIn_root (hroot : p.decls.get? root = some content) (hplace : place ∈ content.parts) :
    ∃ e, place = .expr e := by
  obtain ⟨content', hroot', hcallable⟩ := h.callable
  obtain rfl := Option.mem_unique hroot hroot'
  cases content with
  | function f =>
    obtain ⟨e, -, rfl⟩ := List.mem_map.1 hplace
    exact ⟨e, rfl⟩
  | constructor c =>
    obtain ⟨e, -, rfl⟩ := List.mem_map.1 hplace
    exact ⟨e, rfl⟩
  | _ => cases hcallable

theorem standsIn (hocc : Occurs p root ds outer) (hlabel : p.label? outer = some label)
    (hplace : place ∈ label.places .nested) : StandsIn p outer place := by
  have hwell := h.wellPlaced hocc hlabel
  cases label with
  | expr e node =>
    obtain ⟨rfl, hnode⟩ := label?_eq_expr.1 hlabel
    cases node with
    | decl d =>
      obtain rfl : place = .decl d := by simpa [Label.places] using hplace
      exact .placed hnode
    | _ =>
      obtain ⟨e', -, rfl⟩ := List.mem_map.1 hplace
      exact .code
  | decl d content =>
    obtain ⟨rfl, hd⟩ := label?_eq_decl.1 hlabel
    cases content with
    | function f =>
      obtain ⟨e, -, rfl⟩ := List.mem_map.1 hplace
      exact .code
    | constructor c =>
      obtain ⟨e, -, rfl⟩ := List.mem_map.1 hplace
      exact .code
    | cls c =>
      obtain ⟨m, hm, rfl⟩ := List.mem_map.1 hplace
      exact .member hd hm
    | property x =>
      rcases List.mem_append.1 hplace with hplace | hplace
      · obtain ⟨a, ha, rfl⟩ := List.mem_map.1 hplace
        exact .accessor hd ha
      · obtain ⟨b, hb, rfl⟩ := List.mem_map.1 hplace
        exact .backing hd (by simpa using hb)
    | field f =>
      obtain ⟨e, -, rfl⟩ := List.mem_map.1 hplace
      exact .code
  | backing d content =>
    cases content with
    | field f =>
      obtain ⟨e, -, rfl⟩ := List.mem_map.1 hplace
      exact .code
    | _ => cases hwell

/-- **Everything below a root stands in one of five ways.** -/
theorem standing (hocc : Occurs p root ds place) : Standing p root ds place := by
  cases hocc with
  | part hroot hplace =>
    obtain ⟨e, rfl⟩ := h.standsIn_root hroot hplace
    exact .code
  | @inner ds outer place label hocc hlabel hplace =>
    cases h.standsIn hocc hlabel hplace with
    | code => exact .code
    | placed he =>
      obtain rfl := Option.some.inj (hlabel.symm.trans (label?_eq_expr.2 ⟨rfl, he⟩))
      exact .placed hocc he
    | member hk hm =>
      obtain rfl := Option.some.inj (hlabel.symm.trans (label?_eq_decl.2 ⟨rfl, hk⟩))
      exact .member hocc hk hm
    | accessor hq ha =>
      obtain rfl := Option.some.inj (hlabel.symm.trans (label?_eq_decl.2 ⟨rfl, hq⟩))
      exact .accessor hocc hq ha
    | backing hq hb =>
      obtain rfl := Option.some.inj (hlabel.symm.trans (label?_eq_decl.2 ⟨rfl, hq⟩))
      exact .backing hocc hq hb

/-- A declaration below the root, and how it is kept. -/
theorem exists_kept (hocc : Occurs p root ds (.decl d)) :
    ∃ content, p.decls.get? d = some content ∧ p.Kept d content := by
  obtain ⟨label, hlabel⟩ := h.exists_label hocc
  obtain ⟨content, hd, rfl⟩ := Option.map_eq_some_iff.1 hlabel
  exact ⟨content, hd, h.wellPlaced hocc hlabel⟩

theorem kept (hocc : Occurs p root ds (.decl d)) (hd : p.decls.get? d = some content) :
    p.Kept d content := by
  obtain ⟨content', hd', hkept⟩ := h.exists_kept hocc
  rwa [Option.mem_unique hd hd']

/-- What a statement places. -/
theorem placedIn (hocc : Occurs p root ds (.expr e)) (he : p.exprs.get? e = some (.decl d)) :
    ∃ content, p.decls.get? d = some content ∧ PlacedIn (p.enclosing root ds) content :=
  h.wellPlaced hocc (label?_eq_expr.2 ⟨rfl, he⟩)

theorem memberOf (hocc : Occurs p root ds (.decl k)) (hk : p.decls.get? k = some (.cls c))
    (hm : m ∈ c.members) : ∃ content, p.decls.get? m = some content ∧ p.MemberOf k c content :=
  (h.kept hocc hk).2.1 m hm

/-- The class of a property below the root, with its accessors and its backing field. -/
theorem property_cls (hocc : Occurs p root ds (.decl q))
    (hq : p.decls.get? q = some (.property x)) :
    ∃ k c, x.parent = some k ∧ p.decls.get? k = some (.cls c)
      ∧ (∀ a ∈ x.getter.toList ++ x.setter.toList, ∃ content, p.decls.get? a = some content
        ∧ AccessorOf k q c content)
      ∧ ∀ b ∈ x.backingField, ∃ content, p.decls.get? b = some content ∧ BacksIn k content := by
  obtain ⟨k, hk, outer, houter, c, hc, haccessors, hbacking⟩ := h.kept hocc hq
  refine ⟨k, c, hk, ?_, haccessors, hbacking⟩
  cases outer with
  | cls c' =>
    cases hc
    exact houter
  | _ => cases hc

/-- **The ancestors of what stands below a root.**  The scopes around it and every declaration have
the root as an ancestor. -/
theorem under_root (hocc : Occurs p root ds place) :
    (∀ x ∈ ds, Relation.TransGen p.Parent x root)
      ∧ ∀ d, place.entry = .inr d → Relation.TransGen p.Parent d root := by
  induction hocc with
  | part hroot hplace =>
    obtain ⟨e, rfl⟩ := h.standsIn_root hroot hplace
    constructor
    · intro x hx
      cases hx
    · intro d hentry
      cases hentry
  | @inner ds outer place label hocc hlabel hplace ih =>
    obtain ⟨hscopes, hdecl⟩ := ih
    constructor
    · intro x hx
      rcases List.mem_append.1 hx with hx | hx
      · obtain ⟨content, hopened⟩ : ∃ content,
            label.opened? = some (x, content) := by simpa using hx
        exact hdecl x ((entry_of_label hlabel).symm.trans (Label.entry_of_opened hopened))
      · exact hscopes x hx
    · intro d hentry
      -- the class of a property is an ancestor of the property, or the other way to the root fails
      have hclass : ∀ {q k x}, outer = .decl q →
          p.decls.get? q = some (.property x) → x.parent = some k →
          Relation.ReflTransGen p.Parent k root := by
        intro q k x houter hq hk
        obtain ⟨b, ⟨content, hq', hb⟩, hrest⟩ :=
          Relation.TransGen.head'_iff.1 (hdecl q (by rw [houter]; rfl))
        obtain rfl := Option.mem_unique hq hq'
        obtain rfl := Option.mem_unique hk hb
        exact hrest
      cases h.standsIn hocc hlabel hplace with
      | code => cases hentry
      | placed he =>
        obtain rfl := Sum.inr.inj hentry
        obtain ⟨content, hd, hplaced⟩ := h.placedIn hocc he
        have hstep : p.Parent _ _ := ⟨content, hd, hplaced.parent⟩
        rcases @enclosing_cases p root ds with heq | ⟨hmem, -⟩
        · exact .single (heq ▸ hstep)
        · exact .head hstep (hscopes _ hmem)
      | member hk hm =>
        obtain rfl := Sum.inr.inj hentry
        obtain ⟨content, hd, hmember⟩ := h.memberOf hocc hk hm
        exact .head ⟨content, hd, hmember.parent⟩ (hdecl _ rfl)
      | accessor hq ha =>
        obtain rfl := Sum.inr.inj hentry
        obtain ⟨k, c, hk, -, haccessors, -⟩ := h.property_cls hocc hq
        obtain ⟨content, hd, f, hf, hparent, -⟩ := haccessors _ ha
        have hstep : p.Parent _ k := ⟨content, hd, by cases content <;> cases hf; exact hparent⟩
        exact Relation.TransGen.head' hstep (hclass rfl hq hk)
      | backing hq hb =>
        obtain rfl := Sum.inr.inj hentry
        obtain ⟨k, c, hk, -, -, hbacking⟩ := h.property_cls hocc hq
        obtain ⟨content, hd, f, hf, hparent⟩ := hbacking _ hb
        have hstep : p.Parent _ k := ⟨content, hd, by cases content <;> cases hf; exact hparent⟩
        exact Relation.TransGen.head' hstep (hclass rfl hq hk)

/-- Everything declared below a root is local. -/
theorem isLocal (hocc : Occurs p root ds place) (hd : place.entry = .inr d) :
    p.isLocal d = .ok true := by
  obtain ⟨content, hroot, hcallable⟩ := h.callable
  exact h.chains.isLocal ((h.under_root hocc).2 d hd) hroot hcallable

theorem isLocal_of_opens (d : DeclId) (hopens : Opens p root d) : p.isLocal d = .ok true := by
  obtain ⟨ds, place, label, content, hocc, hlabel, hopened⟩ := hopens
  exact h.isLocal hocc ((entry_of_label hlabel).symm.trans (Label.entry_of_opened hopened))

/-- What a statement places is no member. -/
theorem isMember_placed (hocc : Occurs p root ds (.expr e)) (he : p.exprs.get? e = some (.decl d)) :
    p.isMember d = .ok false := by
  obtain ⟨content, hd, hplaced⟩ := h.placedIn hocc he
  obtain ⟨outer, houter, hcallable⟩ := h.enclosing_callable ds
  rw [isMember_of_parent hd hplaced.parent houter]
  cases outer with
  | function f => rfl
  | constructor c => rfl
  | _ => cases hcallable

theorem isMember_member (hocc : Occurs p root ds (.decl k)) (hk : p.decls.get? k = some (.cls c))
    (hm : m ∈ c.members) : p.isMember m = .ok true := by
  obtain ⟨content, hd, hmember⟩ := h.memberOf hocc hk hm
  rw [isMember_of_parent hd hmember.parent hk]
  rfl

theorem isMember_accessor {a : DeclId} (hocc : Occurs p root ds (.decl q))
    (hq : p.decls.get? q = some (.property x)) (ha : a ∈ x.getter.toList ++ x.setter.toList) :
    p.isMember a = .ok true := by
  obtain ⟨k, c, -, hk, haccessors, -⟩ := h.property_cls hocc hq
  obtain ⟨content, hd, f, hf, hparent, -⟩ := haccessors a ha
  have hparent' : content.parent = some k := by
    cases content <;> cases hf
    exact hparent
  rw [isMember_of_parent hd hparent' hk]
  rfl

end WellShaped

end Program

end LambdaLift
