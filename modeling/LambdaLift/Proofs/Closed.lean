/-
  LambdaLift.Proofs.Closed
  **PROGRAMS WHOSE HANDLES ALL LEAD SOMEWHERE.**

  A program is closed when every handle that occurs anywhere in it has an
  entry.  In a closed program whose chains of parents end, no question
  about names, owners or ancestors can fault; the lemmas here say what each
  of them answers.
-/
import Mathlib
import LambdaLift.Scope
import LambdaLift.Proofs.Unfolding

namespace LambdaLift

variable {p : Program} {d x : DeclId} {e : ExprId} {v : ValueId} {content : Declaration}
  {node : Expr} {fuel : Nat} {value : Value}

/-! ## §1. The handles that an entry names. -/

mutual
/-- The classes that a type names. -/
def Ty.classes : Ty → List DeclId
  | .unit | .int | .bool | .str | .param _ => []
  | .cls d => [d]
  | .fn params ret => classesAll params ++ ret.classes
/-- The classes that types name. -/
def Ty.classesAll : List Ty → List DeclId
  | [] => []
  | ty :: tys => ty.classes ++ classesAll tys
end

/-- The declarations that a node names. -/
def Expr.namedDecls : Expr → List DeclId
  | .decl d => [d]
  | .access _ a => a.callee :: Ty.classesAll a.typeArgs
  | .getField field _ => [field]
  | .setField field _ _ => [field]
  | .ret target _ => [target]
  | .delegated _ _ accessors => accessors
  | .classRef cls => [cls]
  | _ => []

/-- The values that a node names. -/
def Expr.namedValues (node : Expr) : List ValueId := node.used?.toList ++ node.bound?.toList

/-- The declarations that a declaration names. -/
def Declaration.namedDecls (content : Declaration) : List DeclId :=
  content.parent.toList ++ match content with
    | .function f => f.ret.classes ++ f.accessorOf.toList ++ f.overrides
    | .constructor _ => []
    | .cls c => Ty.classesAll c.supertypes ++ c.members ++ c.scope.declared ++ c.scope.inherited
    | .property q =>
      q.ty.classes ++ q.backingField.toList ++ q.getter.toList ++ q.setter.toList ++ q.overrides
    | .field f => f.ty.classes

/-- The values that a declaration names. -/
def Declaration.namedValues (content : Declaration) : List ValueId :=
  content.dispatchReceiver.toList ++ content.extensionReceiver.toList ++ content.params
    ++ (content.cls?.map (·.this)).toList

namespace Arena

variable {kind : Entity} {α : Type}

theorem mem_entries_of_get? {a : Arena kind α} {h : Handle kind} {x : α} (hx : a.get? h = some x) :
    x ∈ a.entries.toList := by
  obtain ⟨hlt, rfl⟩ := Array.getElem?_eq_some_iff.1 hx
  exact Array.mem_toList_iff.2 (Array.getElem_mem hlt)

theorem lt_size_of_get? {a : Arena kind α} {h : Handle kind} {x : α} (hx : a.get? h = some x) :
    h.index < a.size :=
  (a.get?_isSome_iff h).1 (by simp [hx])

theorem exists_get?_of_lt {a : Arena kind α} {h : Handle kind} (hlt : h.index < a.size) :
    ∃ x, a.get? h = some x :=
  Option.isSome_iff_exists.1 ((a.get?_isSome_iff h).2 hlt)

end Arena

/-- Different positions below a bound are no more than the bound. -/
theorem Handle.length_le_of_nodup {kind : Entity} {hs : List (Handle kind)} {n : Nat}
    (hnodup : hs.Nodup) (hlt : ∀ h ∈ hs, h.index < n) : hs.length ≤ n := by
  have hindices : hs.map Handle.index ⊆ List.range n := by
    intro i hi
    obtain ⟨h, hh, rfl⟩ := List.mem_map.1 hi
    exact List.mem_range.2 (hlt h hh)
  have hdistinct : (hs.map Handle.index).Nodup := hnodup.map fun ⟨_⟩ ⟨_⟩ h => congrArg Handle.mk h
  simpa using (hdistinct.subperm hindices).length_le

/-! ## §2. Closed programs. -/

namespace Program

/-- Every handle that occurs anywhere in the program has an entry. -/
def Closed (p : Program) : Prop :=
  (∀ content ∈ p.decls.entries.toList, (∀ d ∈ content.namedDecls, d.index < p.decls.size)
    ∧ (∀ v ∈ content.namedValues, v.index < p.values.size)
    ∧ ∀ e ∈ content.code.toList, e.index < p.exprs.size)
  ∧ (∀ value ∈ p.values.entries.toList, value.owner.index < p.decls.size
    ∧ ∀ d ∈ value.ty.classes, d.index < p.decls.size)
  ∧ (∀ node ∈ p.exprs.entries.toList, (∀ d ∈ node.namedDecls, d.index < p.decls.size)
    ∧ (∀ v ∈ node.namedValues, v.index < p.values.size)
    ∧ ∀ e ∈ node.operands, e.index < p.exprs.size)
  ∧ ∀ d ∈ p.top, d.index < p.decls.size

instance (p : Program) : Decidable p.Closed := by
  unfold Closed
  infer_instance

/-- Every chain of parents ends at module level. -/
def ChainsEnd (p : Program) : Prop := ∀ i < p.decls.size, (p.chain ⟨i⟩).ending = .atModule

instance (p : Program) : Decidable p.ChainsEnd := by
  unfold ChainsEnd
  infer_instance

variable {p : Program}

theorem decl_eq_ok : p.decl d = .ok content ↔ p.decls.get? d = some content := by
  unfold decl Arena.lookup
  cases p.decls.get? d <;> simp

theorem value_eq_ok : p.value v = .ok value ↔ p.values.get? v = some value := by
  unfold Program.value Arena.lookup
  cases p.values.get? v <;> simp

theorem expr_eq_ok : p.expr e = .ok node ↔ p.exprs.get? e = some node := by
  unfold expr Arena.lookup
  cases p.exprs.get? e <;> simp

namespace Closed

variable (hp : p.Closed)
include hp

/-- What a declaration names is there. -/
theorem exists_decl (hd : p.decls.get? d = some content) (hx : x ∈ content.namedDecls) :
    ∃ c, p.decls.get? x = some c :=
  Arena.exists_get?_of_lt ((hp.1 content (Arena.mem_entries_of_get? hd)).1 x hx)

theorem exists_value (hd : p.decls.get? d = some content) (hv : v ∈ content.namedValues) :
    ∃ x, p.values.get? v = some x :=
  Arena.exists_get?_of_lt ((hp.1 content (Arena.mem_entries_of_get? hd)).2.1 v hv)

theorem exists_code (hd : p.decls.get? d = some content) (he : content.code = some e) :
    ∃ x, p.exprs.get? e = some x :=
  Arena.exists_get?_of_lt ((hp.1 content (Arena.mem_entries_of_get? hd)).2.2 e (by simp [he]))

theorem exists_parent {parent : DeclId} (hd : p.decls.get? d = some content)
    (hparent : content.parent = some parent) : ∃ c, p.decls.get? parent = some c :=
  hp.exists_decl hd (by simp [Declaration.namedDecls, hparent])

/-- The owner of a value is there. -/
theorem exists_owner (hv : p.values.get? v = some value) : ∃ c, p.decls.get? value.owner = some c :=
  Arena.exists_get?_of_lt (hp.2.1 value (Arena.mem_entries_of_get? hv)).1

theorem exists_decl_of_expr (he : p.exprs.get? e = some node) (hd : d ∈ node.namedDecls) :
    ∃ c, p.decls.get? d = some c :=
  Arena.exists_get?_of_lt ((hp.2.2.1 node (Arena.mem_entries_of_get? he)).1 d hd)

theorem exists_value_of_expr (he : p.exprs.get? e = some node) (hv : v ∈ node.namedValues) :
    ∃ x, p.values.get? v = some x :=
  Arena.exists_get?_of_lt ((hp.2.2.1 node (Arena.mem_entries_of_get? he)).2.1 v hv)

/-- In a closed program everything nested anywhere is there. -/
theorem completeAt {reach : Reach} {start : Place} (hstart : ∃ label, p.label? start = some label) :
    p.CompleteAt reach start := by
  intro place hplace
  induction hplace with
  | refl => exact hstart
  | @tail a b _ hstep _ =>
    obtain ⟨label, hlabel, hb⟩ := hstep
    -- what a declaration has as parts it names
    have parts : ∀ {d : DeclId} {content : Declaration}, p.decls.get? d = some content →
        b ∈ content.parts → ∃ label, p.label? b = some label := by
      intro d content hd hb
      cases content with
      | function f =>
        obtain ⟨e, he, rfl⟩ := List.mem_map.1 hb
        obtain ⟨x, hx⟩ := hp.exists_code hd (e := e) (by simpa [Declaration.code] using he)
        exact ⟨.expr e x, by simp [label?, hx]⟩
      | constructor c =>
        obtain ⟨e, he, rfl⟩ := List.mem_map.1 hb
        obtain ⟨x, hx⟩ := hp.exists_code hd (e := e) (by simpa [Declaration.code] using he)
        exact ⟨.expr e x, by simp [label?, hx]⟩
      | cls c =>
        obtain ⟨m, hm, rfl⟩ := List.mem_map.1 hb
        obtain ⟨x, hx⟩ := hp.exists_decl hd (x := m) (by simp [Declaration.namedDecls, hm])
        exact ⟨.decl m x, by simp [label?, hx]⟩
      | property q =>
        rcases List.mem_append.1 hb with hb | hb
        · obtain ⟨m, hm, rfl⟩ := List.mem_map.1 hb
          obtain ⟨x, hx⟩ := hp.exists_decl hd (x := m) (by
            rcases List.mem_append.1 hm with hm | hm <;> simp_all [Declaration.namedDecls])
          exact ⟨.decl m x, by simp [label?, hx]⟩
        · obtain ⟨m, hm, rfl⟩ := List.mem_map.1 hb
          obtain ⟨x, hx⟩ := hp.exists_decl hd (x := m) (by simp_all [Declaration.namedDecls])
          exact ⟨.backing m x, by simp [label?, hx]⟩
      | field f =>
        obtain ⟨e, he, rfl⟩ := List.mem_map.1 hb
        obtain ⟨x, hx⟩ := hp.exists_code hd (e := e) (by simpa [Declaration.code] using he)
        exact ⟨.expr e x, by simp [label?, hx]⟩
    cases a with
    | expr e =>
      obtain ⟨node, hnode, rfl⟩ := Option.map_eq_some_iff.1 hlabel
      have operands : ∀ {es : List ExprId}, es = node.operands → b ∈ es.map Place.expr →
          ∃ label, p.label? b = some label := by
        intro es hes hb
        obtain ⟨e', he', rfl⟩ := List.mem_map.1 hb
        obtain ⟨x, hx⟩ := Arena.exists_get?_of_lt
          ((hp.2.2.1 node (Arena.mem_entries_of_get? hnode)).2.2 e' (hes ▸ he'))
        exact ⟨.expr e' x, by simp [label?, hx]⟩
      cases node with
      | decl d =>
        simp only [Label.places] at hb
        split at hb
        · obtain rfl := List.mem_singleton.1 hb
          obtain ⟨x, hx⟩ := hp.exists_decl_of_expr hnode (d := d) (by simp [Expr.namedDecls])
          exact ⟨.decl d x, by simp [label?, hx]⟩
        · cases hb
      | _ => exact operands rfl hb
    | decl d =>
      obtain ⟨content, hcontent, rfl⟩ := Option.map_eq_some_iff.1 hlabel
      exact parts hcontent hb
    | backing d =>
      obtain ⟨content, hcontent, rfl⟩ := Option.map_eq_some_iff.1 hlabel
      exact parts hcontent hb

end Closed

/-! ## §3. Owners, parents and ancestors. -/

theorem owner_of_get? (hv : p.values.get? v = some value) : p.owner v = .ok value.owner := by
  simp only [owner, value_eq_ok.2 hv]
  rfl

theorem parent_of_get? (hd : p.decls.get? d = some content) : p.parent d = .ok content.parent := by
  simp only [parent, decl_eq_ok.2 hd]
  rfl

theorem isClass_of_get? (hd : p.decls.get? d = some content) :
    p.isClass d = .ok content.isClass := by
  simp only [isClass, decl_eq_ok.2 hd]
  rfl

theorem ChainsEnd.ending (hp : p.ChainsEnd) (hd : p.decls.get? d = some content) :
    (p.chain d).ending = .atModule :=
  hp d.index (Arena.lt_size_of_get? hd)

/-- A question about a chain that ends has an answer. -/
theorem Chain.any_of_ending {c : Chain} (hc : c.ending = .atModule)
    (test : DeclId → Declaration → Bool) :
    c.any test = .ok (c.scopes.any fun s => test s.1 s.2) := by
  unfold Chain.any
  rw [hc]
  cases c.scopes.any fun s => test s.1 s.2 <;> rfl

theorem isLocal_of_ending (hd : (p.chain d).ending = .atModule) :
    p.isLocal d = .ok ((p.chain d).scopes.tail.any fun s => s.2.isCallable) :=
  Chain.any_of_ending (c := (p.chain d).tail) hd _

/-- A declaration names another as its parent. -/
def Parent (p : Program) (d outer : DeclId) : Prop :=
  ∃ content, p.decls.get? d = some content ∧ content.parent = some outer

/-- A chain that ends runs through all ancestors. -/
theorem mem_chainFrom (hend : (p.chainFrom fuel (some d)).ending = .atModule)
    (hx : Relation.ReflTransGen p.Parent d x) :
    ∃ content, p.decls.get? x = some content
      ∧ (x, content) ∈ (p.chainFrom fuel (some d)).scopes := by
  induction hx using Relation.ReflTransGen.head_induction_on generalizing fuel with
  | refl =>
    cases fuel with
    | zero => cases hend
    | succ fuel =>
      unfold chainFrom at hend ⊢
      cases hd : p.decls.get? x with
      | none => simp [hd] at hend
      | some content => exact ⟨content, rfl, by simp⟩
  | @head d outer hstep _ ih =>
    obtain ⟨content, hd, hparent⟩ := hstep
    cases fuel with
    | zero => cases hend
    | succ fuel =>
      simp only [chainFrom, hd, hparent] at hend ⊢
      obtain ⟨xc, hxc, hmem⟩ := ih hend
      exact ⟨xc, hxc, List.mem_cons_of_mem _ hmem⟩

/-- A chain runs through ancestors only. -/
theorem parents_of_mem_chainFrom (hx : (x, content) ∈ (p.chainFrom fuel (some d)).scopes) :
    Relation.ReflTransGen p.Parent d x ∧ p.decls.get? x = some content := by
  induction fuel generalizing d with
  | zero => cases hx
  | succ fuel ih =>
    unfold chainFrom at hx
    cases hd : p.decls.get? d with
    | none => simp [hd] at hx
    | some c =>
      simp only [hd] at hx
      rcases List.mem_cons.1 hx with heq | hx
      · cases heq
        exact ⟨.refl, hd⟩
      · cases hparent : c.parent with
        | none => simp [hparent, chainFrom] at hx
        | some outer =>
          rw [hparent] at hx
          obtain ⟨hpath, hcontent⟩ := ih hx
          exact ⟨.head ⟨c, hd, hparent⟩ hpath, hcontent⟩

/-- A chain that does not end where its ancestors are all there is as long as the fuel allows. -/
theorem length_chainFrom
    (hthere : ∀ x, Relation.ReflTransGen p.Parent d x → ∃ content, p.decls.get? x = some content)
    (fuel : Nat) :
    (p.chainFrom fuel (some d)).ending = .atModule
      ∨ (p.chainFrom fuel (some d)).scopes.length = fuel := by
  induction fuel generalizing d with
  | zero => exact .inr rfl
  | succ fuel ih =>
    obtain ⟨c, hd⟩ := hthere d .refl
    unfold chainFrom
    simp only [hd, List.length_cons]
    cases hparent : c.parent with
    | none => exact .inl (by unfold chainFrom; rfl)
    | some outer =>
      have := ih fun x hx => hthere x (.head ⟨c, hd, hparent⟩ hx)
      exact this.imp_right (congrArg (· + 1))

theorem nodup_chainFrom
    (hacyclic : ∀ x, Relation.ReflTransGen p.Parent d x → ¬ Relation.TransGen p.Parent x x)
    (fuel : Nat) : ((p.chainFrom fuel (some d)).scopes.map Prod.fst).Nodup := by
  induction fuel generalizing d with
  | zero => exact .nil
  | succ fuel ih =>
    unfold chainFrom
    cases hd : p.decls.get? d with
    | none => exact .nil
    | some c =>
      simp only [List.map_cons, List.nodup_cons]
      cases hparent : c.parent with
      | none => simp [chainFrom]
      | some outer =>
        have hstep : p.Parent d outer := ⟨c, hd, hparent⟩
        refine ⟨fun hmem => ?_, ih fun x hx => hacyclic x (.head hstep hx)⟩
        obtain ⟨⟨x, content⟩, hx, rfl⟩ := List.mem_map.1 hmem
        exact hacyclic x .refl (.head' hstep (parents_of_mem_chainFrom hx).1)

/-- **A chain ends** if all ancestors are there and none of them is its own ancestor: they are
different entries, so there are no more of them than the chain is followed to. -/
theorem chain_ends
    (hthere : ∀ x, Relation.ReflTransGen p.Parent d x → ∃ content, p.decls.get? x = some content)
    (hacyclic : ∀ x, Relation.ReflTransGen p.Parent d x → ¬ Relation.TransGen p.Parent x x) :
    (p.chain d).ending = .atModule := by
  refine (length_chainFrom hthere (p.decls.size + 1)).resolve_right fun hlength => ?_
  have hle :
      ((p.chainFrom (p.decls.size + 1) (some d)).scopes.map Prod.fst).length ≤ p.decls.size :=
    Handle.length_le_of_nodup (nodup_chainFrom hacyclic _) fun x hx => by
      obtain ⟨⟨y, content⟩, hy, rfl⟩ := List.mem_map.1 hx
      exact Arena.lt_size_of_get? (parents_of_mem_chainFrom hy).2
  rw [List.length_map, hlength] at hle
  omega

/-- Where chains end, no declaration is its own ancestor. -/
theorem ChainsEnd.acyclic (hp : p.ChainsEnd) (d : DeclId) : ¬ Relation.TransGen p.Parent d d := by
  intro hcycle
  obtain ⟨outer, ⟨content, hd, -⟩, -⟩ := Relation.TransGen.head'_iff.1 hcycle
  -- around a circle a chain only ever ends for want of fuel
  have hendless : ∀ fuel x, Relation.ReflTransGen p.Parent x d →
      (p.chainFrom fuel (some x)).ending = .endless := by
    intro fuel
    induction fuel with
    | zero => exact fun _ _ => rfl
    | succ fuel ih =>
      intro x hx
      have hnext : ∃ y, p.Parent x y ∧ Relation.ReflTransGen p.Parent y d := by
        rcases Relation.ReflTransGen.cases_head hx with rfl | ⟨y, hstep, hrest⟩
        · exact Relation.TransGen.head'_iff.1 hcycle
        · exact ⟨y, hstep, hrest⟩
      obtain ⟨y, ⟨c, hc, hparent⟩, hrest⟩ := hnext
      unfold chainFrom
      simp only [hc, hparent]
      exact ih y hrest
  have hend := hp.ending hd
  rw [chain, hendless _ d .refl] at hend
  cases hend

/-- A declaration with a callable ancestor is local. -/
theorem ChainsEnd.isLocal (hp : p.ChainsEnd) (hx : Relation.TransGen p.Parent d x)
    (hxc : p.decls.get? x = some content) (hcallable : content.isCallable = true) :
    p.isLocal d = .ok true := by
  obtain ⟨outer, ⟨dc, hd, hparent⟩, hrest⟩ := Relation.TransGen.head'_iff.1 hx
  have hend := hp.ending hd
  rw [isLocal_of_ending hend]
  simp only [chain, chainFrom, hd, hparent, List.tail_cons] at hend ⊢
  obtain ⟨xc, hxc', hmem⟩ := mem_chainFrom hend hrest
  obtain rfl := Option.mem_unique hxc hxc'
  rw [Except.ok.injEq, List.any_eq_true]
  exact ⟨_, hmem, hcallable⟩

theorem isMember_of_parent {outer : DeclId} {outerContent : Declaration}
    (hd : p.decls.get? d = some content) (hparent : content.parent = some outer)
    (houter : p.decls.get? outer = some outerContent) :
    p.isMember d = .ok outerContent.isClass := by
  unfold isMember
  rw [parent_of_get? hd, hparent]
  exact isClass_of_get? houter

/-! ## §4. Primary constructors. -/

/-- Whether a handle leads to a primary constructor. -/
def isPrimary (p : Program) (m : DeclId) : Bool :=
  match p.decls.get? m with
  | some (.constructor c) => c.isPrimary
  | _ => false

theorem isPrimary_iff {p : Program} {m : DeclId} :
    p.isPrimary m = true ↔ ∃ x, p.decls.get? m = some (.constructor x) ∧ x.isPrimary = true := by
  unfold isPrimary
  split
  · rename_i x hx
    simp [hx]
  · rename_i hnot
    simp only [Bool.false_eq_true, false_iff, not_exists, not_and]
    exact fun x hx => absurd hx (hnot x)

/-- A search stops at its hit, so the test has to answer only up to there. -/
theorem findM?_eq_ok {α : Type} {f : α → Except Fault Bool} {test : α → Bool} {as : List α}
    (h : ∀ before a after, as = before ++ a :: after → (∀ y ∈ before, test y = false) →
      f a = .ok (test a)) :
    as.findM? f = .ok (as.find? test) := by
  induction as with
  | nil => rfl
  | cons a as ih =>
    rw [List.findM?, h [] a as rfl (by simp), List.find?_cons]
    cases ha : test a with
    | true => rfl
    | false =>
      refine ih fun before x after hsplit hbefore =>
        h (a :: before) x after (by rw [hsplit]; rfl) fun y hy => ?_
      rcases List.mem_cons.1 hy with rfl | hy
      · exact ha
      · exact hbefore y hy

/-- The first primary constructor of a class is found. -/
theorem primaryConstructor?_eq {p p' : Program} {k : DeclId} {c : ClassDecl}
    (hk : p.decls.get? k = some (.cls c)) (hmembers : ∀ before m after,
      c.members = before ++ m :: after → (∀ y ∈ before, p'.isPrimary y = false) →
      ∃ content, p.decls.get? m = some content ∧ p'.decls.get? m = some content) :
    p.primaryConstructor? k = .ok (c.members.find? p'.isPrimary) := by
  have hchildren : p.children (some k) = .ok c.members := by
    simp only [children, decl_eq_ok.2 hk]
    rfl
  unfold primaryConstructor?
  rw [hchildren]
  refine findM?_eq_ok fun before m after hsplit hbefore => ?_
  obtain ⟨content, hm, hm'⟩ := hmembers before m after hsplit hbefore
  rw [decl_eq_ok.2 hm]
  unfold isPrimary
  rw [hm']
  cases content <;> rfl

/-! ## §5. Programs in which nothing is nested in itself. -/

/-- Nothing is nested in itself: the graph of expressions, placed declarations, members and bodies
is acyclic. -/
def Acyclic (p : Program) : Prop := ∀ place, ¬ Relation.TransGen (p.Encloses .nested) place place

/-- The places of all entries. -/
def places (p : Program) : List Place :=
  (List.range p.decls.size).flatMap (fun i => [.decl ⟨i⟩, .backing ⟨i⟩]) ++
    (List.range p.exprs.size).map fun i => .expr ⟨i⟩

theorem mem_places {place : Place} {label : Label} (h : p.label? place = some label) :
    place ∈ p.places := by
  have hlt := hasEntry_of_label h
  simp only [places, List.mem_append, List.mem_flatMap, List.mem_map, List.mem_range]
  cases place with
  | expr e => exact .inr ⟨e.index, hlt, rfl⟩
  | decl d => exact .inl ⟨d.index, hlt, by simp⟩
  | backing d => exact .inl ⟨d.index, hlt, by simp⟩

/-- Nothing is nested in itself if every entry unfolds to a tree. -/
theorem acyclic_of_complete
    (h : ∀ place ∈ p.places, (p.unfold .nested place).complete = true) : p.Acyclic := by
  intro place hcycle
  obtain ⟨_, ⟨label, hlabel, -⟩, -⟩ := Relation.TransGen.head'_iff.1 hcycle
  exact acyclicAt_of_complete (h place (mem_places hlabel)) place .refl hcycle

/-- What is nested in a body is nested. -/
theorem Encloses.nested {reach : Reach} {a b : Place} (h : p.Encloses reach a b) :
    p.Encloses .nested a b := by
  obtain ⟨label, hlabel, hmem⟩ := h
  refine ⟨label, hlabel, ?_⟩
  cases reach with
  | nested => exact hmem
  | body =>
    cases label with
    | expr e node => cases node <;> simp_all [Label.places]
    | decl d content => exact hmem
    | backing d content => exact hmem

theorem Acyclic.acyclicAt (hp : p.Acyclic) (reach : Reach) (start : Place) :
    p.AcyclicAt reach start :=
  fun place _ hcycle => hp place (hcycle.lift id fun _ _ => Encloses.nested)

end Program

end LambdaLift
