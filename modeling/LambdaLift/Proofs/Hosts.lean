/-
  LambdaLift.Proofs.Hosts
  **WHERE THINGS STAND, AND WHOM THEY BELONG TO.**

  Everything that the module leads to has a host: the innermost callable
  around it, or none.  What is listed has the host of what lists it, a
  body and what it places is hosted by its callable, and so are the
  initializers of the fields of local classes.

  In a program that is accounted for, whatever attaches a declaration is
  its parent, parameters and receivers belong to what binds them, and
  variables to their host.  Then no declaration has two hosts, although
  nothing keeps it from being attached in two places.

  Main results:
    * `Program.Accounted.host_unique` — a declaration has one host;
    * `Program.Hosted.of_below` — what is reached from a hosted callable is
      hosted by it or by something reached from it;
    * `Program.AccountsFor.accounted` — accounts can be checked.
-/
import Mathlib
import LambdaLift.Proofs.Discovery
import LambdaLift.Proofs.Raised

namespace LambdaLift

variable {e : ExprId}

namespace Declaration

/-- The parent of what a declaration lists: a class is the parent of its members, and the parts of a
property stand where it stands. -/
def home (d : DeclId) : Declaration → Option DeclId
  | .cls _ => some d
  | content => content.parent

theorem isCallable_of_body {content : Declaration} (h : content.body = some e) :
    content.isCallable = true := by
  cases content with
  | function f => rfl
  | constructor c => rfl
  | _ => cases h

end Declaration

/-- The declaration that a node places. -/
def Expr.placed? : Expr → Option DeclId
  | .decl d => some d
  | _ => none

/-- The place where a backing field stands as a declaration. -/
def Place.filed : Place → Place
  | .backing d => .decl d
  | place => place

namespace Program

variable {p : Program} {c c' : Option DeclId} {d g k root : DeclId} {place : Place}
  {content : Declaration}

/-! ## §1. Hosts. -/

/-- The innermost callable around a place that the module leads to, or none.  Initializers outside
every callable are not followed. -/
inductive Hosted (p : Program) : Option DeclId → Place → Prop
  | top {d : DeclId} : d ∈ p.top → Hosted p none (.decl d)
  | listed {c : Option DeclId} {k d : DeclId} {outer : Declaration} : Hosted p c (.decl k) →
      p.decls.get? k = some outer → d ∈ outer.listed → Hosted p c (.decl d)
  | body {c : Option DeclId} {g : DeclId} {content : Declaration} {e : ExprId} :
      Hosted p c (.decl g) →
      p.decls.get? g = some content → content.body = some e → Hosted p (some g) (.expr e)
  | init {g d : DeclId} {f : FieldDecl} {e : ExprId} : Hosted p (some g) (.decl d) →
      p.decls.get? d = some (.field f) → f.init = some e → Hosted p (some g) (.expr e)
  | operand {g : DeclId} {e x : ExprId} {node : Expr} : Hosted p (some g) (.expr e) →
      p.exprs.get? e = some node → x ∈ node.operands → Hosted p (some g) (.expr x)
  | placed {g d : DeclId} {e : ExprId} : Hosted p (some g) (.expr e) →
      p.exprs.get? e = some (.decl d) → Hosted p (some g) (.decl d)

/-- A host is a callable. -/
theorem Hosted.host_callable (h : p.Hosted (some g) place) :
    ∃ content, p.decls.get? g = some content ∧ content.isCallable = true := by
  generalize hc : some g = c at h
  induction h with
  | top => cases hc
  | listed _ _ _ ih => exact ih hc
  | body _ hg he _ =>
    cases hc
    exact ⟨_, hg, Declaration.isCallable_of_body he⟩
  | init _ _ _ ih => exact ih hc
  | operand _ _ _ ih => exact ih hc
  | placed _ _ ih => exact ih hc

/-- What has no host is what the module declares. -/
theorem hosted_none_iff : p.Hosted none (.decl d) ↔ p.Declared d := by
  constructor
  · intro h
    generalize hc : none = c at h
    generalize hplace : Place.decl d = place at h
    induction h generalizing d with
    | top hd =>
      cases hplace
      exact .top hd
    | listed _ houter hd ih =>
      cases hplace
      exact .listed (ih hc rfl) houter hd
    | placed => cases hc
    | _ => cases hplace
  · intro h
    induction h with
    | top hd => exact .top hd
    | listed _ houter hd ih => exact .listed ih houter hd

/-- **What is reached from a hosted callable** is hosted by it, or by something reached from it. -/
theorem Hosted.of_below (h : p.Hosted c (.decl root)) (hroot : p.decls.get? root = some content)
    (hcallable : content.isCallable = true) (hbelow : p.Below root place) :
    ∃ g, p.Hosted (some g) place.filed ∧ (g = root ∨ p.Below root (.decl g)) := by
  obtain ⟨content', hroot', part, hpart, hreach⟩ := hbelow
  obtain rfl : content = content' := Option.mem_unique hroot hroot'
  obtain ⟨e, he, rfl⟩ : ∃ e, content.body = some e ∧ part = .expr e := by
    cases content with
    | function f => simpa [Declaration.parts, Declaration.body, eq_comm] using hpart
    | constructor x => simpa [Declaration.parts, Declaration.body, eq_comm] using hpart
    | _ => cases hcallable
  induction hreach with
  | refl => exact ⟨root, .body h hroot he, .inl rfl⟩
  | @tail outer inner houter hstep ih =>
    obtain ⟨g, hg, hinside⟩ := ih
    obtain ⟨label, hlabel, hinner⟩ := hstep
    cases label with
    | expr x node =>
      obtain ⟨rfl, hnode⟩ := label?_eq_expr.1 hlabel
      cases node with
      | decl d =>
        obtain rfl : inner = .decl d := by simpa [Label.followed, Label.places] using hinner
        exact ⟨g, .placed hg hnode, hinside⟩
      | _ =>
        obtain ⟨y, hy, rfl⟩ := List.mem_map.1 hinner
        exact ⟨g, .operand hg hnode hy, hinside⟩
    | decl d inside =>
      obtain ⟨rfl, hd⟩ := label?_eq_decl.1 hlabel
      have hbelow : p.Below root (.decl d) := ⟨content, hroot, .expr e, hpart, houter⟩
      cases inside with
      | function f =>
        obtain ⟨y, hy, rfl⟩ := List.mem_map.1 hinner
        exact ⟨d, .body hg hd (Option.mem_toList.1 hy), .inr hbelow⟩
      | constructor x =>
        obtain ⟨y, hy, rfl⟩ := List.mem_map.1 hinner
        exact ⟨d, .body hg hd (Option.mem_toList.1 hy), .inr hbelow⟩
      | cls x =>
        obtain ⟨m, hm, rfl⟩ := List.mem_map.1 hinner
        exact ⟨g, .listed hg hd hm, hinside⟩
      | property q =>
        rcases List.mem_append.1 hinner with hinner | hinner
        · obtain ⟨a, ha, rfl⟩ := List.mem_map.1 hinner
          refine ⟨g, .listed hg hd ?_, hinside⟩
          simp only [Declaration.listed, List.mem_append] at ha ⊢
          tauto
        · obtain ⟨b, hb, rfl⟩ := List.mem_map.1 hinner
          refine ⟨g, .listed hg hd ?_, hinside⟩
          simp only [Declaration.listed, List.mem_append]
          exact .inl (.inl hb)
      | field f =>
        obtain ⟨y, hy, rfl⟩ := List.mem_map.1 hinner
        exact ⟨g, .init hg hd (Option.mem_toList.1 hy), hinside⟩
    | backing d inside =>
      obtain ⟨rfl, hd⟩ := label?_eq_backing.1 hlabel
      cases inside with
      | field f =>
        obtain ⟨y, hy, rfl⟩ := List.mem_map.1 hinner
        exact ⟨g, .init hg hd (Option.mem_toList.1 hy), hinside⟩
      | _ => cases hinner

/-! ## §2. Accounts. -/

/-- A declaration has this parent. -/
def HasParent (p : Program) (d : DeclId) (parent : Option DeclId) : Prop :=
  ∃ content ∈ p.decls.get? d, content.parent = parent

/-- Everything that the module leads to is there, the parent of a declaration is what attaches it,
and parameters, receivers and variables belong to the declarations that they stand in. -/
structure Accounted (p : Program) : Prop where
  top : ∀ {d}, d ∈ p.top → p.HasParent d none
  listed : ∀ {c k outer d}, p.Hosted c (.decl k) → p.decls.get? k = some outer → d ∈ outer.listed →
    p.HasParent d (outer.home k)
  placed : ∀ {g e d}, p.Hosted (some g) (.expr e) → p.exprs.get? e = some (.decl d) →
    p.HasParent d (some g)
  bound : ∀ {c d content}, p.Hosted c (.decl d) → p.decls.get? d = some content →
    p.OwnsBound d content
  nodes : ∀ {g e}, p.Hosted (some g) (.expr e) → ∃ node, p.exprs.get? e = some node
  bindings : ∀ {g e node v}, p.Hosted (some g) (.expr e) → p.exprs.get? e = some node →
    node.bound? = some v →
    p.Owns g v

/-- What a declaration whose parent is given can have as its host. -/
def Housed (p : Program) (c : Option DeclId) : Option DeclId → Prop
  | none => c = none
  | some k => (∃ x, p.decls.get? k = some (.cls x)) ∧ p.Hosted c (.decl k)
      ∨ (∃ content, p.decls.get? k = some content ∧ content.isCallable = true) ∧ c = some k

theorem HasParent.eq {parent : Option DeclId} (h : p.HasParent d parent)
    (hd : p.decls.get? d = some content) : content.parent = parent := by
  obtain ⟨content', hd', hparent⟩ := h
  obtain rfl : content = content' := Option.mem_unique hd hd'
  exact hparent

namespace Accounted

theorem exists_decl (hp : p.Accounted) (h : p.Hosted c (.decl d)) :
    ∃ content, p.decls.get? d = some content := by
  cases h with
  | top hd => exact (hp.top hd).imp fun _ => And.left
  | listed hk houter hd => exact (hp.listed hk houter hd).imp fun _ => And.left
  | placed he hnode => exact (hp.placed he hnode).imp fun _ => And.left

/-- A host is read off the parent. -/
theorem housed (hp : p.Accounted) (h : p.Hosted c (.decl d)) (hd : p.decls.get? d = some content) :
    p.Housed c content.parent := by
  generalize hplace : Place.decl d = place at h
  induction h generalizing d content with
  | top htop =>
    cases hplace
    rw [(hp.top htop).eq hd]
    rfl
  | @listed c k _ outer hk houter hmem ih =>
    cases hplace
    rw [(hp.listed hk houter hmem).eq hd]
    cases outer with
    | cls x => exact .inl ⟨⟨x, houter⟩, hk⟩
    | property q => exact ih houter rfl
    | _ => cases hmem
  | placed he hnode _ =>
    cases hplace
    rw [(hp.placed he hnode).eq hd]
    exact .inr ⟨he.host_callable, rfl⟩
  | _ => cases hplace

theorem eq_host_of_housed (hp : p.Accounted) (h : p.Hosted c (.decl d))
    (hd : p.decls.get? d = some content) (h' : p.Housed c' content.parent) : c' = c := by
  generalize hplace : Place.decl d = place at h
  induction h generalizing d content with
  | top htop =>
    cases hplace
    rw [(hp.top htop).eq hd] at h'
    exact h'
  | @listed c k _ outer hk houter hmem ih =>
    cases hplace
    rw [(hp.listed hk houter hmem).eq hd] at h'
    cases outer with
    | cls x =>
      rcases h' with ⟨-, hk'⟩ | ⟨⟨content', hcontent', hcallable⟩, -⟩
      · exact ih houter (hp.housed hk' houter) rfl
      · obtain rfl : content' = .cls x := Option.mem_unique hcontent' houter
        cases hcallable
    | property q => exact ih houter h' rfl
    | _ => cases hmem
  | placed he hnode _ =>
    cases hplace
    rw [(hp.placed he hnode).eq hd] at h'
    rcases h' with ⟨⟨x, hx⟩, -⟩ | ⟨-, hc'⟩
    · obtain ⟨content', hcontent', hcallable⟩ := he.host_callable
      obtain rfl : content' = .cls x := Option.mem_unique hcontent' hx
      cases hcallable
    · exact hc'
  | _ => cases hplace

/-- **A declaration has one host**, in however many places it is attached. -/
theorem host_unique (hp : p.Accounted) (h : p.Hosted c (.decl d))
    (h' : p.Hosted c' (.decl d)) : c' = c := by
  obtain ⟨content, hd⟩ := hp.exists_decl h
  exact hp.eq_host_of_housed h hd (hp.housed h' hd)

/-- No two callables share a parameter. -/
theorem params_disjoint (hp : p.Accounted) {content' : Declaration} {d' : DeclId}
    (h : p.Hosted c (.decl d)) (hd : p.decls.get? d = some content) (h' : p.Hosted c' (.decl d'))
    (hd' : p.decls.get? d' = some content') {v : ValueId} (hv : v ∈ content.params)
    (hv' : v ∈ content'.params) : d = d' := by
  have owner : ∀ {c : Option DeclId} {x : DeclId} {inner : Declaration}, p.Hosted c (.decl x) →
      p.decls.get? x = some inner → v ∈ inner.params → ∃ value, p.values.get? v = some value
      ∧ value.owner = x := by
    intro c x inner hx hinner hmem
    obtain ⟨i, hi⟩ := List.mem_iff_getElem?.1 hmem
    obtain ⟨value, hvalue, howner, -⟩ :=
      (hp.bound hx hinner).params (v, i) (List.mk_mem_zipIdx_iff_getElem?.2 hi)
    exact ⟨value, hvalue, howner⟩
  obtain ⟨value, hvalue, rfl⟩ := owner h hd hv
  obtain ⟨value', hvalue', rfl⟩ := owner h' hd' hv'
  obtain rfl : value = value' := Option.mem_unique hvalue hvalue'
  rfl

end Accounted

/-! ## §3. Checking accounts. -/

instance (p : Program) (d : DeclId) (parent : Option DeclId) :
    Decidable (p.HasParent d parent) := by
  unfold HasParent
  infer_instance

instance (p : Program) (d : DeclId) (v : ValueId) : Decidable (p.Owns d v) :=
  decidable_of_iff (∃ value ∈ p.values.get? v, value.owner = d) Iff.rfl

instance (p : Program) (d : DeclId) (content : Declaration) : Decidable (p.OwnsBound d content) :=
  decidable_of_iff (p.BindsParams d content.params ∧ (∀ v ∈ content.extensionReceiver, p.Owns d v)
      ∧ ∀ c ∈ content.cls?, p.Owns d c.this)
    ⟨fun h => ⟨h.1, h.2.1, h.2.2⟩, fun h => ⟨h.params, h.extension, h.this⟩⟩

/-- What stands at a place is accounted for, and what it leads to is listed. -/
def AccountsAt (p : Program) (hosts : List (Option DeclId × Place))
    (c : Option DeclId) : Place → Prop
  | .decl d => ∃ content ∈ p.decls.get? d, p.OwnsBound d content
      ∧ (∀ x ∈ content.listed, (c, .decl x) ∈ hosts ∧ p.HasParent x (content.home d))
      ∧ (∀ e ∈ content.body, (some d, .expr e) ∈ hosts)
      ∧ ∀ g ∈ c, ∀ f ∈ content.field?, ∀ e ∈ f.init, (some g, .expr e) ∈ hosts
  | .expr e => ∀ g ∈ c, ∃ node ∈ p.exprs.get? e, (∀ x ∈ node.operands, (some g, .expr x) ∈ hosts)
      ∧ (∀ d ∈ node.placed?, (some g, .decl d) ∈ hosts ∧ p.HasParent d (some g))
      ∧ ∀ v ∈ node.bound?, p.Owns g v
  | .backing _ => True

/-- The list holds every place that the module leads to with its host, and all is accounted for. -/
def AccountsFor (p : Program) (hosts : List (Option DeclId × Place)) : Prop :=
  (∀ d ∈ p.top, (none, .decl d) ∈ hosts ∧ p.HasParent d none) ∧ ∀ x ∈ hosts,
    p.AccountsAt hosts x.1 x.2

instance (p : Program) (hosts : List (Option DeclId × Place)) (c : Option DeclId) (place : Place) :
    Decidable (p.AccountsAt hosts c place) := by
  unfold AccountsAt
  split <;> infer_instance

instance (p : Program) (hosts : List (Option DeclId × Place)) :
    Decidable (p.AccountsFor hosts) := by
  unfold AccountsFor
  infer_instance

namespace AccountsFor

variable {hosts : List (Option DeclId × Place)}

theorem at_decl (h : p.AccountsFor hosts) (hmem : (c, .decl d) ∈ hosts)
    (hd : p.decls.get? d = some content) :
    p.OwnsBound d content
      ∧ (∀ x ∈ content.listed, (c, .decl x) ∈ hosts ∧ p.HasParent x (content.home d))
      ∧ (∀ e ∈ content.body, (some d, .expr e) ∈ hosts)
      ∧ ∀ g ∈ c, ∀ f ∈ content.field?, ∀ e ∈ f.init, (some g, .expr e) ∈ hosts := by
  obtain ⟨content', hd', hall⟩ := h.2 _ hmem
  obtain rfl : content = content' := Option.mem_unique hd hd'
  exact hall

theorem at_expr (h : p.AccountsFor hosts) {node : Expr} (hmem : (some g, .expr e) ∈ hosts)
    (he : p.exprs.get? e = some node) : (∀ x ∈ node.operands, (some g, .expr x) ∈ hosts)
      ∧ (∀ d ∈ node.placed?, (some g, .decl d) ∈ hosts ∧ p.HasParent d (some g))
      ∧ ∀ v ∈ node.bound?, p.Owns g v := by
  obtain ⟨node', he', hall⟩ := h.2 _ hmem g rfl
  obtain rfl : node = node' := Option.mem_unique he he'
  exact hall

theorem mem (h : p.AccountsFor hosts) (hplace : p.Hosted c place) : (c, place) ∈ hosts := by
  induction hplace with
  | top hd => exact (h.1 _ hd).1
  | listed _ houter hd ih => exact ((h.at_decl ih houter).2.1 _ hd).1
  | body _ hg he ih => exact (h.at_decl ih hg).2.2.1 _ he
  | init _ hd he ih => exact (h.at_decl ih hd).2.2.2 _ rfl _ rfl _ he
  | operand _ hnode hx ih => exact (h.at_expr ih hnode).1 _ hx
  | placed _ hnode ih => exact ((h.at_expr ih hnode).2.1 _ rfl).1

/-- **Accounts that were checked** are in order. -/
theorem accounted (h : p.AccountsFor hosts) : p.Accounted where
  top hd := (h.1 _ hd).2
  listed hk houter hd := ((h.at_decl (h.mem hk) houter).2.1 _ hd).2
  placed he hnode := ((h.at_expr (h.mem he) hnode).2.1 _ rfl).2
  bound hd hcontent := (h.at_decl (h.mem hd) hcontent).1
  nodes he := (h.2 _ (h.mem he) _ rfl).imp fun _ => And.left
  bindings he hnode hv := (h.at_expr (h.mem he) hnode).2.2 _ hv

end AccountsFor

end Program

end LambdaLift
