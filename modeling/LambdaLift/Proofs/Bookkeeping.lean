/-
  LambdaLift.Proofs.Bookkeeping
  **WHAT A PROGRAM RECORDS ABOUT ITS DECLARATIONS.**

  A declaration is recorded in several places at once: it names its parent,
  a container lists it, a property may name it as one of its parts, and
  values name it as their owner.  The books are in order if all of these
  agree.  While a property is being put together some declarations are
  there that nothing lists yet; these are pending, and the books are in
  order up to them.

  The outline of a declaration is what the books are about.  There are
  three of them: how declarations hang together, which values they bind,
  and where they are listed.

  Main results:
    * `Booked.frame` — a change that touches no outline keeps the books;
    * `Booked.add`, `Booked.list`, `Booked.link` — a new declaration is
      pending, is then listed by its container, or goes to its property.
-/
import Mathlib
import LambdaLift.Proofs.Raised

namespace LambdaLift

/-! ## §1. Outlines. -/

/-- The five kinds of declaration. -/
inductive Declaration.Kind where
  | function
  | constructor
  | cls
  | property
  | field
  deriving DecidableEq, Repr

/-- What the books say about a declaration.  Names, types and code are no part of it. -/
structure Outline where
  kind : Declaration.Kind
  parent : Option DeclId
  /-- the receiver of a class -/
  this : Option ValueId := none
  isInner : Bool := false
  members : List DeclId := []
  scope : MemberScope := {}
  dispatch : Option ValueId := none
  extension : Option ValueId := none
  params : List ValueId := []
  accessorOf : Option DeclId := none
  /-- the backing field and the accessors of a property -/
  backing : Option DeclId := none
  getter : Option DeclId := none
  setter : Option DeclId := none
  deriving DecidableEq, Repr

namespace Outline

/-- The outline without what is listed and bound: how a declaration hangs together with others. -/
def core (o : Outline) : Outline :=
  { o with members := [], scope := {}, params := [], extension := none }

/-- The outline without the accessors of a property too. -/
def stem (o : Outline) : Outline := { o.core with getter := none, setter := none }

/-- The outline without what is bound. -/
def filing (o : Outline) : Outline := { o with params := [], extension := none }

/-- Whether instances offer the declaration by name. -/
def isNameable (o : Outline) : Bool := o.kind = .function || o.kind = .property

/-- A property has the declaration as a part. -/
def HasPart (o : Outline) (d : DeclId) : Prop :=
  o.backing = some d ∨ o.getter = some d ∨ o.setter = some d

instance (o : Outline) (d : DeclId) : Decidable (o.HasPart d) := by
  unfold HasPart
  infer_instance

/-- A declaration as it is when it is added: nothing is listed or bound yet, and no accessors are
known. -/
structure Blank (o : Outline) : Prop where
  members : o.members = []
  scope : o.scope = {}
  params : o.params = []
  extension : o.extension = none
  getter : o.getter = none
  setter : o.setter = none

/-- Two outlines differ at most in what is listed and bound and in their accessors. -/
structure Akin (x y : Outline) : Prop where
  kind : x.kind = y.kind
  parent : x.parent = y.parent
  this : x.this = y.this
  isInner : x.isInner = y.isInner
  dispatch : x.dispatch = y.dispatch
  accessorOf : x.accessorOf = y.accessorOf
  backing : x.backing = y.backing

/-- Two outlines differ at most in what is listed and bound. -/
structure Alike (x y : Outline) : Prop extends x.Akin y where
  getter : x.getter = y.getter
  setter : x.setter = y.setter

theorem akin_of_stem {x y : Outline} (h : x.stem = y.stem) : x.Akin y := by
  cases x
  cases y
  simp only [stem, core, mk.injEq] at h
  grind [Akin]

theorem alike_of_core {x y : Outline} (h : x.core = y.core) : x.Alike y := by
  cases x
  cases y
  simp only [core, mk.injEq] at h
  grind [Alike, Akin]

theorem Alike.hasPart {x y : Outline} (h : x.Alike y) {d : DeclId} : x.HasPart d ↔ y.HasPart d := by
  unfold HasPart
  rw [h.backing, h.getter, h.setter]

/-- The outline of a container that lists one more declaration.  What is no class lists nothing. -/
def enlist (d : DeclId) (nameable : Bool) (o : Outline) : Outline :=
  if o.kind = .cls then
    { o with
      members := o.members ++ [d]
      scope.declared := if nameable then o.scope.declared ++ [d] else o.scope.declared }
  else o

end Outline

/-- The outline of a declaration. -/
def Declaration.outline : Declaration → Outline
  | .function f =>
    { kind := .function, parent := f.parent, dispatch := f.dispatchReceiver,
      extension := f.extensionReceiver, params := f.params, accessorOf := f.accessorOf }
  | .constructor c =>
    { kind := .constructor, parent := c.parent, dispatch := c.dispatchReceiver, params := c.params }
  | .cls c =>
    { kind := .cls, parent := c.parent, this := some c.this, isInner := c.isInner,
      members := c.members, scope := c.scope }
  | .property x =>
    { kind := .property, parent := x.parent, backing := x.backingField, getter := x.getter,
      setter := x.setter }
  | .field f => { kind := .field, parent := f.parent }

@[simp] theorem Declaration.parent_outline (content : Declaration) :
    content.outline.parent = content.parent := by
  cases content <;> rfl

@[simp] theorem Declaration.params_outline (content : Declaration) :
    content.outline.params = content.params := by
  cases content <;> rfl

namespace Program

variable {p p' : Program} {pending pending' : List DeclId} {d new : DeclId} {o : Outline}

/-- The outline of what a handle leads to. -/
def outline (p : Program) (d : DeclId) : Option Outline := (p.decls.get? d).map Declaration.outline

/-- What a container lists; `none` is the module. -/
def register (p : Program) : (container : Option DeclId) → List DeclId
  | none => p.top
  | some k => ((p.outline k).map (·.members)).getD []

/-- The module and the classes list declarations. -/
def IsContainer (p : Program) : (container : Option DeclId) → Prop
  | none => True
  | some k => ∃ o, p.outline k = some o ∧ o.kind = .cls

/-- Some property has the declaration as a part. -/
def IsPart (p : Program) (d : DeclId) : Prop := ∃ q x, p.outline q = some x ∧ x.HasPart d

/-- The receiver of the members of a parent. -/
def receiverIn (p : Program) (parent : Option DeclId) : Option ValueId :=
  (parent.bind p.outline).bind (·.this)

/-- The instance that the constructors of a parent belong to: only those of inner classes have
one. -/
def outerReceiver (p : Program) (parent : Option DeclId) : Option ValueId :=
  ((parent.bind p.outline).filter (·.isInner)).bind fun o => p.receiverIn o.parent

/-! ## §2. The three books. -/

/-- Where declarations stand. -/
structure Rooted (p : Program) : Prop where
  /-- parents come first -/
  parent_lt : ∀ d o k, p.outline d = some o → o.parent = some k → k.index < d.index
  /-- a class has a receiver of its own -/
  this : ∀ d o, p.outline d = some o → o.kind = .cls →
    ∃ v value, o.this = some v ∧ p.values.get? v = some value
    ∧ value.kind = .dispatchReceiver ∧ value.ty = .cls d ∧ value.owner = d
  /-- functions are called on the receiver of the class they stand in -/
  dispatch : ∀ d o, p.outline d = some o → o.kind = .function → o.dispatch = p.receiverIn o.parent
  /-- constructors of inner classes are called on the instance around -/
  outer : ∀ d o, p.outline d = some o → o.kind = .constructor →
    o.dispatch = p.outerReceiver o.parent
  /-- the backing field of a property stands where it stands -/
  backing : ∀ q x d, p.outline q = some x → x.backing = some d →
    ∃ o, p.outline d = some o ∧ o.kind = .field ∧ o.parent = x.parent
  /-- and belongs to no other -/
  backing_unique : ∀ q q' x x' d, p.outline q = some x → p.outline q' = some x' →
    x.backing = some d →
    x'.backing = some d → q = q'

/-- How accessors hang together with their properties. -/
structure Linked (p : Program) (pending : List DeclId) : Prop where
  /-- an accessor is the getter or the setter of the property it names -/
  accessor : ∀ d o q, p.outline d = some o → d ∉ pending → o.accessorOf = some q →
    ∃ x, p.outline q = some x ∧ (x.getter = some d ∨ x.setter = some d)
  /-- the accessors of a property name it and stand where it stands -/
  accessors : ∀ q x d, p.outline q = some x → x.getter = some d ∨ x.setter = some d →
    ∃ o, p.outline d = some o ∧ o.kind = .function ∧ o.parent = x.parent ∧ o.accessorOf = some q
  /-- they are two -/
  getter_ne : ∀ q x d, p.outline q = some x → x.getter = some d → x.setter ≠ some d
  /-- what is pending is there -/
  pending_there : ∀ d ∈ pending, ∃ o, p.outline d = some o
  /-- and part of nothing -/
  pending_free : ∀ d ∈ pending, ¬ p.IsPart d

/-- Which values declarations bind. -/
structure Binding (p : Program) : Prop where
  params : ∀ d o, p.outline d = some o → p.BindsParams d o.params
  extension : ∀ d o v, p.outline d = some o → o.extension = some v →
    p.ValueIs v d .extensionReceiver

/-- Where declarations are listed. -/
structure Filed (p : Program) (pending : List DeclId) : Prop where
  /-- nothing is listed twice by one container -/
  nodup : ∀ c, (p.register c).Nodup
  /-- a container lists what names it as parent, but for the parts of properties -/
  listed : ∀ c d, d ∈ p.register c ↔ p.IsContainer c ∧ d ∉ pending ∧ ¬ p.IsPart d
    ∧ ∃ o, p.outline d = some o ∧ o.parent = c
  /-- a class offers its functions and properties by name, in the order in which it lists them -/
  scope : ∀ d o, p.outline d = some o →
    o.scope = { declared := o.members.filter fun m => (p.outline m).any Outline.isNameable }

/-- The books are in order up to what is pending. -/
structure Booked (p : Program) (pending : List DeclId) : Prop where
  rooted : p.Rooted
  linked : p.Linked pending
  binding : p.Binding
  filed : p.Filed pending

/-! ## §3. What the books depend on. -/

/-- Every declaration of the one program is akin to that of the other. -/
def AkinTo (p' p : Program) : Prop :=
  ∀ d, (p'.outline d).map Outline.stem = (p.outline d).map Outline.stem

namespace AkinTo

variable (h : p'.AkinTo p)
include h

theorem symm : p.AkinTo p' := fun d => (h d).symm

theorem exists_akin {x : Outline} (hx : p'.outline d = some x) :
    ∃ y, p.outline d = some y ∧ x.Akin y := by
  have hd := h d
  rw [hx] at hd
  obtain ⟨y, hy, hxy⟩ := Option.map_eq_some_iff.1 hd.symm
  exact ⟨y, hy, Outline.akin_of_stem hxy.symm⟩

theorem eq_none (hd : p'.outline d = none) : p.outline d = none := by
  have hmap := h d
  rw [hd] at hmap
  exact Option.map_eq_none_iff.1 hmap.symm

theorem receiverIn (k? : Option DeclId) : p'.receiverIn k? = p.receiverIn k? := by
  cases k? with
  | none => rfl
  | some k =>
    show (p'.outline k).bind (·.this) = (p.outline k).bind (·.this)
    cases hx : p'.outline k with
    | none => rw [h.eq_none hx]
    | some x =>
      obtain ⟨y, hy, hxy⟩ := h.exists_akin hx
      rw [hy]
      exact hxy.this

theorem outerReceiver (k? : Option DeclId) : p'.outerReceiver k? = p.outerReceiver k? := by
  cases k? with
  | none => rfl
  | some k =>
    show ((p'.outline k).filter (·.isInner)).bind _ = ((p.outline k).filter (·.isInner)).bind _
    cases hx : p'.outline k with
    | none =>
      rw [h.eq_none hx]
      rfl
    | some x =>
      obtain ⟨y, hy, hxy⟩ := h.exists_akin hx
      rw [hy, Option.filter_some, Option.filter_some, hxy.isInner]
      split
      · show p'.receiverIn x.parent = p.receiverIn y.parent
        rw [hxy.parent, h.receiverIn]
      · rfl

theorem isContainer (c : Option DeclId) : p'.IsContainer c ↔ p.IsContainer c := by
  cases c with
  | none => exact Iff.rfl
  | some k =>
    constructor
    · rintro ⟨x, hx, hkind⟩
      obtain ⟨y, hy, hxy⟩ := h.exists_akin hx
      exact ⟨y, hy, hxy.kind.symm.trans hkind⟩
    · rintro ⟨y, hy, hkind⟩
      obtain ⟨x, hx, hyx⟩ := h.symm.exists_akin hy
      exact ⟨x, hx, hyx.kind.symm.trans hkind⟩

theorem isNameable (d : DeclId) :
    (p'.outline d).any Outline.isNameable = (p.outline d).any Outline.isNameable := by
  cases hx : p'.outline d with
  | none => rw [h.eq_none hx]
  | some x =>
    obtain ⟨y, hy, hxy⟩ := h.exists_akin hx
    rw [hy]
    show x.isNameable = y.isNameable
    unfold Outline.isNameable
    rw [hxy.kind]

theorem exists_parent (c : Option DeclId) :
    (∃ o, p'.outline d = some o ∧ o.parent = c) ↔ ∃ o, p.outline d = some o ∧ o.parent = c := by
  constructor
  · rintro ⟨x, hx, rfl⟩
    obtain ⟨y, hy, hxy⟩ := h.exists_akin hx
    exact ⟨y, hy, hxy.parent.symm⟩
  · rintro ⟨y, hy, rfl⟩
    obtain ⟨x, hx, hyx⟩ := h.symm.exists_akin hy
    exact ⟨x, hx, hyx.parent.symm⟩

end AkinTo

/-- Every declaration of the one program is alike to that of the other. -/
def AlikeTo (p' p : Program) : Prop :=
  ∀ d, (p'.outline d).map Outline.core = (p.outline d).map Outline.core

namespace AlikeTo

variable (h : p'.AlikeTo p)
include h

theorem symm : p.AlikeTo p' := fun d => (h d).symm

theorem akinTo : p'.AkinTo p := fun d => by
  have hd := congrArg (Option.map Outline.stem) (h d)
  rw [Option.map_map, Option.map_map] at hd
  exact hd

theorem exists_alike {x : Outline} (hx : p'.outline d = some x) :
    ∃ y, p.outline d = some y ∧ x.Alike y := by
  have hd := h d
  rw [hx] at hd
  obtain ⟨y, hy, hxy⟩ := Option.map_eq_some_iff.1 hd.symm
  exact ⟨y, hy, Outline.alike_of_core hxy.symm⟩

theorem isPart : p'.IsPart d ↔ p.IsPart d := by
  constructor
  · rintro ⟨q, x, hx, hpart⟩
    obtain ⟨y, hy, hxy⟩ := h.exists_alike hx
    exact ⟨q, y, hy, hxy.hasPart.1 hpart⟩
  · rintro ⟨q, y, hy, hpart⟩
    obtain ⟨x, hx, hyx⟩ := h.symm.exists_alike hy
    exact ⟨q, x, hx, hyx.hasPart.1 hpart⟩

end AlikeTo

/-- Where declarations stand is not a matter of what they list and bind, nor of accessors. -/
theorem Rooted.frame (h : p.Rooted) (hakin : p'.AkinTo p)
    (hvalues : p.values.Keeps p'.values) : p'.Rooted where
  parent_lt d x k hx hk := by
    obtain ⟨y, hy, hxy⟩ := hakin.exists_akin hx
    exact h.parent_lt d y k hy (hxy.parent ▸ hk)
  this d x hx hkind := by
    obtain ⟨y, hy, hxy⟩ := hakin.exists_akin hx
    obtain ⟨v, value, hv, hvalue, hrest⟩ := h.this d y hy (hxy.kind ▸ hkind)
    exact ⟨v, value, hxy.this.trans hv, hvalues _ _ hvalue, hrest⟩
  dispatch d x hx hkind := by
    obtain ⟨y, hy, hxy⟩ := hakin.exists_akin hx
    rw [hakin.receiverIn, hxy.dispatch, hxy.parent]
    exact h.dispatch d y hy (hxy.kind ▸ hkind)
  outer d x hx hkind := by
    obtain ⟨y, hy, hxy⟩ := hakin.exists_akin hx
    rw [hakin.outerReceiver, hxy.dispatch, hxy.parent]
    exact h.outer d y hy (hxy.kind ▸ hkind)
  backing q x d hx hb := by
    obtain ⟨y, hy, hxy⟩ := hakin.exists_akin hx
    obtain ⟨z, hz, hkind, hparent⟩ := h.backing q y d hy (hxy.backing ▸ hb)
    obtain ⟨z', hz', hzz⟩ := hakin.symm.exists_akin hz
    exact ⟨z', hz', hzz.kind ▸ hkind, hzz.parent.symm.trans (hparent.trans hxy.parent.symm)⟩
  backing_unique q q' x x' d hx hx' hb hb' := by
    obtain ⟨y, hy, hxy⟩ := hakin.exists_akin hx
    obtain ⟨y', hy', hxy'⟩ := hakin.exists_akin hx'
    exact h.backing_unique q q' y y' d hy hy' (hxy.backing ▸ hb) (hxy'.backing ▸ hb')

/-- How accessors hang together is not a matter of what is listed and bound. -/
theorem Linked.frame (h : p.Linked pending) (halike : p'.AlikeTo p) : p'.Linked pending where
  accessor d x q hx hd hq := by
    obtain ⟨y, hy, hxy⟩ := halike.exists_alike hx
    obtain ⟨z, hz, hpart⟩ := h.accessor d y q hy hd (hxy.accessorOf ▸ hq)
    obtain ⟨z', hz', hzz⟩ := halike.symm.exists_alike hz
    exact ⟨z', hz', by rw [← hzz.getter, ← hzz.setter]; exact hpart⟩
  accessors q x d hx hpart := by
    obtain ⟨y, hy, hxy⟩ := halike.exists_alike hx
    obtain ⟨z, hz, hkind, hparent, hof⟩ :=
      h.accessors q y d hy (by rw [← hxy.getter, ← hxy.setter]; exact hpart)
    obtain ⟨z', hz', hzz⟩ := halike.symm.exists_alike hz
    exact ⟨z', hz', hzz.kind ▸ hkind, hzz.parent.symm.trans (hparent.trans hxy.parent.symm),
      hzz.accessorOf ▸ hof⟩
  getter_ne q x d hx hg hs := by
    obtain ⟨y, hy, hxy⟩ := halike.exists_alike hx
    exact h.getter_ne q y d hy (hxy.getter ▸ hg) (hxy.setter ▸ hs)
  pending_there d hd := by
    obtain ⟨y, hy⟩ := h.pending_there d hd
    obtain ⟨x, hx, -⟩ := halike.symm.exists_alike hy
    exact ⟨x, hx⟩
  pending_free d hd := by
    rw [halike.isPart]
    exact h.pending_free d hd

/-- Every declaration of the one program is filed as in the other. -/
def FiledAs (p' p : Program) : Prop :=
  ∀ d, (p'.outline d).map Outline.filing = (p.outline d).map Outline.filing

namespace FiledAs

variable (h : p'.FiledAs p)
include h

theorem alikeTo : p'.AlikeTo p := fun d => by
  have hd := congrArg (Option.map Outline.core) (h d)
  rw [Option.map_map, Option.map_map] at hd
  exact hd

theorem members (k : DeclId) : (p'.outline k).map (·.members) = (p.outline k).map (·.members) := by
  have hk := congrArg (Option.map Outline.members) (h k)
  rw [Option.map_map, Option.map_map] at hk
  exact hk

theorem scope (k : DeclId) : (p'.outline k).map (·.scope) = (p.outline k).map (·.scope) := by
  have hk := congrArg (Option.map Outline.scope) (h k)
  rw [Option.map_map, Option.map_map] at hk
  exact hk

theorem register (htop : p'.top = p.top) (c : Option DeclId) : p'.register c = p.register c := by
  cases c with
  | none => exact htop
  | some k => exact congrArg (Option.getD · []) (h.members k)

end FiledAs

/-- Where declarations are listed is not a matter of what they bind. -/
theorem Filed.frame (h : p.Filed pending) (hfiled : p'.FiledAs p) (htop : p'.top = p.top) :
    p'.Filed pending where
  nodup c := by
    rw [hfiled.register htop]
    exact h.nodup c
  listed c d := by
    have hakin := hfiled.alikeTo.akinTo
    rw [hfiled.register htop, h.listed, hakin.isContainer, hfiled.alikeTo.isPart,
      hakin.exists_parent]
  scope d o' ho' := by
    obtain ⟨o, ho, -⟩ := hfiled.alikeTo.exists_alike ho'
    have hmembers := hfiled.members d
    have hscope := hfiled.scope d
    rw [ho, ho'] at hmembers hscope
    rw [show o'.scope = o.scope from Option.some.inj hscope, show o'.members = o.members
      from Option.some.inj hmembers, h.scope d o ho]
    congr 2
    funext m
    exact (hfiled.alikeTo.akinTo.isNameable m).symm

/-- Bound values stay bound. -/
theorem Binding.frame (h : p.Binding) (hvalues : p.values.Keeps p'.values)
    (hsame : ∀ d x, p'.outline d = some x → ∃ y, p.outline d = some y ∧ x.params = y.params
      ∧ x.extension = y.extension) :
    p'.Binding where
  params d x hx := by
    obtain ⟨y, hy, hparams, -⟩ := hsame d x hx
    rw [hparams]
    exact fun z hz => (h.params d y hy z hz).mono hvalues
  extension d x v hx hv := by
    obtain ⟨y, hy, -, hextension⟩ := hsame d x hx
    exact (h.extension d y v hy (hextension ▸ hv)).mono hvalues

/-- **A change that touches no outline keeps the books.** -/
theorem Booked.frame (h : p.Booked pending) (hout : ∀ d, p'.outline d = p.outline d)
    (htop : p'.top = p.top) (hvalues : p.values.Keeps p'.values) : p'.Booked pending where
  rooted := h.rooted.frame (fun d => by rw [hout]) hvalues
  linked := h.linked.frame fun d => by rw [hout]
  binding := h.binding.frame hvalues fun d x hx => ⟨x, hout d ▸ hx, rfl, rfl⟩
  filed := h.filed.frame (fun d => by rw [hout]) htop

/-! ## §4. Values. -/

/-- The books after a declaration binds other values. -/
theorem Booked.bind (h : p.Booked pending) (ho : p.outline d = some o) {o' : Outline}
    (hout : ∀ x, p'.outline x = if x = d then some o' else p.outline x)
    (hsame : o'.filing = o.filing) (htop : p'.top = p.top) (hvalues : p.values.Keeps p'.values)
    (hparams : p'.BindsParams d o'.params) (hextension : ∀ v, o'.extension = some v →
      p'.ValueIs v d .extensionReceiver) : p'.Booked pending := by
  have hfiled : p'.FiledAs p := by
    intro x
    rw [hout]
    split
    · next hx =>
      rw [hx, ho]
      exact congrArg some hsame
    · rfl
  refine ⟨h.rooted.frame hfiled.alikeTo.akinTo hvalues, h.linked.frame hfiled.alikeTo,
    ⟨fun x y hy => ?_, fun x y v hy hv => ?_⟩, h.filed.frame hfiled htop⟩
  · rw [hout] at hy
    split at hy
    · next hx =>
      cases hy
      exact hx ▸ hparams
    · exact fun z hz => (h.binding.params x y hy z hz).mono hvalues
  · rw [hout] at hy
    split at hy
    · next hx =>
      cases hy
      exact hx ▸ hextension v hv
    · exact (h.binding.extension x y v hy hv).mono hvalues

/-- One more parameter takes the next position. -/
theorem BindsParams.snoc {params : List ValueId} (h : p.BindsParams d params)
    (hvalues : p.values.Keeps p'.values) {v : ValueId}
    (hv : p'.ValueIs v d (.param params.length)) : p'.BindsParams d (params ++ [v]) := by
  intro y hy
  rw [List.zipIdx_append, List.mem_append, Nat.zero_add] at hy
  rcases hy with hy | hy
  · exact (h y hy).mono hvalues
  · rw [List.zipIdx_singleton, List.mem_singleton] at hy
    rw [hy]
    exact hv

/-! ## §5. A new declaration. -/

/-- One declaration was added, and values perhaps. -/
structure Gains (p p' : Program) (new : DeclId) (o : Outline) : Prop where
  fresh : ∀ x, (∃ y, p.outline x = some y) ↔ x.index < new.index
  outline : ∀ x, p'.outline x = if x = new then some o else p.outline x
  top : p'.top = p.top
  values : p.values.Keeps p'.values

namespace Gains

variable (g : p.Gains p' new o)
include g

theorem outline_new : p'.outline new = some o := by rw [g.outline, if_pos rfl]

theorem ne_of_outline {x : DeclId} {y : Outline} (hx : p.outline x = some y) : x ≠ new := by
  rintro rfl
  exact absurd ((g.fresh x).1 ⟨y, hx⟩) (lt_irrefl _)

theorem not_outline {y : Outline} : p.outline new ≠ some y := fun h => g.ne_of_outline h rfl

theorem outline_of_lt {x : DeclId} (hx : x.index < new.index) : p'.outline x = p.outline x := by
  rw [g.outline, if_neg]
  rintro rfl
  exact absurd hx (lt_irrefl _)

theorem outline_of_some {x : DeclId} {y : Outline} (hx : p.outline x = some y) :
    p'.outline x = some y := by
  rw [g.outline_of_lt ((g.fresh x).1 ⟨y, hx⟩), hx]

theorem cases {x : DeclId} {y : Outline} (hx : p'.outline x = some y) :
    x = new ∧ y = o ∨ p.outline x = some y := by
  rw [g.outline] at hx
  split at hx
  · next h => exact .inl ⟨h, (Option.some.inj hx).symm⟩
  · exact .inr hx

theorem receiverIn {k? : Option DeclId} (hk : ∀ k, k? = some k → k.index < new.index) :
    p'.receiverIn k? = p.receiverIn k? := by
  cases k? with
  | none => rfl
  | some k =>
    show (p'.outline k).bind _ = (p.outline k).bind _
    rw [g.outline_of_lt (hk k rfl)]

theorem outerReceiver (h : p.Rooted) {k? : Option DeclId}
    (hk : ∀ k, k? = some k → k.index < new.index) : p'.outerReceiver k? = p.outerReceiver k? := by
  cases k? with
  | none => rfl
  | some k =>
    have hlt := hk k rfl
    obtain ⟨y, hy⟩ := (g.fresh k).2 hlt
    show ((p'.outline k).filter _).bind _ = ((p.outline k).filter _).bind _
    rw [g.outline_of_lt hlt, hy, Option.filter_some]
    split
    · exact g.receiverIn fun k' hk' => (h.parent_lt k y k' hy hk').trans hlt
    · rfl

theorem isPart (hblank : o.Blank) {x : DeclId} : p'.IsPart x ↔ p.IsPart x ∨ o.backing = some x := by
  constructor
  · rintro ⟨q, y, hy, hpart⟩
    rcases g.cases hy with ⟨rfl, rfl⟩ | hy
    · rcases hpart with hb | hg | hs
      · exact .inr hb
      · exact absurd hg (by simp [hblank.getter])
      · exact absurd hs (by simp [hblank.setter])
    · exact .inl ⟨q, y, hy, hpart⟩
  · rintro (⟨q, y, hy, hpart⟩ | hb)
    · exact ⟨q, y, g.outline_of_some hy, hpart⟩
    · exact ⟨new, o, g.outline_new, .inl hb⟩

theorem register (hblank : o.Blank) (c : Option DeclId) : p'.register c = p.register c := by
  cases c with
  | none => exact g.top
  | some k =>
    show ((p'.outline k).map (·.members)).getD [] = ((p.outline k).map (·.members)).getD []
    rw [g.outline]
    split
    · next hk =>
      have hnone : p.outline k = none := by
        cases hy : p.outline k with
        | none => rfl
        | some y => exact absurd hk (g.ne_of_outline hy)
      rw [hnone]
      exact hblank.members
    · rfl

end Gains

/-- A part of a property is there. -/
theorem Linked.exists_of_isPart (h : p.Linked pending) (hrooted : p.Rooted) (hd : p.IsPart d) :
    ∃ y, p.outline d = some y := by
  obtain ⟨q, x, hx, hb | hpart⟩ := hd
  · obtain ⟨y, hy, -⟩ := hrooted.backing q x d hx hb
    exact ⟨y, hy⟩
  · obtain ⟨y, hy, -⟩ := h.accessors q x d hx hpart
    exact ⟨y, hy⟩

section

variable (g : p.Gains p' new o) (hblank : o.Blank)
  (hparent : ∀ k, o.parent = some k → k.index < new.index) (hbacking : ∀ b, o.backing = some b →
  b ∈ pending ∧ ∃ y, p.outline b = some y ∧ y.kind = .field
    ∧ y.parent = o.parent ∧ y.accessorOf = none)
  (hpending : ∀ x, x ∈ pending' ↔ x = new ∨ x ∈ pending ∧ o.backing ≠ some x)
include g hparent hbacking

theorem Rooted.add (h : p.Rooted) (hlinked : p.Linked pending)
    (hthis : o.kind = .cls → ∃ v value, o.this = some v ∧ p'.values.get? v = some value
      ∧ value.kind = .dispatchReceiver ∧ value.ty = .cls new ∧ value.owner = new)
    (hdispatch : o.kind = .function → o.dispatch = p.receiverIn o.parent)
    (houter : o.kind = .constructor → o.dispatch = p.outerReceiver o.parent) : p'.Rooted where
  parent_lt d x k hx hk := by
    rcases g.cases hx with ⟨rfl, rfl⟩ | hx
    · exact hparent k hk
    · exact h.parent_lt d x k hx hk
  this d x hx hkind := by
    rcases g.cases hx with ⟨rfl, rfl⟩ | hx
    · exact hthis hkind
    · obtain ⟨v, value, hv, hvalue, hrest⟩ := h.this d x hx hkind
      exact ⟨v, value, hv, g.values _ _ hvalue, hrest⟩
  dispatch d x hx hkind := by
    rcases g.cases hx with ⟨rfl, rfl⟩ | hx
    · rw [g.receiverIn hparent]
      exact hdispatch hkind
    · rw [g.receiverIn fun k hk => (h.parent_lt d x k hx hk).trans ((g.fresh d).1 ⟨x, hx⟩)]
      exact h.dispatch d x hx hkind
  outer d x hx hkind := by
    rcases g.cases hx with ⟨rfl, rfl⟩ | hx
    · rw [g.outerReceiver h hparent]
      exact houter hkind
    · rw [g.outerReceiver h fun k hk => (h.parent_lt d x k hx hk).trans ((g.fresh d).1 ⟨x, hx⟩)]
      exact h.outer d x hx hkind
  backing q x d hx hb := by
    rcases g.cases hx with ⟨rfl, rfl⟩ | hx
    · obtain ⟨-, y, hy, hkind, hpar, -⟩ := hbacking d hb
      exact ⟨y, g.outline_of_some hy, hkind, hpar⟩
    · obtain ⟨y, hy, hrest⟩ := h.backing q x d hx hb
      exact ⟨y, g.outline_of_some hy, hrest⟩
  backing_unique q q' x x' d hx hx' hb hb' := by
    -- what was pending was part of nothing, so no older property has it
    have hfree : ∀ q x, p.outline q = some x → x.backing = some d → o.backing ≠ some d :=
      fun q x hx hb hnew =>
      hlinked.pending_free d (hbacking d hnew).1 ⟨q, x, hx, .inl hb⟩
    rcases g.cases hx with ⟨rfl, rfl⟩ | hx
    · rcases g.cases hx' with ⟨rfl, -⟩ | hx'
      · rfl
      · exact absurd hb (hfree q' x' hx' hb')
    · rcases g.cases hx' with ⟨rfl, rfl⟩ | hx'
      · exact absurd hb' (hfree q x hx hb)
      · exact h.backing_unique q q' x x' d hx hx' hb hb'

include hblank hpending

omit hparent in
theorem Linked.add (h : p.Linked pending) (hrooted : p.Rooted) : p'.Linked pending' where
  accessor d x q hx hd hq := by
    rcases g.cases hx with ⟨rfl, rfl⟩ | hx
    · exact absurd ((hpending _).2 (.inl rfl)) hd
    · by_cases hb : o.backing = some d
      · -- a backing field is no accessor
        obtain ⟨-, y, hy, -, -, hof⟩ := hbacking d hb
        obtain rfl : x = y := Option.mem_unique hx hy
        rw [hof] at hq
        cases hq
      · have hold : d ∉ pending := fun hmem => hd ((hpending d).2 (.inr ⟨hmem, hb⟩))
        obtain ⟨y, hy, hpart⟩ := h.accessor d x q hx hold hq
        exact ⟨y, g.outline_of_some hy, hpart⟩
  accessors q x d hx hpart := by
    rcases g.cases hx with ⟨rfl, rfl⟩ | hx
    · rw [hblank.getter, hblank.setter] at hpart
      rcases hpart with hg | hs
      · cases hg
      · cases hs
    · obtain ⟨y, hy, hrest⟩ := h.accessors q x d hx hpart
      exact ⟨y, g.outline_of_some hy, hrest⟩
  getter_ne q x d hx hg := by
    rcases g.cases hx with ⟨rfl, rfl⟩ | hx
    · rw [hblank.getter] at hg
      cases hg
    · exact h.getter_ne q x d hx hg
  pending_there d hd := by
    rcases (hpending d).1 hd with rfl | ⟨hmem, -⟩
    · exact ⟨o, g.outline_new⟩
    · obtain ⟨y, hy⟩ := h.pending_there d hmem
      exact ⟨y, g.outline_of_some hy⟩
  pending_free d hd := by
    rw [g.isPart hblank]
    rintro (hpart | hb)
    · rcases (hpending d).1 hd with rfl | ⟨hmem, -⟩
      · obtain ⟨y, hy⟩ := h.exists_of_isPart hrooted hpart
        exact g.not_outline hy
      · exact h.pending_free d hmem hpart
    · rcases (hpending d).1 hd with rfl | ⟨-, hne⟩
      · obtain ⟨-, y, hy, -⟩ := hbacking d hb
        exact g.not_outline hy
      · exact hne hb

omit hparent in
theorem Filed.add (h : p.Filed pending) (hrooted : p.Rooted) : p'.Filed pending' where
  nodup c := by
    rw [g.register hblank]
    exact h.nodup c
  listed c d := by
    rw [g.register hblank, h.listed, g.isPart hblank]
    constructor
    · rintro ⟨hc, hd, hpart, y, hy, hyc⟩
      have hb : o.backing ≠ some d := fun hb => hd (hbacking d hb).1
      refine ⟨?_, ?_, ?_, y, g.outline_of_some hy, hyc⟩
      · cases c with
        | none => exact trivial
        | some k =>
          obtain ⟨z, hz, hkind⟩ := hc
          exact ⟨z, g.outline_of_some hz, hkind⟩
      · intro hmem
        rcases (hpending d).1 hmem with rfl | ⟨hold, -⟩
        · exact g.not_outline hy
        · exact hd hold
      · rintro (hold | hnew)
        · exact hpart hold
        · exact hb hnew
    · rintro ⟨hc, hd, hpart, y, hy, rfl⟩
      rcases g.cases hy with ⟨rfl, -⟩ | hy
      · exact absurd ((hpending _).2 (.inl rfl)) hd
      · refine ⟨?_, fun hmem => hd ((hpending d).2 (.inr ⟨hmem, fun hb => hpart (.inr hb)⟩)),
          fun hold => hpart (.inl hold), y, hy, rfl⟩
        cases hk : y.parent with
        | none => exact trivial
        | some k =>
          rw [hk] at hc
          obtain ⟨z, hz, hkind⟩ := hc
          have hlt := (hrooted.parent_lt d y k hy hk).trans ((g.fresh d).1 ⟨y, hy⟩)
          rw [g.outline_of_lt hlt] at hz
          exact ⟨z, hz, hkind⟩
  scope d x hx := by
    rcases g.cases hx with ⟨rfl, rfl⟩ | hx
    · rw [hblank.scope, hblank.members]
      rfl
    · rw [h.scope d x hx]
      congr 1
      -- whatever a class lists was there before
      refine List.filter_congr fun m hm => ?_
      have hlisted : m ∈ p.register (some d) := by
        show m ∈ ((p.outline d).map (·.members)).getD []
        rw [hx]
        exact hm
      obtain ⟨-, -, -, y, hy, -⟩ := (h.listed (some d) m).1 hlisted
      rw [hy, g.outline_of_some hy]

/-- **A new declaration is pending.**  A property may take a pending field as its backing field at
once. -/
theorem Booked.add (h : p.Booked pending)
    (hthis : o.kind = .cls → ∃ v value, o.this = some v ∧ p'.values.get? v = some value
      ∧ value.kind = .dispatchReceiver ∧ value.ty = .cls new ∧ value.owner = new)
    (hdispatch : o.kind = .function → o.dispatch = p.receiverIn o.parent)
    (houter : o.kind = .constructor → o.dispatch = p.outerReceiver o.parent) :
    p'.Booked pending' where
  rooted := h.rooted.add g hparent hbacking h.linked hthis hdispatch houter
  linked := h.linked.add g hblank hbacking hpending h.rooted
  binding :=
    { params := fun d x hx => by
        rcases g.cases hx with ⟨rfl, rfl⟩ | hx
        · rw [hblank.params]
          exact fun y hy => by cases hy
        · exact fun y hy => (h.binding.params d x hx y hy).mono g.values
      extension := fun d x v hx hv => by
        rcases g.cases hx with ⟨rfl, rfl⟩ | hx
        · rw [hblank.extension] at hv
          cases hv
        · exact (h.binding.extension d x v hx hv).mono g.values }
  filed := h.filed.add g hblank hbacking hpending h.rooted

end

/-! ## §6. Listing. -/

/-- A declaration was listed by its parent. -/
structure Enlists (p p' : Program) (d : DeclId) (o : Outline) : Prop where
  outline : ∀ x, p'.outline x = if o.parent = some x
    then (p.outline x).map (Outline.enlist d o.isNameable) else p.outline x
  top : p'.top = if o.parent = none then p.top ++ [d] else p.top
  values : p.values.Keeps p'.values

namespace Enlists

variable (e : p.Enlists p' d o)
include e

theorem alikeTo : p'.AlikeTo p := by
  intro x
  rw [e.outline]
  split
  · cases p.outline x with
    | none => rfl
    | some y =>
      show some (y.enlist d o.isNameable).core = some y.core
      unfold Outline.enlist
      split
      · rfl
      · rfl
  · rfl

theorem bound (x : DeclId) (y' : Outline) (hy' : p'.outline x = some y') :
    ∃ y, p.outline x = some y ∧ y'.params = y.params ∧ y'.extension = y.extension := by
  rw [e.outline] at hy'
  split at hy'
  · obtain ⟨y, hy, rfl⟩ := Option.map_eq_some_iff.1 hy'
    refine ⟨y, hy, ?_⟩
    unfold Outline.enlist
    split
    · exact ⟨rfl, rfl⟩
    · exact ⟨rfl, rfl⟩
  · exact ⟨y', hy', rfl, rfl⟩

theorem register_parent (hc : p.IsContainer o.parent) :
    p'.register o.parent = p.register o.parent ++ [d] := by
  cases hparent : o.parent with
  | none =>
    show p'.top = p.top ++ [d]
    rw [e.top, if_pos hparent]
  | some k =>
    rw [hparent] at hc
    obtain ⟨y, hy, hkind⟩ := hc
    show ((p'.outline k).map (·.members)).getD [] = ((p.outline k).map (·.members)).getD [] ++ [d]
    rw [e.outline, if_pos hparent, hy]
    show (y.enlist d o.isNameable).members = y.members ++ [d]
    unfold Outline.enlist
    rw [if_pos hkind]

theorem register_other {c : Option DeclId} (hc : c ≠ o.parent ∨ ¬ p.IsContainer c) :
    p'.register c = p.register c := by
  cases c with
  | none =>
    have hne : o.parent ≠ none :=
      fun hparent => hc.elim (fun h => h hparent.symm) fun h => h trivial
    show p'.top = p.top
    rw [e.top, if_neg hne]
  | some k =>
    show ((p'.outline k).map (·.members)).getD [] = ((p.outline k).map (·.members)).getD []
    rw [e.outline]
    split
    · next hparent =>
      cases hy : p.outline k with
      | none => rfl
      | some y =>
        have hkind : y.kind ≠ .cls :=
          fun hkind => hc.elim (fun h => h hparent.symm) fun h => h ⟨y, hy, hkind⟩
        show (y.enlist d o.isNameable).members = y.members
        unfold Outline.enlist
        rw [if_neg hkind]
    · rfl

end Enlists

/-- A pending declaration that is no accessor may be taken off the list of what is pending. -/
theorem Linked.settle (h : p.Linked pending) (ho : p.outline d = some o) (hof : o.accessorOf = none)
    (hpending : ∀ x, x ∈ pending' ↔ x ∈ pending ∧ x ≠ d) : p.Linked pending' :=
  { h with
    accessor := fun x y q hy hx hq => by
      by_cases hxd : x = d
      · subst hxd
        obtain rfl : y = o := Option.mem_unique hy ho
        rw [hof] at hq
        cases hq
      · exact h.accessor x y q hy (fun hmem => hx ((hpending x).2 ⟨hmem, hxd⟩)) hq
    pending_free := fun x hx => h.pending_free x ((hpending x).1 hx).1
    pending_there := fun x hx => h.pending_there x ((hpending x).1 hx).1 }

theorem Filed.list (h : p.Filed pending) (hlinked : p.Linked pending) (e : p.Enlists p' d o)
    (hd : d ∈ pending) (ho : p.outline d = some o)
    (hpending : ∀ x, x ∈ pending' ↔ x ∈ pending ∧ x ≠ d) : p'.Filed pending' where
  nodup c := by
    by_cases hc : c = o.parent ∧ p.IsContainer c
    · obtain ⟨rfl, hc⟩ := hc
      rw [e.register_parent hc]
      refine List.nodup_append.2 ⟨h.nodup _, List.nodup_singleton d, fun x hx y hy => ?_⟩
      rintro rfl
      rw [List.mem_singleton.1 hy] at hx
      exact ((h.listed _ d).1 hx).2.1 hd
    · rw [e.register_other (by rw [← not_and_or]; exact hc)]
      exact h.nodup c
  listed c x := by
    rw [e.alikeTo.akinTo.isContainer, e.alikeTo.isPart, e.alikeTo.akinTo.exists_parent, hpending]
    by_cases hc : c = o.parent ∧ p.IsContainer c
    · obtain ⟨rfl, hc⟩ := hc
      rw [e.register_parent hc, List.mem_append, h.listed, List.mem_singleton]
      constructor
      · rintro (⟨hc, hx, hpart, hy⟩ | rfl)
        · exact ⟨hc, fun hmem => hx hmem.1, hpart, hy⟩
        · exact ⟨hc, fun hmem => hmem.2 rfl, hlinked.pending_free x hd, o, ho, rfl⟩
      · rintro ⟨-, hx, hpart, hy⟩
        by_cases hxd : x = d
        · exact .inr hxd
        · exact .inl ⟨hc, fun hmem => hx ⟨hmem, hxd⟩, hpart, hy⟩
    · rw [e.register_other (by rw [← not_and_or]; exact hc), h.listed]
      constructor
      · rintro ⟨hc, hx, hrest⟩
        exact ⟨hc, fun hmem => hx hmem.1, hrest⟩
      · rintro ⟨hcont, hx, hpart, y, hy, hyc⟩
        refine ⟨hcont, fun hmem => hx ⟨hmem, ?_⟩, hpart, y, hy, hyc⟩
        rintro rfl
        obtain rfl : y = o := Option.mem_unique hy ho
        exact hc ⟨hyc.symm, hcont⟩
  scope x y hy := by
    have hnameable : (fun m => (p'.outline m).any Outline.isNameable) = fun m =>
        (p.outline m).any Outline.isNameable :=
      funext fun m => e.alikeTo.akinTo.isNameable m
    rw [hnameable]
    rw [e.outline] at hy
    split at hy
    · next hparent =>
      obtain ⟨z, hz, rfl⟩ := Option.map_eq_some_iff.1 hy
      have hscope := h.scope x z hz
      unfold Outline.enlist
      split
      · show ({ z.scope with declared := _ } : MemberScope)
          = { declared := (z.members ++ [d]).filter _ }
        rw [hscope, List.filter_append]
        have hflag : ((p.outline d).any Outline.isNameable) = o.isNameable := by
          rw [ho]
          rfl
        cases hn : o.isNameable with
        | false => simp [hflag, hn]
        | true => simp [hflag, hn]
      · exact hscope
    · exact h.scope x y hy

/-- **A pending declaration is listed by its container**, and pending no more. -/
theorem Booked.list (h : p.Booked pending) (e : p.Enlists p' d o) (hd : d ∈ pending)
    (ho : p.outline d = some o) (hof : o.accessorOf = none)
    (hpending : ∀ x, x ∈ pending' ↔ x ∈ pending ∧ x ≠ d) : p'.Booked pending' where
  rooted := h.rooted.frame e.alikeTo.akinTo e.values
  linked := (h.linked.settle ho hof hpending).frame e.alikeTo
  binding := h.binding.frame e.values e.bound
  filed := h.filed.list h.linked e hd ho hpending

/-! ## §7. Accessors. -/

/-- A property got its accessors. -/
structure Equips (p p' : Program) (q : DeclId) (x : Outline)
    (getter setter : Option DeclId) : Prop where
  before : p.outline q = some x
  blank : x.getter = none ∧ x.setter = none
  outline : ∀ d, p'.outline d = if d = q then some { x with getter, setter } else p.outline d
  top : p'.top = p.top
  values : p.values.Keeps p'.values

namespace Equips

variable {q : DeclId} {x : Outline} {getter setter : Option DeclId}
  (e : p.Equips p' q x getter setter)
include e

theorem akinTo : p'.AkinTo p := by
  intro d
  rw [e.outline]
  split
  · next hd =>
    rw [hd, e.before]
    rfl
  · rfl

theorem after : p'.outline q = some { x with getter, setter } := by rw [e.outline, if_pos rfl]

theorem cases {d : DeclId} {y : Outline} (hy : p'.outline d = some y) :
    d = q ∧ y = { x with getter, setter } ∨ d ≠ q ∧ p.outline d = some y := by
  rw [e.outline] at hy
  split at hy
  · next hd => exact .inl ⟨hd, (Option.some.inj hy).symm⟩
  · next hd => exact .inr ⟨hd, hy⟩

theorem isPart {d : DeclId} : p'.IsPart d ↔ p.IsPart d ∨ getter = some d ∨ setter = some d := by
  constructor
  · rintro ⟨k, y, hy, hpart⟩
    rcases e.cases hy with ⟨rfl, rfl⟩ | ⟨-, hy⟩
    · exact hpart.imp (fun hb => ⟨k, x, e.before, .inl hb⟩) id
    · exact .inl ⟨k, y, hy, hpart⟩
  · rintro (⟨k, y, hy, hpart⟩ | hnew)
    · by_cases hk : k = q
      · subst hk
        obtain rfl : y = x := Option.mem_unique hy e.before
        refine ⟨k, _, e.after, .inl ?_⟩
        rcases hpart with hb | hg | hs
        · exact hb
        · exact absurd hg (by simp [e.blank.1])
        · exact absurd hs (by simp [e.blank.2])
      · exact ⟨k, y, by rw [e.outline, if_neg hk]; exact hy, hpart⟩
    · exact ⟨q, _, e.after, .inr hnew⟩

theorem register (c : Option DeclId) : p'.register c = p.register c := by
  cases c with
  | none => exact e.top
  | some k =>
    show ((p'.outline k).map (·.members)).getD [] = ((p.outline k).map (·.members)).getD []
    rw [e.outline]
    split
    · next hk =>
      rw [hk, e.before]
      rfl
    · rfl

end Equips

/-- **Pending accessors go to their property**, and are pending no more. -/
theorem Booked.link {q : DeclId} {x : Outline} {getter setter : Option DeclId}
    (h : p.Booked pending) (e : p.Equips p' q x getter setter)
    (haccessors : ∀ d, getter = some d ∨ setter = some d → d ∈ pending ∧ ∃ o, p.outline d = some o
      ∧ o.kind = .function
      ∧ o.parent = x.parent ∧ o.accessorOf = some q)
    (hne : ∀ d, getter = some d → setter ≠ some d)
    (hpending : ∀ d, d ∈ pending' ↔ d ∈ pending ∧ ¬ (getter = some d ∨ setter = some d)) :
    p'.Booked pending' where
  rooted := h.rooted.frame e.akinTo e.values
  linked :=
    { accessor := fun d y k hy hd hk => by
        obtain ⟨y', hy', hyy⟩ := e.akinTo.exists_akin hy
        by_cases hmem : d ∈ pending
        · -- it is pending no more, so it is one of the accessors that were given
          have hnew : getter = some d ∨ setter = some d := by
            by_contra hnot
            exact hd ((hpending d).2 ⟨hmem, hnot⟩)
          obtain ⟨-, o, ho, -, -, hof⟩ := haccessors d hnew
          obtain rfl : y' = o := Option.mem_unique hy' ho
          obtain rfl : k = q := Option.some.inj (hk.symm.trans (hyy.accessorOf.trans hof))
          exact ⟨_, e.after, hnew⟩
        · obtain ⟨z, hz, hpart⟩ := h.linked.accessor d y' k hy' hmem (hyy.accessorOf ▸ hk)
          by_cases hkq : k = q
          · subst hkq
            obtain rfl : z = x := Option.mem_unique hz e.before
            rw [e.blank.1, e.blank.2] at hpart
            rcases hpart with hg | hs
            · cases hg
            · cases hs
          · exact ⟨z, by rw [e.outline, if_neg hkq]; exact hz, hpart⟩
      accessors := fun k y d hy hpart => by
        have hthere : ∀ z, (∃ o, p.outline d = some o ∧ o.kind = .function ∧ o.parent = z
            ∧ o.accessorOf = some k) →
            ∃ o, p'.outline d = some o ∧ o.kind = .function ∧ o.parent = z
            ∧ o.accessorOf = some k := by
          rintro z ⟨o, ho, hkind, hparent, hof⟩
          obtain ⟨o', ho', hoo⟩ := e.akinTo.symm.exists_akin ho
          exact ⟨o', ho', hoo.kind ▸ hkind, hoo.parent ▸ hparent, hoo.accessorOf ▸ hof⟩
        rcases e.cases hy with ⟨rfl, rfl⟩ | ⟨-, hy⟩
        · exact hthere _ (haccessors d hpart).2
        · exact hthere _ (h.linked.accessors k y d hy hpart)
      getter_ne := fun k y d hy hg => by
        rcases e.cases hy with ⟨rfl, rfl⟩ | ⟨-, hy⟩
        · exact hne d hg
        · exact h.linked.getter_ne k y d hy hg
      pending_there := fun d hd => by
        obtain ⟨y, hy⟩ := h.linked.pending_there d ((hpending d).1 hd).1
        obtain ⟨y', hy', -⟩ := e.akinTo.symm.exists_akin hy
        exact ⟨y', hy'⟩
      pending_free := fun d hd => by
        obtain ⟨hmem, hnot⟩ := (hpending d).1 hd
        rw [e.isPart]
        exact fun hpart => hpart.elim (h.linked.pending_free d hmem) hnot }
  binding := h.binding.frame e.values fun d y hy => by
    rcases e.cases hy with ⟨rfl, rfl⟩ | ⟨-, hy⟩
    · exact ⟨x, e.before, rfl, rfl⟩
    · exact ⟨y, hy, rfl, rfl⟩
  filed :=
    { nodup := fun c => by
        rw [e.register]
        exact h.filed.nodup c
      listed := fun c d => by
        rw [e.register, h.filed.listed, e.akinTo.isContainer, e.isPart,
          e.akinTo.exists_parent, hpending]
        constructor
        · rintro ⟨hc, hd, hpart, hy⟩
          exact ⟨hc, fun hmem => hd hmem.1,
            fun hp => hp.elim hpart fun hnew => hd (haccessors d hnew).1, hy⟩
        · rintro ⟨hc, hd, hpart, hy⟩
          exact ⟨hc, fun hmem => hd ⟨hmem, fun hnew => hpart (.inr hnew)⟩,
            fun hp => hpart (.inl hp), hy⟩
      scope := fun d y hy => by
        have hnameable : (fun m => (p'.outline m).any Outline.isNameable)
            = fun m => (p.outline m).any Outline.isNameable := funext fun m => e.akinTo.isNameable m
        rw [hnameable]
        rcases e.cases hy with ⟨rfl, rfl⟩ | ⟨-, hy⟩
        · exact h.filed.scope d x e.before
        · exact h.filed.scope d y hy }

end Program

end LambdaLift
