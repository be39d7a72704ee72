/-
  LambdaLift.Proofs.Renewal
  **WHAT REPLACEMENTS LOOK LIKE, AND WHY ONE MAY BE REFUSED.**

  The replacement of a function takes the values that the function captured,
  then counterparts of its parameters.  The replacement of a class has a
  field for each, and its constructors take them.  Members are copied one
  for one, a property with its backing field and its accessors.  `Renews`
  says so for each kind of declaration, and `Ledger` that the records are
  consistent and every replacement has its form.  `Refuses` lists what can
  be wrong with a program that is closed.

  Main results:
    * `Bijection.insert_cases` — which pairs are accepted;
    * `Renews.mono` — what has been said of a replacement stays true;
    * `Books.pair`, `Books.addReplacement`, `Books.setContext` and their
      like — each elementary step keeps the records consistent;
    * `Ledger.closedAt` — replacements of a closed program are closed.
-/
import Mathlib
import LambdaLift.Lift.Member
import LambdaLift.WellFormed
import LambdaLift.Proofs.Below
import LambdaLift.Proofs.Growth

namespace LambdaLift

variable {p q : Program} {d x y : DeclId} {v : ValueId} {c : Context} {content old : Declaration}
  {params taken : List ValueId} {r : Relocation} {value : Value} {kind : ValueKind} {w : Work}

/-! ## §1. What stays, and which pairs are accepted. -/

/-- Entries were added, and nothing else happened. -/
structure Program.Extends (p q : Program) : Prop where
  decls : p.decls.Keeps q.decls
  values : p.values.Keeps q.values
  exprs : q.exprs = p.exprs
  top : q.top = p.top

theorem Program.Extends.refl (p : Program) : p.Extends p := ⟨.refl _, .refl _, rfl, rfl⟩

theorem Program.Extends.allocDecl (h : p.Extends q) (content : Declaration) :
    p.Extends (q.allocDecl content).2 :=
  { h with decls := h.decls.trans (Arena.keeps_alloc _ _) }

/-- What is written to what was added does not show. -/
theorem Program.Extends.setDecl (h : p.Extends q) (content : Declaration)
    (hx : p.decls.size ≤ x.index) : p.Extends (q.setDecl x content) := by
  refine { h with decls := fun y a hy => ?_ }
  have hlt := Arena.lt_size_of_get? hy
  show (q.decls.set x content).get? y = some a
  rw [Arena.get?_set_of_ne]
  · exact h.decls _ _ hy
  · rintro rfl
    omega

theorem Relocation.get?_of_lifted (h : r.lifted d = .ok x) : r.get? d = some x := by
  unfold Relocation.lifted at h
  cases hd : r.get? d with
  | none =>
    rw [hd] at h
    cases h
  | some y =>
    rw [hd] at h
    cases h
    rfl

theorem Relocation.get?_of_context (h : r.context d = .ok c) : r.contexts.get? d = some c := by
  unfold context at h
  split at h <;> cases h
  assumption

theorem Relocation.lifted_eq (h : r.get? d = some x) : r.lifted d = .ok x := by
  unfold Relocation.lifted
  rw [h]

theorem Relocation.context_eq (h : r.contexts.get? d = some c) : r.context d = .ok c := by
  unfold Relocation.context
  rw [h]

theorem Relocation.get?_relocate {e : DeclId} (hd : r.get? d = none) :
    ({ r with decls := r.decls.insert d x } : Relocation).get? e = if e = d
      then some x else r.get? e := by
  unfold Relocation.get? at hd ⊢
  rw [OrderedMap.get?_insert]
  by_cases hed : e = d
  · subst hed
    simp [OrderedMap.get?_eq_none_iff.1 hd]
  · simp [hed]

namespace Bijection

variable {α β : Type} [DecidableEq α] [DecidableEq β] {t t' : Bijection α β} {a : α} {b : β}

/-- **Which pairs are accepted**, if the indexes are inverse to each other: those that are there,
and those of two sides without a partner. -/
theorem insert_cases (hinverse : ∀ {a b}, t.forth? a = some b ↔ t.back? b = some a)
    (h : insert a b t = .ok () t') : t' = t ∧ t.forth? a = some b
      ∨ t' = ⟨t.forward.insert a b, t.backward.insert b a⟩ ∧ t.forth? a = none
      ∧ t.back? b = none := by
  obtain ⟨ha | ha, hb⟩ | ⟨c, hrefuses⟩ := t.agrees_or_refuses a b
  · have hback : t.back? b = none := hb.resolve_right fun hb => by
      cases ha.symm.trans (hinverse.2 hb)
    cases (insert_new ha hback).symm.trans h
    exact .inr ⟨rfl, ha, hback⟩
  · cases (insert_same ha (hinverse.1 ha)).symm.trans h
    exact .inl ⟨rfl, ha⟩
  · cases (insert_of_refuses hrefuses).symm.trans h

end Bijection

/-! ## §2. Where replacements go and how they are called. -/

/-- The container that everything lifted out of the root goes into. -/
def Site.destination (site : Site) (p : Program) : Option DeclId :=
  (p.decls.get? site.root).bind (·.parent)

/-- A declaration and its ancestors, each with its name. -/
def Program.lineage (p : Program) (d : DeclId) : List (DeclId × Name) :=
  (p.chain d).scopes.map fun s => (s.1, s.2.name)

/-- The scopes before the first that satisfies a test, on a chain that ends. -/
theorem Program.Chain.before_eq {c : Chain} (hend : c.ending = .atModule) (test : DeclId → Bool) :
    c.before test = .ok (c.scopes.takeWhile fun s => !test s.1) := by
  unfold before
  split
  next => rfl
  next hnone =>
    simp only [List.any_eq_true, not_exists, not_and, Bool.not_eq_true] at hnone
    rw [hend, List.takeWhile_eq_self_iff.2 fun s hs => by simp [hnone s hs]]
    rfl

/-- The part that a scope of this name contributes to composed names. -/
def Site.part (site : Site) (s : DeclId × Name) : String :=
  match site.locals.lambdaIndex? s.1, site.locals.objectIndex? s.1 with
  | some index, _ => site.settings.lambdaName index
  | none, some index => site.settings.objectName index
  | none, none => s.2.display

/-- The parts of the name composed for a declaration: those of the scopes from the destination down
to it. -/
def Site.parts (site : Site) (p : Program) (d : DeclId) : List String :=
  (((p.lineage d).takeWhile fun s => !decide (some s.1 = site.destination p)).map site.part).reverse

/-- The name composed for a declaration whose chain ends. -/
def Site.Composes (site : Site) (p₀ : Program) (d : DeclId) (name : Name) : Prop :=
  (p₀.chain d).ending = .atModule →
    name = .ident (String.intercalate site.settings.separator (site.parts p₀ d))

/-- The declaration is reached from the root, with its code; constructors are in their table. -/
def Site.Reaches (site : Site) (p : Program) (d : DeclId) (content : Declaration) : Prop :=
  p.decls.get? d = some content ∧ (∀ e, content.code = some e → p.Below site.root (.expr e))
    ∧ (∀ c, content = .constructor c → d ∈ site.locals.constructors)
    ∧ (p.Below site.root (.decl d) ∨ p.Below site.root (.backing d) ∧ ∃ f, content = .field f)

/-- A declaration names the class as its parent, or the property that it is a part of does. -/
def Site.Houses (site : Site) (p : Program) (d k : DeclId) : Prop :=
  (∃ content, p.decls.get? d = some content ∧ content.parent = some k)
    ∨ ∃ x q, p.Below site.root (.decl x) ∧ p.decls.get? x = some (.property q)
    ∧ d ∈ (Declaration.property q).listed
      ∧ q.parent = some k

/-! ## §3. The form of a replacement. -/

/-- The parameter of `new` at position `i` carries a captured value. -/
def CarriesAt (settings : Settings) (r : Relocation) (p : Program) (new : DeclId) (i : Nat)
    (v x : ValueId) : Prop :=
  r.carried.get? x = some v ∧ ∃ value, p.values.get? v = some value ∧ p.values.get? x = some
    { name := Lift.carrierName settings value.name, ty := value.ty, owner := new, kind := .param i }

/-- A value of `new` has the name and the type of another. -/
def Program.Twin (p : Program) (new : DeclId) (kind : ValueKind) (v x : ValueId) : Prop :=
  ∃ value, p.values.get? v = some value ∧ p.values.get? x = some { value with owner := new, kind }

/-- A value of `new` is the counterpart of another, with its name and its type. -/
def Links (r : Relocation) (p : Program) (new : DeclId) (kind : ValueKind) (v x : ValueId) : Prop :=
  r.values.forth? v = some x ∧ p.Twin new kind v x

/-- The replacement of `d` takes captured values, then counterparts of the old parameters, each at
its position, and reads the captured values from there. -/
def Signs (settings : Settings) (r : Relocation) (p : Program) (d new : DeclId)
    (taken old params : List ValueId) : Prop :=
  ∃ caps copies, params = caps ++ copies
    ∧ List.Forall₂ (fun a => CarriesAt settings r p new a.2 a.1) taken.zipIdx caps
    ∧ List.Forall₂ (fun a => Links r p new (.param a.2) a.1) (old.zipIdx taken.length) copies
    ∧ r.contexts.get? d = some (.params (.ofList (taken.zip caps)))

/-- A field of the class `new` for a captured value. -/
def KeepsField (settings : Settings) (p : Program) (new : DeclId) (v : ValueId)
    (field : DeclId) : Prop :=
  ∃ value, p.values.get? v = some value ∧ p.decls.get? field = some (.field
    { name := Lift.carrierName settings value.name, parent := some new, origin := .captured,
      visibility := .inContainer, isFinal := true, ty := value.ty })

/-- The local class that a declaration is a member of, and the replacement of that class, with the
receivers of both. -/
structure Lodges (p₀ : Program) (site : Site) (r : Relocation) (p : Program) (d k : DeclId)
    (c : ClassDecl) (newK : DeclId) (this : ValueId) : Prop where
  houses : site.Houses p₀ d k
  listed : k ∈ site.locals.classes.keys
  old : p₀.decls.get? k = some (.cls c)
  new : r.get? k = some newK
  forth : r.values.forth? c.this = some this
  owned : p.ValueIs this newK .dispatchReceiver

/-- A replacement is the accessor of the replacement of a property, if what it replaces is one of a
property. -/
def Accesses (p₀ : Program) (r : Relocation) (d : DeclId) (f : FunctionDecl)
    (accessorOf : Option DeclId) : Prop :=
  f.accessorOf = none ∧ accessorOf = none
    ∨ ∃ q x y, p₀.decls.get? q = some (.property x)
    ∧ d ∈ x.getter.toList ++ x.setter.toList ∧ r.get? q = some y
      ∧ accessorOf = some y

/-- A part of a property has a replacement, and it is of the right kind. -/
def RenewsPart (p₀ : Program) (r : Relocation) (kind : Declaration → Prop)
    (old? new? : Option DeclId) : Prop :=
  Option.Rel (fun a x => r.get? a = some x ∧ ∃ content, p₀.decls.get? a = some content
    ∧ kind content) old? new?

/-- How a declaration is replaced, up to what it overrides and which members can be named on it. -/
inductive Renews (p₀ : Program) (site : Site) (r : Relocation) (p : Program) (d new : DeclId) :
    (old replacement : Declaration) → Prop
  /-- a local function takes what it captured -/
  | function {f : FunctionDecl} {closure : Closure} {name : Name}
      {extensionReceiver : Option ValueId} {params : List ValueId} :
      d ∈ site.locals.functions.keys → site.closures.get? d = some closure →
        site.Composes p₀ d name →
      f.dispatchReceiver = none →
      Option.Rel (Links r p new .extensionReceiver) f.extensionReceiver extensionReceiver →
      Signs site.settings r p d new closure.toList f.params params →
      Renews p₀ site r p d new (.function f) (.function
        { name, parent := site.destination p₀, origin := .lifted, visibility := .inContainer,
          typeParams := f.typeParams, extensionReceiver, params, ret := f.ret, body := f.body })
  /-- a local class keeps it in new fields -/
  | cls {c : ClassDecl} {closure : Closure} {name : Name} {this : ValueId} {fields : List DeclId} :
      d ∈ site.locals.classes.keys → site.closures.get? d = some closure → site.Composes p₀ d name →
      r.values.forth? c.this = some this → p.ValueIs this new .dispatchReceiver →
      List.Forall₂ (KeepsField site.settings p new) closure.toList fields → fields.Nodup →
      (∀ f ∈ fields, p₀.decls.size ≤ f.index) →
      r.contexts.get? d = some (.fields this (.ofList (closure.toList.zip fields))) →
      Renews p₀ site r p d new (.cls c) (.cls
        { name, parent := site.destination p₀, origin := .lifted, kind := c.kind,
          visibility := .inContainer, modality := c.modality, supertypes := c.supertypes, this })
  /-- a constructor takes what its class captured -/
  | constructor {c : ConstructorDecl} {k newK : DeclId} {closure : Closure}
      {dispatchReceiver : Option ValueId} {params : List ValueId} :
      c.parent = some k → k ∈ site.locals.classes.keys → r.get? k = some newK →
        site.closures.get? k = some closure →
      Option.Rel (Links r p new .dispatchReceiver) c.dispatchReceiver dispatchReceiver →
      Signs site.settings r p d new closure.toList c.params params →
      Renews p₀ site r p d new (.constructor c) (.constructor
        { c with parent := some newK, visibility := .inContainer, dispatchReceiver, params })
  /-- a method or an accessor is called on the receiver of the class -/
  | method {f : FunctionDecl} {k newK : DeclId} {c : ClassDecl} {this : ValueId}
      {extensionReceiver : Option ValueId} {params : List ValueId} {accessorOf : Option DeclId} :
      d ∉ site.locals.functions.keys → Lodges p₀ site r p d k c newK this →
        f.dispatchReceiver = some c.this →
      Option.Rel (Links r p new .extensionReceiver) f.extensionReceiver extensionReceiver →
      List.Forall₂ (fun a => Links r p new (.param a.2) a.1) f.params.zipIdx params →
      Accesses p₀ r d f accessorOf →
      Renews p₀ site r p d new (.function f) (.function
        { f with parent := some newK, dispatchReceiver := some this,
                 extensionReceiver, params, accessorOf, overrides := [] })
  | property {q : PropertyDecl} {k newK : DeclId} {c : ClassDecl} {this : ValueId}
      {backingField getter setter : Option DeclId} : Lodges p₀ site r p d k c newK this →
      RenewsPart p₀ r (fun content => ∃ f, content = .field f) q.backingField backingField →
      RenewsPart p₀ r (fun content => ∃ f, content = .function f) q.getter getter →
      RenewsPart p₀ r (fun content => ∃ f, content = .function f) q.setter setter →
      Renews p₀ site r p d new (.property q) (.property
        { q with parent := some newK, backingField, getter, setter, overrides := [] })
  | field {f : FieldDecl} {k newK : DeclId} {c : ClassDecl} {this : ValueId} :
      Lodges p₀ site r p d k c newK this →
      Renews p₀ site r p d new (.field f) (.field { f with parent := some newK })

/-- A declaration has got a replacement of its form. -/
def Renewed (p₀ : Program) (site : Site) (r : Relocation) (p : Program) (d : DeclId) : Prop :=
  ∃ old new content, site.Reaches p₀ d old ∧ r.get? d = some new ∧ p.decls.get? new = some content
    ∧ Renews p₀ site r p d new old content.erase

section

variable {p₀ p p' : Program} {site : Site} {settings : Settings}
  {r r' : Relocation} {d new : DeclId}

theorem Program.ValueIs.mono {owner : DeclId} (h : p.ValueIs v owner kind)
    (hvalues : p.values.Keeps p'.values) : p'.ValueIs v owner kind := by
  obtain ⟨value, hv, hvalue⟩ := h
  exact ⟨value, hvalues _ _ hv, hvalue⟩

theorem optionRel_mono {α β : Type} {R S : α → β → Prop} {a : Option α} {b : Option β}
    (h : Option.Rel R a b) (hRS : ∀ x y, R x y → S x y) : Option.Rel S a b := by
  cases h with
  | none => exact .none
  | some h => exact .some (hRS _ _ h)

theorem optionRel_left {α β : Type} {R : α → β → Prop} {a? : Option α} {b? : Option β}
    (h : Option.Rel R a? b?) {b : β} (hb : b ∈ b?) : ∃ a ∈ a?, R a b := by
  cases h with
  | none => cases hb
  | some h =>
    cases hb
    exact ⟨_, rfl, h⟩

theorem CarriesAt.mono {i : Nat} {x : ValueId} (h : CarriesAt settings r p new i v x)
    (hgrow : Records r p r' p') : CarriesAt settings r' p' new i v x := by
  obtain ⟨hcarried, value, hv, hx⟩ := h
  exact ⟨hgrow.carried hcarried, value, hgrow.values _ _ hv, hgrow.values _ _ hx⟩

theorem Program.Twin.mono {x : ValueId} (h : p.Twin new kind v x) (hp : p.values.Keeps p'.values) :
    p'.Twin new kind v x := by
  obtain ⟨value, hv, hx⟩ := h
  exact ⟨value, hp _ _ hv, hp _ _ hx⟩

theorem Links.mono {x : ValueId} (h : Links r p new kind v x) (hgrow : Records r p r' p') :
    Links r' p' new kind v x :=
  ⟨hgrow.forth h.1, h.2.mono hgrow.values⟩

theorem Signs.mono {old : List ValueId} (h : Signs settings r p d new taken old params)
    (hgrow : Records r p r' p') : Signs settings r' p' d new taken old params := by
  obtain ⟨caps, copies, heq, hcaps, hcopies, hcontext⟩ := h
  exact ⟨caps, copies, heq, hcaps.imp fun _ _ h => h.mono hgrow,
    hcopies.imp fun _ _ h => h.mono hgrow, hgrow.contexts hcontext⟩

theorem KeepsField.mono {field : DeclId} (h : KeepsField settings p new v field)
    (hgrow : Records r p r' p') : KeepsField settings p' new v field := by
  obtain ⟨value, hv, hfield⟩ := h
  exact ⟨value, hgrow.values _ _ hv, hgrow.fields hfield⟩

theorem Lodges.mono {k newK : DeclId} {c : ClassDecl} {this : ValueId}
    (h : Lodges p₀ site r p d k c newK this) (hgrow : Records r p r' p') :
    Lodges p₀ site r' p' d k c newK this :=
  { h with
    new := hgrow.moved h.new
    forth := hgrow.forth h.forth
    owned := h.owned.mono hgrow.values }

theorem Accesses.mono {f : FunctionDecl} {accessorOf : Option DeclId}
    (h : Accesses p₀ r d f accessorOf) (hgrow : Records r p r' p') :
    Accesses p₀ r' d f accessorOf := by
  refine h.imp_right ?_
  rintro ⟨q, x, y, hq, hd, hy, heq⟩
  exact ⟨q, x, y, hq, hd, hgrow.moved hy, heq⟩

theorem RenewsPart.mono {kind : Declaration → Prop} {old? new? : Option DeclId}
    (h : RenewsPart p₀ r kind old? new?) (hgrow : Records r p r' p') :
    RenewsPart p₀ r' kind old? new? :=
  optionRel_mono h fun _ _ hx => ⟨hgrow.moved hx.1, hx.2⟩

/-- **What has been said of a replacement stays true.** -/
theorem Renews.mono (h : Renews p₀ site r p d new old content) (hgrow : Records r p r' p') :
    Renews p₀ site r' p' d new old content := by
  cases h with
  | function hlisted hclosure hname hdispatch hext hsigns =>
    exact .function hlisted hclosure hname hdispatch
      (optionRel_mono hext fun _ _ h => h.mono hgrow) (hsigns.mono hgrow)
  | cls hlisted hclosure hname hforth howned hfields hnodup hnew hcontext =>
    exact .cls hlisted hclosure hname (hgrow.forth hforth) (howned.mono hgrow.values)
      (hfields.imp fun _ _ h => h.mono hgrow) hnodup hnew (hgrow.contexts hcontext)
  | constructor hk hlisted hnew hclosure hdispatch hsigns =>
    exact .constructor hk hlisted (hgrow.moved hnew) hclosure
      (optionRel_mono hdispatch fun _ _ h => h.mono hgrow)
      (hsigns.mono hgrow)
  | method hnot hlodges hdispatch hext hparams haccesses =>
    exact .method hnot (hlodges.mono hgrow) hdispatch
      (optionRel_mono hext fun _ _ h => h.mono hgrow)
      (hparams.imp fun _ _ h => h.mono hgrow) (haccesses.mono hgrow)
  | property hlodges hbacking hgetter hsetter =>
    exact .property (hlodges.mono hgrow) (hbacking.mono hgrow) (hgetter.mono hgrow)
      (hsetter.mono hgrow)
  | field hlodges => exact .field (hlodges.mono hgrow)

theorem Renewed.mono (h : Renewed p₀ site r p d) (hgrow : Grows r p r' p') :
    Renewed p₀ site r' p' d := by
  obtain ⟨old, new, content, hd, hnew, hcontent, hrenews⟩ := h
  obtain ⟨content', hcontent', heq⟩ := hgrow.decls hcontent
  exact ⟨old, new, content', hd, hgrow.moved hnew, hcontent', heq ▸ hrenews.mono hgrow.toRecords⟩

end

/-! ## §4. What may be refused. -/

/-- The values that get counterparts with the replacement of a declaration.  A method shares the
receiver of its class. -/
def Declaration.binds : Declaration → List ValueId
  | .function f => f.params ++ f.extensionReceiver.toList
  | .constructor c => c.params ++ c.dispatchReceiver.toList
  | .cls c => [c.this]
  | _ => []

/-- The declarations that get their replacements together with one in the tables.  Accessors are
brought by their property. -/
def Program.brought (p : Program) (d : DeclId) : List DeclId :=
  match p.decls.get? d with
  | some (.function f) =>
    match p.isMember d with
    | .ok true => if f.accessorOf.isSome then [] else [d]
    | _ => [d]
  | some (.property q) => q.backingField.toList ++ d :: (q.getter.toList ++ q.setter.toList)
  | _ => [d]

/-- The declarations in the tables. -/
def Locals.tables (l : Locals) : List DeclId :=
  l.functions.keys ++ l.classes.keys ++ l.constructors.toList ++ l.members.toList

/-- A declaration is to get a replacement. -/
def Site.Brings (site : Site) (p : Program) (d : DeclId) : Prop :=
  ∃ t ∈ site.locals.tables, d ∈ p.brought t

/-- What keeps the declarations below a root of a closed program from getting their replacements. -/
inductive Site.Refuses (site : Site) (p₀ : Program) : Prop
  /-- a local function has a receiver -/
  | receiver {d : DeclId} {f : FunctionDecl} : d ∈ site.locals.functions.keys →
      p₀.decls.get? d = some (.function f) →
      f.dispatchReceiver.isSome → Refuses site p₀
  /-- what is lifted has no closure -/
  | closure {d : DeclId} : d ∈ site.locals.lifted → site.closures.get? d = none → Refuses site p₀
  /-- a value would get two counterparts -/
  | shared {d e : DeclId} {old old' : Declaration} {v : ValueId} : site.Brings p₀ d →
      site.Brings p₀ e → d ≠ e →
      p₀.decls.get? d = some old → p₀.decls.get? e = some old' → v ∈ old.binds →
      v ∈ old'.binds → Refuses site p₀
  | repeated {d : DeclId} {old : Declaration} : site.Brings p₀ d →
      p₀.decls.get? d = some old → ¬ old.binds.Nodup →
      Refuses site p₀
  /-- a declaration would get two replacements -/
  | twice {d e x : DeclId} : d ∈ site.locals.tables → e ∈ site.locals.tables →
      d ≠ e → x ∈ p₀.brought d →
      x ∈ p₀.brought e → Refuses site p₀
  | doubled {d : DeclId} : d ∈ site.locals.tables → ¬ (p₀.brought d).Nodup → Refuses site p₀
  /-- a constructor or a member stands in no class that is lifted -/
  | stray {d : DeclId} {content : Declaration} : d ∈ site.locals.constructors
      ∨ d ∈ site.locals.members →
      d ∈ p₀.brought d → p₀.decls.get? d = some content →
      (∀ k ∈ content.parent, k ∉ site.locals.classes.keys) →
      Refuses site p₀
  /-- the receiver of a method is not that of its class -/
  | foreign {d k : DeclId} {f : FunctionDecl} {c : ClassDecl} : site.Brings p₀ d →
      p₀.decls.get? d = some (.function f) →
      site.Houses p₀ d k → k ∈ site.locals.classes.keys → p₀.decls.get? k = some (.cls c) →
      f.dispatchReceiver ≠ some c.this → Refuses site p₀
  /-- an accessor is no function, or a backing field no field -/
  | accessor {d a : DeclId} {q : PropertyDecl} {content : Declaration} : d ∈ site.locals.members →
      p₀.decls.get? d = some (.property q) → a ∈ q.getter.toList ++ q.setter.toList →
      p₀.decls.get? a = some content →
      (∀ f, content ≠ .function f) → Refuses site p₀
  | backing {d b : DeclId} {q : PropertyDecl} {content : Declaration} : d ∈ site.locals.members →
      p₀.decls.get? d = some (.property q) → b ∈ q.backingField → p₀.decls.get? b = some content →
      (∀ f, content ≠ .field f) → Refuses site p₀
  /-- a class is a member -/
  | nested {d : DeclId} {c : ClassDecl} : d ∈ site.locals.members →
      p₀.decls.get? d = some (.cls c) → Refuses site p₀
  /-- what can be named on a class is to get no replacement -/
  | unlisted {d m : DeclId} {c : ClassDecl} : d ∈ site.locals.classes.keys →
      p₀.decls.get? d = some (.cls c) →
      m ∈ c.scope.declared → ¬ site.Brings p₀ m → Refuses site p₀

/-- Whether a fault is reported as such: the others mean that a handle leads nowhere, or that
nesting never ends. -/
def Fault.isReport : Fault → Bool
  | .violation _ _ | .unsupported _ _ => true
  | _ => false

/-- The fault is a report. -/
abbrev Fault.Reports (f : Fault) : Prop := f.isReport = true

/-- What lifting works from, for a root of a closed program. -/
structure Site.Sound (site : Site) (p₀ : Program) : Prop where
  closed : p₀.Closed
  chains : p₀.ChainsEnd
  root : ∃ content, p₀.decls.get? site.root = some content
  sorted : p₀.Sorted site.root site.locals
  closures : ∀ {d c}, site.closures.get? d = some c → ∀ v ∈ c.toList, v.index < p₀.values.size

/-- What lifted declarations go into is there. -/
theorem Site.Sound.dest_lt {site : Site} {p₀ : Program} (h : site.Sound p₀)
    (hy : y ∈ (site.destination p₀).toList) : y.index < p₀.decls.size := by
  obtain ⟨content, hroot⟩ := h.root
  simp only [Site.destination, hroot, Option.bind_some] at hy
  exact ((Program.closed_iff.1 h.closed).decls hroot).1 y (List.mem_append_left _ hy)

/-- What a fault leaves behind: only additions, and on a closed program it is a report that has a
reason. -/
def Site.Blames (site : Site) (p₀ : Program) (f : Fault) (w : Work) : Prop :=
  p₀.Extends w.program ∧ (site.Sound p₀ → f.Reports ∧ site.Refuses p₀)

/-- One of the values has a counterpart already, or one is listed twice. -/
def Relocation.Clashes (r : Relocation) (vs : List ValueId) : Prop :=
  (∃ v ∈ vs, ∃ y, r.values.forth? v = some y) ∨ ¬ vs.Nodup

theorem Relocation.Clashes.mono {vs us : List ValueId} (h : r.Clashes vs)
    (hsub : vs.Sublist us) : r.Clashes us := by
  refine h.imp ?_ fun hnodup hus => hnodup (hus.sublist hsub)
  rintro ⟨v, hv, hy⟩
  exact ⟨v, hsub.subset hv, hy⟩

/-! ## §5. Records that are consistent. -/

/-- What a declaration overrides, and what can be named on a class. -/
def Declaration.exposed : Declaration → List DeclId
  | .function f => f.overrides
  | .property q => q.overrides
  | .cls c => c.scope.declared ++ c.scope.inherited
  | _ => []

theorem Declaration.mem_namedDecls (hy : y ∈ content.namedDecls) :
    y ∈ content.erase.namedDecls ∨ y ∈ content.exposed := by
  cases content
    <;> simp only [namedDecls, erase, exposed, parent, List.mem_append] at hy ⊢ <;> tauto

/-- A type of a value that was there, or of a class that is added. -/
def Program.Typed (p₀ : Program) (n : Nat) (ty : Ty) : Prop :=
  (∃ v value, p₀.values.get? v = some value ∧ ty = value.ty)
    ∨ ∃ k : DeclId, ty = .cls k ∧ k.index < n

/-- Entries were only added.  Counterparts are new values that are linked in both directions,
parameters that carry captured values are new and nobody's counterparts, and replacements are new
declarations of which no two are the same.  There is a context only beside a replacement, and fields
of captured values replace nothing.  Handles of declarations below `n` count as taken. -/
structure Books (p₀ : Program) (site : Site) (n : Nat) (r : Relocation) (p : Program) : Prop where
  grown : p₀.Extends p
  inverse : ∀ {v x}, r.values.forth? v = some x ↔ r.values.back? x = some v
  counterparts : ∀ {v x}, r.values.forth? v = some x →
    p₀.values.size ≤ x.index ∧ x.index < p.values.size
  carried : ∀ {x v}, r.carried.get? x = some v → p₀.values.size ≤ x.index ∧ x.index < p.values.size
    ∧ r.values.back? x = none ∧ ∃ d c, site.closures.get? d = some c ∧ v ∈ c.toList
  contexts : ∀ {d c}, r.contexts.get? d = some c →
    (r.get? d).isSome ∧ (d ∈ site.locals.lifted ∨ d ∈ site.locals.constructors)
  fields : ∀ {d this captured}, r.contexts.get? d = some (.fields this captured) →
    ∀ f ∈ captured.values, f.index < p.decls.size ∧ ∀ e, r.get? e ≠ some f
  images : ∀ {d x}, r.get? d = some x → p₀.decls.size ≤ x.index ∧ x.index < p.decls.size
  injective : ∀ {d d' x}, r.get? d = some x → r.get? d' = some x → d = d'
  owners : ∀ {x value}, p₀.values.size ≤ x.index → p.values.get? x = some value →
    value.owner.index < n
  types : ∀ {x value}, p.values.get? x = some value → p₀.Typed n value.ty
  added : ∀ {x content}, p₀.decls.size ≤ x.index → p.decls.get? x = some content →
    (∃ d, r.get? d = some x) ∨ ∃ d ∈ site.locals.classes.keys, ∃ new v, r.get? d = some new
      ∧ KeepsField site.settings p new v x
  exposed : ∀ {x content}, site.Sound p₀ → p₀.decls.size ≤ x.index → p.decls.get? x = some content →
    ∀ y ∈ content.exposed, y.index < p.decls.size

namespace Books

variable {p₀ p : Program} {site : Site} {n : Nat} {r : Relocation}

theorem start (p : Program) (site : Site) : Books p site p.decls.size {} p where
  grown := .refl p
  inverse := ⟨fun h => (by cases h), fun h => (by cases h)⟩
  counterparts h := by cases h
  carried h := by cases h
  contexts h := by cases h
  fields h := by cases h
  images h := by cases h
  injective h := by cases h
  owners hx hv := absurd (Arena.lt_size_of_get? hv) (Nat.not_lt.2 hx)
  types hv := .inl ⟨_, _, hv, rfl⟩
  added hx hc := absurd (Arena.lt_size_of_get? hc) (Nat.not_lt.2 hx)
  exposed _ hx hc := absurd (Arena.lt_size_of_get? hc) (Nat.not_lt.2 hx)

theorem reserve {m : Nat} (h : Books p₀ site n r p) (hle : n ≤ m) : Books p₀ site m r p :=
  { h with
    owners := fun hx hv => (h.owners hx hv).trans_le hle
    types := fun hv => (h.types hv).imp_right fun ⟨k, hk, hlt⟩ => ⟨k, hk, hlt.trans_le hle⟩ }

/-- A value that comes next is nobody's counterpart. -/
theorem back_next (h : Books p₀ site n r p) {x : ValueId} (hx : p.values.size ≤ x.index) :
    r.values.back? x = none := by
  cases hback : r.values.back? x with
  | none => rfl
  | some v => exact absurd (h.counterparts (h.inverse.2 hback)).2 (Nat.not_lt.2 hx)

theorem carried_next (h : Books p₀ site n r p) {x : ValueId} (hx : p.values.size ≤ x.index) :
    r.carried.get? x = none := by
  cases hcarried : r.carried.get? x with
  | none => rfl
  | some v => exact absurd (h.carried hcarried).2.1 (Nat.not_lt.2 hx)

theorem contexts_none (h : Books p₀ site n r p) (hd : r.get? d = none) :
    r.contexts.get? d = none := by
  cases hc : r.contexts.get? d with
  | none => rfl
  | some c =>
    have hsome := (h.contexts hc).1
    rw [hd] at hsome
    cases hsome

theorem addValue (h : Books p₀ site n r p) (howner : value.owner.index < n)
    (hty : p₀.Typed n value.ty) : Books p₀ site n r (p.allocValue value).2 := by
  have hsize := p.size_allocValue value
  have hkeeps : p.values.Keeps (p.allocValue value).2.values := Arena.keeps_alloc _ _
  have hget : ∀ {x old}, (p.allocValue value).2.values.get? x = some old →
      old = value ∨ p.values.get? x = some old := by
    intro x old hx
    rw [show (p.allocValue value).2.values = (p.values.alloc value).2 from rfl, Arena.get?_alloc]
      at hx
    split at hx
    · exact .inl (Option.some.inj hx).symm
    · exact .inr hx
  refine { h with grown := ⟨h.grown.decls, h.grown.values.trans hkeeps, h.grown.exprs, h.grown.top⟩,
                  counterparts := fun hv => ?_, carried := fun hx => ?_, owners := fun hx hv => ?_,
                  types := fun hv => ?_, added := fun hx hc => ?_ }
  · have := h.counterparts hv
    omega
  · obtain ⟨hlow, hlt, hrest⟩ := h.carried hx
    exact ⟨hlow, by omega, hrest⟩
  · exact (hget hv).elim (fun heq => heq ▸ howner) (h.owners hx)
  · exact (hget hv).elim (fun heq => heq ▸ hty) h.types
  · refine (h.added hx hc).imp_right ?_
    rintro ⟨d, hd, new, v, hnew, old, hold, hfield⟩
    exact ⟨d, hd, new, v, hnew, old, hkeeps _ _ hold, hfield⟩

/-- A parameter that was just added carries a value. -/
theorem carry (h : Books p₀ site n r p) {x : ValueId} (hlow : p₀.values.size ≤ x.index)
    (hlt : x.index < p.values.size) (hback : r.values.back? x = none) {c : Closure}
    (hc : site.closures.get? d = some c) (hv : v ∈ c.toList) :
    Books p₀ site n { r with carried := r.carried.insert x v } p := by
  refine { h with carried := fun {y u} hy => ?_ }
  rcases OrderedMap.of_get?_insert hy with hy | ⟨rfl, rfl⟩
  · exact h.carried hy
  · exact ⟨hlow, hlt, hback, d, c, hc, hv⟩

/-- A value without a partner gets a new one. -/
theorem pair (h : Books p₀ site n r p) {x : ValueId} (hv : r.values.forth? v = none)
    (hback : r.values.back? x = none) (hcarried : r.carried.get? x = none)
    (hlow : p₀.values.size ≤ x.index) (hlt : x.index < p.values.size) :
    Books p₀ site n (r.pair v x) p := by
  refine { h with inverse := fun {u y} => ?_, counterparts := fun {u y} hu => ?_,
                  carried := fun {y u} hy => ?_ }
  · show (r.values.forward.insert v x).get? u = some y
        ↔ (r.values.backward.insert x v).get? y = some u
    constructor
    · intro hu
      rcases OrderedMap.of_get?_insert hu with hu | ⟨rfl, rfl⟩
      · exact OrderedMap.get?_insert_of_some (h.inverse.1 hu)
      · exact OrderedMap.get?_insert_self hback
    · intro hy
      rcases OrderedMap.of_get?_insert hy with hy | ⟨rfl, rfl⟩
      · exact OrderedMap.get?_insert_of_some (h.inverse.2 hy)
      · exact OrderedMap.get?_insert_self hv
  · rcases OrderedMap.of_get?_insert hu with hu | ⟨-, rfl⟩
    · exact h.counterparts hu
    · exact ⟨hlow, hlt⟩
  · obtain ⟨hlow', hlt', hnone, hclosure⟩ := h.carried hy
    refine ⟨hlow', hlt', ?_, hclosure⟩
    have hne : y ≠ x := by
      rintro rfl
      cases hcarried.symm.trans hy
    rw [Relocation.back_pair_of_ne hne]
    exact hnone

/-- Entries of a program to which a declaration was added. -/
theorem get?_allocDecl {content' : Declaration}
    (hx : (p.allocDecl content).2.decls.get? x = some content') :
    x = p.decls.next ∧ content' = content ∨ p.decls.get? x = some content' := by
  rw [show (p.allocDecl content).2.decls = (p.decls.alloc content).2 from rfl, Arena.get?_alloc]
    at hx
  split at hx
  · rename_i heq
    exact .inl ⟨heq, (Option.some.inj hx).symm⟩
  · exact .inr hx

/-- A declaration is added that has nothing in its scope and that something accounts for. -/
theorem addDecl (h : Books p₀ site n r p) (hexposed : content.exposed = []) {r' : Relocation}
    (hvalues : r'.values = r.values) (hcarried : r'.carried = r.carried)
    (hcontexts : r'.contexts = r.contexts)
    (hmoved : ∀ {e y}, r.get? e = some y → r'.get? e = some y)
    (hget : ∀ {e y}, r'.get? e = some y → r.get? e = some y ∨ y = p.decls.next)
    (hinj : ∀ {e e'}, r'.get? e = some p.decls.next → r'.get? e' = some p.decls.next → e = e')
    (hadded : (∃ d, r'.get? d = some p.decls.next) ∨ ∃ d ∈ site.locals.classes.keys, ∃ new v,
      r'.get? d = some new
      ∧ KeepsField site.settings (p.allocDecl content).2 new v p.decls.next) :
    Books p₀ site n r' (p.allocDecl content).2 := by
  have hsize := p.size_allocDecl content
  have hnext : p.decls.next.index = p.decls.size := rfl
  have hlow := h.grown.decls.size_le
  have hold : ∀ {e y}, r'.get? e = some y → y.index < p.decls.size →
      r.get? e = some y := fun he hlt =>
    (hget he).resolve_right (by rintro rfl; omega)
  have hkeeps : p.decls.Keeps (p.allocDecl content).2.decls := Arena.keeps_alloc _ _
  constructor
  case grown => exact h.grown.allocDecl content
  case inverse => rw [hvalues]; exact h.inverse
  case counterparts => rw [hvalues]; exact h.counterparts
  case carried => rw [hvalues, hcarried]; exact h.carried
  case contexts =>
    rw [hcontexts]
    intro d c hc
    obtain ⟨hsome, hkind⟩ := h.contexts hc
    obtain ⟨y, hy⟩ := Option.isSome_iff_exists.1 hsome
    exact ⟨by rw [hmoved hy]; rfl, hkind⟩
  case fields =>
    rw [hcontexts]
    intro d this captured hc f hf
    obtain ⟨hlt, hnone⟩ := h.fields hc f hf
    exact ⟨by omega, fun e he => hnone e (hold he hlt)⟩
  case images =>
    intro e y he
    rcases hget he with he | rfl
    · have := h.images he
      omega
    · omega
  case injective =>
    intro e e' y he he'
    by_cases hy : y = p.decls.next
    · subst hy
      exact hinj he he'
    · exact h.injective ((hget he).resolve_right hy) ((hget he').resolve_right hy)
  case owners => exact h.owners
  case types => exact h.types
  case added =>
    intro y content' hy hc
    rcases get?_allocDecl hc with ⟨rfl, -⟩ | hc
    · exact hadded
    · refine (h.added hy hc).imp (fun ⟨d, hd⟩ => ⟨d, hmoved hd⟩) ?_
      rintro ⟨d, hlisted, new, v, hd, value, hv, hfield⟩
      exact ⟨d, hlisted, new, v, hmoved hd, value, hv, hkeeps _ _ hfield⟩
  case exposed =>
    intro y content' hsound hy hc z hz
    rcases get?_allocDecl hc with ⟨-, rfl⟩ | hc
    · rw [hexposed] at hz
      cases hz
    · have := h.exposed hsound hy hc z hz
      omega

theorem fresh_next (h : Books p₀ site n r p) (e : DeclId) : r.get? e ≠ some p.decls.next :=
  fun he => absurd (h.images he).2 (Nat.lt_irrefl _)

/-- A field for a captured value is added. -/
theorem addField (h : Books p₀ site n r p) {new : DeclId} (hlisted : d ∈ site.locals.classes.keys)
    (hd : r.get? d = some new) (hv : p.values.get? v = some value) :
    Books p₀ site n r (p.allocDecl (.field
      { name := Lift.carrierName site.settings value.name, parent := some new, origin := .captured,
        visibility := .inContainer, isFinal := true, ty := value.ty })).2 :=
  h.addDecl rfl rfl rfl rfl id .inl (fun he => absurd he (h.fresh_next _))
    (.inr ⟨d, hlisted, new, v, hd, value, hv, Arena.get?_alloc_next _ _⟩)

/-- A replacement is added for a declaration that has none. -/
theorem addReplacement (h : Books p₀ site n r p) (hd : r.get? d = none)
    (hexposed : content.exposed = []) :
    Books p₀ site n { r with decls := r.decls.insert d p.decls.next } (p.allocDecl content).2 := by
  have hget : ∀ e, ({ r with decls := r.decls.insert d p.decls.next } : Relocation).get? e
      = if e = d then some p.decls.next else r.get? e := fun e => Relocation.get?_relocate hd
  have hself : ∀ {e}, ({ r with decls := r.decls.insert d p.decls.next } : Relocation).get? e
    = some p.decls.next →
      e = d := by
    intro e he
    rw [hget] at he
    split at he
    · assumption
    · exact absurd he (h.fresh_next _)
  refine h.addDecl hexposed rfl rfl rfl (fun he => OrderedMap.get?_insert_of_some he)
    (fun {e y} he => ?_)
    (fun he he' => (hself he).trans (hself he').symm) (.inl ⟨d, OrderedMap.get?_insert_self hd⟩)
  rw [hget] at he
  split at he
  · exact .inr (Option.some.inj he).symm
  · exact .inl he

theorem setContext (h : Books p₀ site n r p) (hd : (r.get? d).isSome)
    (hkind : d ∈ site.locals.lifted ∨ d ∈ site.locals.constructors)
    (hfields : ∀ this captured, c = .fields this captured → ∀ f ∈ captured.values,
      f.index < p.decls.size ∧ ∀ e, r.get? e ≠ some f) :
    Books p₀ site n { r with contexts := r.contexts.insert d c } p := by
  refine { h with contexts := fun {e c'} he => ?_, fields := fun {e this captured} he => ?_ }
  · rcases OrderedMap.of_get?_insert he with he | ⟨rfl, -⟩
    · exact h.contexts he
    · exact ⟨hd, hkind⟩
  · rcases OrderedMap.of_get?_insert he with he | ⟨-, heq⟩
    · exact h.fields he
    · exact hfields this captured heq.symm

/-- A replacement is written to. -/
theorem setDecl (h : Books p₀ site n r p) (content : Declaration) (hd : r.get? d = some x)
    (hexposed : site.Sound p₀ → ∀ y ∈ content.exposed, y.index < p.decls.size) :
    Books p₀ site n r (p.setDecl x content) := by
  obtain ⟨hlow, hlt⟩ := h.images hd
  obtain ⟨old, hold⟩ := Arena.exists_get?_of_lt hlt
  have hsize := p.size_setDecl x content
  have hget := Program.get?_setDecl hold content
  refine { h with grown := h.grown.setDecl content hlow, fields := fun hc f hf => ?_,
                  images := fun he => ?_, added :=
                  fun {y a} hy ha => ?_, exposed := fun {y a} hsound hy ha z hz => ?_ }
  · rw [hsize]
    exact h.fields hc f hf
  · rw [hsize]
    exact h.images he
  · rw [hget] at ha
    by_cases hyx : y = x
    · exact .inl ⟨d, hyx ▸ hd⟩
    · rw [if_neg hyx] at ha
      refine (h.added hy ha).imp_right ?_
      rintro ⟨e, hlisted, new, v, he, value, hv, hfield⟩
      exact ⟨e, hlisted, new, v, he, value, hv, by rw [hget, if_neg hyx]; exact hfield⟩
  · rw [hsize]
    rw [hget] at ha
    split at ha
    · cases ha
      exact hexposed hsound z hz
    · exact h.exposed hsound hy ha z hz

/-- A fault that is a report and has a reason. -/
theorem blames {f : Fault} (h : Books p₀ site n r w.program) (hf : f.Reports)
    (hrefuses : site.Refuses p₀) : site.Blames p₀ f w :=
  ⟨h.grown, fun _ => ⟨hf, hrefuses⟩⟩

/-- A value that is there in a closed program is found. -/
theorem blames_value (h : Books p₀ site n r w.program)
    (hv : site.Sound p₀ → v.index < p₀.values.size) :
    ∀ f, w.program.value v = .error f → site.Blames p₀ f w := by
  refine fun f hf => ⟨h.grown, fun hsound => ?_⟩
  obtain ⟨value, hvalue⟩ := Arena.exists_get?_of_lt (hv hsound)
  cases hf.symm.trans (Program.value_eq_ok.2 (h.grown.values _ _ hvalue))

end Books

/-! ## §6. The ledger. -/

/-- The records are consistent, every replacement has its form but for one that is being made, and
what has a counterpart is bound by a declaration that has a replacement. -/
structure Ledger (p₀ : Program) (site : Site) (pending : Option DeclId) (r : Relocation)
    (p : Program) : Prop
    extends Books p₀ site p.decls.size r p where
  renewed : ∀ {d x}, r.get? d = some x → d ∉ pending → Renewed p₀ site r p d
  brings : ∀ {d}, (r.get? d).isSome → site.Brings p₀ d
  origins : ∀ {v x}, r.values.forth? v = some x →
    ∃ d old, (r.get? d).isSome ∧ p₀.decls.get? d = some old ∧ v ∈ old.binds

namespace Ledger

variable {p₀ p : Program} {site : Site} {pending : Option DeclId} {r : Relocation}
  {d x : DeclId} {old : Declaration}

theorem start (p : Program) (site : Site) : Ledger p site none {} p where
  toBooks := .start p site
  renewed h := by cases h
  brings h := by cases h
  origins h := by cases h

/-- The replacement of a declaration whose content is known. -/
theorem renews (h : Ledger p₀ site none r p) (hx : r.get? d = some x)
    (hold : p₀.decls.get? d = some old) :
    ∃ content, p.decls.get? x = some content ∧ Renews p₀ site r p d x old content.erase := by
  obtain ⟨old', x', content, ⟨hold', -⟩, hx', hcontent, hrenews⟩ := h.renewed hx (by simp)
  cases hold.symm.trans hold'
  cases hx.symm.trans hx'
  exact ⟨content, hcontent, hrenews⟩

/-- What a declaration is reached by that has a replacement. -/
theorem reaches (h : Ledger p₀ site none r p) (hx : r.get? d = some x) :
    ∃ old, site.Reaches p₀ d old := by
  obtain ⟨old, -, -, hreach, -⟩ := h.renewed hx (by simp)
  exact ⟨old, hreach⟩

/-- What a declaration binds clashes only for a reason. -/
theorem refuses_of_clashes (h : Ledger p₀ site pending r p) (hd : site.Brings p₀ d)
    (hold : p₀.decls.get? d = some old) (hfree : (r.get? d).isSome → site.Refuses p₀)
    (hclash : r.Clashes old.binds) : site.Refuses p₀ := by
  rcases hclash with ⟨v, hv, y, hy⟩ | hnodup
  · obtain ⟨e, old', he, hold', hv'⟩ := h.origins hy
    by_cases hde : d = e
    · exact hfree (hde ▸ he)
    · exact .shared hd (h.brings he) hde hold hold' hv hv'
  · exact .repeated hd hold hnodup

end Ledger

/-! ## §7. Replacements of a closed program are closed. -/

/-- Every handle that a declaration names leads somewhere. -/
structure Program.Names (p : Program) (content : Declaration) : Prop where
  decls : ∀ y ∈ content.namedDecls, y.index < p.decls.size
  values : ∀ v ∈ content.namedValues, v.index < p.values.size
  code : ∀ e ∈ content.code, e.index < p.exprs.size

section

variable {p₀ p : Program} {site : Site} {r : Relocation} {d new : DeclId}

theorem Site.Sound.names (h : site.Sound p₀) (hd : p₀.decls.get? d = some old)
    (hgrown : p₀.Extends p) : p.Names old := by
  obtain ⟨hdecls, hvalues, hcode⟩ := (Program.closed_iff.1 h.closed).decls hd
  refine ⟨fun y hy => (hdecls y hy).trans_le hgrown.decls.size_le,
    fun v hv => (hvalues v hv).trans_le hgrown.values.size_le, fun e he => ?_⟩
  rw [hgrown.exprs]
  exact hcode e he

theorem Links.lt {x : ValueId} (h : Links r p new kind v x) : x.index < p.values.size := by
  obtain ⟨-, value, -, hx⟩ := h
  exact Arena.lt_size_of_get? hx

theorem Signs.lt {settings : Settings} {old : List ValueId}
    (h : Signs settings r p d new taken old params) : ∀ v ∈ params, v.index < p.values.size := by
  obtain ⟨caps, copies, rfl, hcaps, hcopies, -⟩ := h
  intro v hv
  rcases List.mem_append.1 hv with hv | hv
  · obtain ⟨a, -, -, value, -, hx⟩ := forall₂_left hcaps hv
    exact Arena.lt_size_of_get? hx
  · obtain ⟨a, -, hlinks⟩ := forall₂_left hcopies hv
    exact hlinks.lt

theorem RenewsPart.lt {kind : Declaration → Prop} {old? new? : Option DeclId}
    (h : RenewsPart p₀ r kind old? new?) (himages : ∀ {d x}, r.get? d = some x →
      x.index < p.decls.size) : ∀ x ∈ new?.toList, x.index < p.decls.size := by
  intro x hx
  obtain ⟨a, -, ha, -⟩ := optionRel_left h (Option.mem_toList.1 hx)
  exact himages ha

/-- **A replacement names what is there**, if what it replaces does. -/
theorem Renews.names (h : Renews p₀ site r p d new old content) (hold : p.Names old)
    (himages : ∀ {d x}, r.get? d = some x → x.index < p.decls.size)
    (hdest : ∀ y ∈ (site.destination p₀).toList, y.index < p.decls.size) : p.Names content := by
  obtain ⟨hdecls, hvalues, hcode⟩ := hold
  cases h with
  | function _ _ _ _ hext hsigns =>
    refine ⟨fun y hy => ?_, fun v hv => ?_, hcode⟩
    · simp only [Declaration.namedDecls, Declaration.parent, List.mem_append, Option.toList_none,
        List.not_mem_nil, or_false] at hy hdecls
      rcases hy with hy | hy
      · exact hdest y hy
      · exact hdecls y (.inr (.inl (.inl hy)))
    · simp only [Declaration.namedValues, Declaration.dispatchReceiver,
        Declaration.extensionReceiver, Declaration.params, Declaration.cls?, List.mem_append,
        Option.map_none, Option.toList_none, List.not_mem_nil, or_false, false_or] at hv
      rcases hv with hv | hv
      · obtain ⟨_, -, hlinks⟩ := optionRel_left hext (Option.mem_toList.1 hv)
        exact hlinks.lt
      · exact hsigns.lt v hv
  | cls _ _ _ _ howned _ _ _ _ =>
    refine ⟨fun y hy => ?_, fun v hv => ?_, hcode⟩
    · simp only [Declaration.namedDecls, Declaration.parent, List.mem_append, List.not_mem_nil,
        or_false] at hy hdecls
      rcases hy with hy | hy
      · exact hdest y hy
      · exact hdecls y (.inr (.inl (.inl (.inl hy))))
    · obtain ⟨value, hvalue, -⟩ := howned
      simp only [Declaration.namedValues, Declaration.dispatchReceiver,
        Declaration.extensionReceiver, Declaration.params, Declaration.cls?, List.mem_append,
        Option.map_some, Option.toList_none, Option.toList_some, List.not_mem_nil, false_or,
        List.mem_singleton] at hv
      exact hv ▸ Arena.lt_size_of_get? hvalue
  | constructor _ _ hnew _ hdispatch hsigns =>
    refine ⟨fun y hy => ?_, fun v hv => ?_, hcode⟩
    · simp only [Declaration.namedDecls, Declaration.parent, List.append_nil, Option.toList_some,
        List.mem_singleton] at hy
      exact hy ▸ himages hnew
    · simp only [Declaration.namedValues, Declaration.dispatchReceiver,
        Declaration.extensionReceiver, Declaration.params, Declaration.cls?, List.mem_append,
        Option.map_none, Option.toList_none, List.not_mem_nil, or_false] at hv
      rcases hv with hv | hv
      · obtain ⟨_, -, hlinks⟩ := optionRel_left hdispatch (Option.mem_toList.1 hv)
        exact hlinks.lt
      · exact hsigns.lt v hv
  | @method f _ _ c this x? params accessorOf _ hlodges _ hext hparams haccesses =>
    refine ⟨fun y hy => ?_, fun v hv => ?_, hcode⟩
    · simp only [Declaration.namedDecls, Declaration.parent, List.mem_append, Option.toList_some,
        List.mem_singleton, List.not_mem_nil, or_false] at hy hdecls
      rcases hy with rfl | hy | hy
      · exact himages hlodges.new
      · exact hdecls y (.inr (.inl (.inl hy)))
      · obtain ⟨-, rfl⟩ | ⟨_, _, x, -, -, hx, rfl⟩ := haccesses
        · cases hy
        · obtain rfl := List.mem_singleton.1 hy
          exact himages hx
    · obtain ⟨value, hvalue, -⟩ := hlodges.owned
      simp only [Declaration.namedValues, Declaration.dispatchReceiver,
        Declaration.extensionReceiver, Declaration.params, Declaration.cls?, List.mem_append,
        Option.map_none, Option.toList_none, Option.toList_some, List.not_mem_nil, or_false,
        List.mem_singleton] at hv
      rcases hv with (rfl | hv) | hv
      · exact Arena.lt_size_of_get? hvalue
      · obtain ⟨_, -, hlinks⟩ := optionRel_left hext (Option.mem_toList.1 hv)
        exact hlinks.lt
      · obtain ⟨_, -, hlinks⟩ := forall₂_left hparams hv
        exact hlinks.lt
  | property hlodges hbacking hgetter hsetter =>
    refine ⟨fun y hy => ?_, by rintro v ⟨⟩, hcode⟩
    simp only [Declaration.namedDecls, Declaration.parent, List.mem_append, Option.toList_some,
      List.mem_singleton, List.not_mem_nil, or_false] at hy hdecls
    rcases hy with rfl | (((hy | hy) | hy) | hy)
    · exact himages hlodges.new
    · exact hdecls y (.inr (.inl (.inl (.inl (.inl hy)))))
    · exact hbacking.lt himages y hy
    · exact hgetter.lt himages y hy
    · exact hsetter.lt himages y hy
  | field hlodges =>
    refine ⟨fun y hy => ?_, by rintro v ⟨⟩, hcode⟩
    simp only [Declaration.namedDecls, Declaration.parent, List.mem_append, Option.toList_some,
      List.mem_singleton] at hy hdecls
    rcases hy with rfl | hy
    · exact himages hlodges.new
    · exact hdecls y (.inr hy)

theorem Program.Typed.lt {n : Nat} {ty : Ty} (h : p₀.Typed n ty) (hp : p₀.Closed)
    (hn : p₀.decls.size ≤ n) : ∀ y ∈ ty.classes, y.index < n := by
  intro y hy
  obtain ⟨v, value, hv, rfl⟩ | ⟨k, rfl, hk⟩ := h
  · exact (((Program.closed_iff.1 hp).values hv).2 y hy).trans_le hn
  · simp only [Ty.classes, List.mem_singleton] at hy
    exact hy ▸ hk

/-- A declaration that was added names what is there. -/
theorem Ledger.names_added (h : Ledger p₀ site none r p) (hsound : site.Sound p₀)
    (hlow : p₀.decls.size ≤ x.index) (hx : p.decls.get? x = some content) : p.Names content := by
  have himages : ∀ {d x}, r.get? d = some x → x.index < p.decls.size := fun hd => (h.images hd).2
  have hsize := h.grown.decls.size_le
  obtain ⟨d, hd⟩ | ⟨d, -, new, v, hd, value, hv, hfield⟩ := h.added hlow hx
  · obtain ⟨old, hreach⟩ := h.reaches hd
    obtain ⟨content', hcontent', hrenews⟩ := h.renews hd hreach.1
    cases hx.symm.trans hcontent'
    obtain ⟨hdecls, hvalues, hcode⟩ :=
      hrenews.names (hsound.names hreach.1 h.grown) himages fun y hy =>
      (hsound.dest_lt hy).trans_le hsize
    refine ⟨fun y hy => ?_, ?_, ?_⟩
    · rcases Declaration.mem_namedDecls hy with hy | hy
      · exact hdecls y hy
      · exact h.exposed hsound hlow hx y hy
    · rwa [Declaration.namedValues_erase] at hvalues
    · rwa [Declaration.code_erase] at hcode
  · cases hx.symm.trans hfield
    refine ⟨fun y hy => ?_, by rintro v ⟨⟩, by rintro e ⟨⟩⟩
    simp only [Declaration.namedDecls, Declaration.parent, Option.toList_some, List.mem_append,
      List.mem_singleton] at hy
    rcases hy with rfl | hy
    · exact himages hd
    · exact (h.types hv).lt hsound.closed hsize y hy

/-- **Replacements of a closed program are closed.** -/
theorem Ledger.closedAt (h : Ledger p₀ site none r p) (hsound : site.Sound p₀) :
    p.ClosedAt p.decls.size := by
  have hclosed := Program.closed_iff.1 hsound.closed
  have hsize := h.grown.decls.size_le
  refine ⟨fun {x content} hx => ?_, fun {x value} hx => ?_, fun {e node} he => ?_, fun d hd => ?_⟩
  · suffices hnames : p.Names content from ⟨hnames.decls, hnames.values, hnames.code⟩
    by_cases hlt : x.index < p₀.decls.size
    · obtain ⟨old, hold⟩ := Arena.exists_get?_of_lt hlt
      cases hx.symm.trans (h.grown.decls _ _ hold)
      exact hsound.names hold h.grown
    · exact h.names_added hsound (Nat.le_of_not_lt hlt) hx
  · refine ⟨?_, (h.types hx).lt hsound.closed hsize⟩
    by_cases hlt : x.index < p₀.values.size
    · obtain ⟨old, hold⟩ := Arena.exists_get?_of_lt hlt
      cases hx.symm.trans (h.grown.values _ _ hold)
      exact (hclosed.values hold).1.trans_le hsize
    · exact h.owners (Nat.le_of_not_lt hlt) hx
  · rw [h.grown.exprs] at he
    obtain ⟨hdecls, hvalues, hoperands⟩ := hclosed.exprs he
    refine ⟨fun d hd => (hdecls d hd).trans_le hsize,
      fun v hv => (hvalues v hv).trans_le h.grown.values.size_le, fun x hx => ?_⟩
    rw [h.grown.exprs]
    exact hoperands x hx
  · rw [h.grown.top] at hd
    exact (hclosed.top d hd).trans_le hsize

end

end LambdaLift
