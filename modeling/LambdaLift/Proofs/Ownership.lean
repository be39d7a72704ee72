/-
  LambdaLift.Proofs.Ownership
  **LOWERING KEEPS PARENTS AND OWNERS IN ORDER.**

  Parameters and receivers are copied, variables move with their function,
  and bodies are shared between what is lifted and what it replaces.  What
  the module leads to when a root has been lowered is one of few things
  (`Remains`): something outside the root, which is as it was; the root;
  something lifted out of it; or code that was added.  Nothing that was
  replaced is led to any more, so its variables are not missed.

  Main results:
    * `Lowering.remains` — what is left to lead to;
    * `Lowering.accounted_of_lowered` — one root;
    * `lower_accounted` — a whole run.
-/
import Mathlib
import LambdaLift.Proofs.Hosts
import LambdaLift.Proofs.Independent
import LambdaLift.Proofs.Safety

namespace LambdaLift

variable {p : Program} {d g k x x₀ : DeclId} {c container : Option DeclId} {e : ExprId}
  {v : ValueId} {content : Declaration} {node : Expr} {m n : Nat} {place : Place} {r : Relocation}

/-! ## §1. What changes and what does not. -/

/-- Values of what has no replacement stay where they are. -/
theorem Touched.keeps_value {q : Program} {B : ExprId → Prop} (h : Touched q n B r p)
    {value : Value} (hv : q.values.get? v = some value) (hr : r.get? value.owner = none) :
    p.values.get? v = some value := by
  refine (h.values hv).resolve_right ?_
  rintro ⟨owner, -, howner, -⟩
  cases hr.symm.trans howner

namespace Program

variable {p p' q : Program} {d : DeclId} {content content' : Declaration} {parent : Option DeclId}

theorem OwnsBound.refills (h : p.OwnsBound d content) (hrefills : Refills m n content content') :
    p.OwnsBound d content' := by
  cases hrefills with
  | same => exact h
  | init => exact .field _ _ _
  | @members c ms =>
    refine ⟨h.params, h.extension, ?_⟩
    rintro _ ⟨⟩
    exact h.this c rfl

theorem OwnsBound.touched {B : ExprId → Prop} (h : q.OwnsBound d content)
    (htouched : Touched q n B r p) (hr : r.get? d = none) : p.OwnsBound d content where
  params x hx := by
    obtain ⟨value, hvalue, howner, hkind⟩ := h.params x hx
    exact ⟨value, htouched.keeps_value hvalue (howner ▸ hr), howner, hkind⟩
  extension v hv := by
    obtain ⟨value, hvalue, howner⟩ := h.extension v hv
    exact ⟨value, htouched.keeps_value hvalue (howner ▸ hr), howner⟩
  this c hc := by
    obtain ⟨value, hvalue, howner⟩ := h.this c hc
    exact ⟨value, htouched.keeps_value hvalue (howner ▸ hr), howner⟩

/-- The accessors of every property that the module declares are callables. -/
def AccessorsCallable (p : Program) : Prop :=
  ∀ {k x}, p.Declared k → p.decls.get? k = some (.property x) →
    ∀ a ∈ x.getter.toList ++ x.setter.toList, p.Callable a

theorem HasParent.relists (h : p.HasParent d parent) (hrelists : p.Relists p') :
    p'.HasParent d parent := by
  obtain ⟨content, hd, rfl⟩ := h
  obtain ⟨content', hd', rfl | ⟨c, ms, rfl, rfl⟩⟩ := hrelists _ _ hd
  · exact ⟨_, hd', rfl⟩
  · exact ⟨_, hd', rfl⟩

end Program

namespace Lowering

open Program

variable {settings : Settings} {container : Option DeclId} {root : DeclId} {siblings : List DeclId}
  {p p₁ p₂ q : Program} {site : Site} {r : Relocation} {S : Set ExprId}

/-- Siblings were added to a list. -/
structure Enlists (container : Option DeclId) (siblings : List DeclId) (p p' : Program) : Prop where
  exprs : p'.exprs = p.exprs
  values : p'.values = p.values
  top : ∀ d ∈ p'.top, d ∈ p.top ∨ container = none ∧ d ∈ siblings
  tops : p.top ⊆ p'.top
  decls : ∀ {k outer'}, p'.decls.get? k = some outer' → ∃ outer, p.decls.get? k = some outer
    ∧ (outer' = outer ∨ container = some k ∧ ∃ c ms, outer = .cls c
        ∧ outer' = .cls { c with members := ms }
      ∧ ∀ d ∈ ms, d ∈ c.members ∨ d ∈ siblings)
  lists : ∀ {k outer}, p.decls.get? k = some outer → ∃ outer', p'.decls.get? k = some outer'
    ∧ outer.listed ⊆ outer'.listed

theorem Listed.enlists (h : Listed container root siblings p p₁) :
    Enlists container siblings p p₁ := by
  obtain ⟨content, children, children', -, hchildren, hinsert, hchildren'⟩ := h.children
  have hmem := mem_insertAfter hinsert
  rcases h.cases with ⟨rfl, ds, rfl⟩ | ⟨k, rfl, hsets⟩
  · cases hchildren
    cases hchildren'
    exact ⟨rfl, rfl, fun d hd => ((hmem d).1 hd).imp id fun hd => ⟨rfl, hd⟩,
      fun d hd => (hmem d).2 (.inl hd), fun hk => ⟨_, hk, .inl rfl⟩,
      fun hk => ⟨_, hk, fun _ hd => hd⟩⟩
  · obtain ⟨c, ms, hc, hc'⟩ := hsets.cls
    obtain rfl : c.members = children := by
      simp only [Program.children, Program.decl_eq_ok.2 hc] at hchildren
      exact Except.ok.inj hchildren
    obtain rfl : ms = children' := by
      simp only [Program.children, Program.decl_eq_ok.2 hc'] at hchildren'
      exact Except.ok.inj hchildren'
    refine ⟨hsets.exprs, hsets.values, fun d hd => .inl (hsets.top ▸ hd),
      fun d hd => hsets.top ▸ hd, fun {x outer'} hx => ?_, fun {x outer} hx => ?_⟩
    · by_cases hxk : x = k
      · subst hxk
        obtain rfl : outer' = .cls { c with members := ms } := Option.mem_unique hx hc'
        exact ⟨.cls c, hc, .inr ⟨rfl, c, ms, rfl, rfl, fun d hd => (hmem d).1 hd⟩⟩
      · exact ⟨outer', (hsets.others x hxk).symm.trans hx, .inl rfl⟩
    · by_cases hxk : x = k
      · subst hxk
        obtain rfl : outer = .cls c := Option.mem_unique hx hc
        exact ⟨_, hc', fun d hd => (hmem d).2 (.inl hd)⟩
      · exact ⟨outer, (hsets.others x hxk).trans hx, fun _ hd => hd⟩

/-! ## §2. What a root leaves to lead to. -/

/-- The callable is the root or is reached from it. -/
def Inside (p : Program) (root g : DeclId) : Prop := g = root ∨ p.Below root (.decl g)

/-- A callable that the container brings, in a program that is accounted for. -/
structure Start (p : Program) (container : Option DeclId) (root : DeclId) : Prop where
  accounted : p.Accounted
  declared : p.Declared root
  callable : p.Callable root
  parent : p.HasParent root container
  container : ∀ k ∈ container, p.Declared k ∧ ∃ c, p.decls.get? k = some (.cls c)

/-- The body of the declaration has been gone through, and so have those of its accessors. -/
def Tidied (m : Nat) (S : Set ExprId) (p : Program) (d : DeclId) : Prop :=
  ∃ content, p.decls.get? d = some content ∧ (∀ e, content.body = some e → Clean m S p e)
    ∧ ∀ x, content = .property x → ∀ a ∈ x.getter.toList ++ x.setter.toList, Finished m S p a

/-- What a place that the module leads to, once a root has been lowered, was before. -/
inductive Remains (p : Program) (root : DeclId) (r : Relocation) (m : Nat)
    (S : Set ExprId) (p₁ : Program) : Option DeclId → Place → Prop
  /-- a declaration outside the root, or the root -/
  | old {c : Option DeclId} {d : DeclId} : p.Hosted c (.decl d) → (∀ g ∈ c, ¬ Inside p root g) →
      Remains p root r m S p₁ c (.decl d)
  /-- a replacement -/
  | new {d x : DeclId} : r.get? d = some x → Tidied m S p₁ x →
      Remains p root r m S p₁ none (.decl x)
  /-- the field of a captured value -/
  | captured {d this f} {captured : OrderedMap ValueId DeclId} :
      r.contexts.get? d = some (.fields this captured) →
      f ∈ captured.values → Remains p root r m S p₁ none (.decl f)
  /-- code outside the root -/
  | code {g : DeclId} {e : ExprId} : p.Hosted (some g) (.expr e) → ¬ Inside p root g →
      Remains p root r m S p₁ (some g) (.expr e)
  /-- code of the root -/
  | rootCode {e : ExprId} : p.Hosted (some root) (.expr e) → e ∈ S →
      Remains p root r m S p₁ (some root) (.expr e)
  /-- code of a replacement, which was code of what it replaces -/
  | moved {d x : DeclId} {e : ExprId} : r.get? d = some x → p.Hosted (some d) (.expr e) → e ∈ S →
      Remains p root r m S p₁ (some x) (.expr e)
  /-- code that was added -/
  | fresh {g : DeclId} {e : ExprId} : m ≤ e.index → e.index < p₁.exprs.size →
      Remains p root r m S p₁ (some g) (.expr e)

theorem tidied_of_finished {f : FunctionDecl} (h : Finished m S p d)
    (hd : p.decls.get? d = some (.function f)) : Tidied m S p d := by
  obtain ⟨content, hcontent, hclean⟩ := h
  obtain rfl : content = .function f := Option.mem_unique hcontent hd
  exact ⟨_, hd, hclean, by rintro x ⟨⟩⟩

theorem tidied_of_complete (h : Complete n m S p d) : Tidied m S p d := by
  obtain ⟨-, content, hd, -, hclean, haccessors⟩ := h
  refine ⟨content, hd, fun e he => hclean e ?_, fun x hx a ha => (haccessors x hx a ha).2⟩
  cases content with
  | function f => exact he
  | constructor c => exact he
  | _ => cases he

namespace Start

variable (hs : Start p container root)
include hs

theorem root_hosted : p.Hosted none (.decl root) := hosted_none_iff.2 hs.declared

/-- What stands outside the root is not reached from it. -/
theorem not_below (hd : p.Hosted c (.decl d)) (hc : ∀ g ∈ c, ¬ Inside p root g)
    (hplace : place.filed = .decl d) : ¬ p.Below root place := by
  intro hbelow
  obtain ⟨content, hroot, hcallable⟩ := hs.callable
  obtain ⟨g, hg, hinside⟩ := hs.root_hosted.of_below hroot hcallable hbelow
  rw [hplace] at hg
  obtain rfl := hs.accounted.host_unique hg hd
  exact hc g rfl hinside

end Start

section

variable (hs : Start p container root) (h : Lowered settings root p siblings site r q S p₁)
  (hlisted : Enlists container siblings p₁ p₂)

include h in
/-- What has a replacement is reached from the root. -/
theorem reached_of_replaced (hr : r.get? d = some x) :
    ∃ content place, p.decls.get? d = some content
      ∧ p.Below root place ∧ place.filed = .decl d
      ∧ (content.isCallable = true → place = .decl d) := by
  obtain ⟨-, old, -, ⟨hold, -, -, hreached⟩, -⟩ := h.raised.images hr
  rw [h.builds.atRoot] at hreached
  rcases hreached with hreached | ⟨hreached, f, rfl⟩
  · exact ⟨old, _, hold, hreached, rfl, fun _ => rfl⟩
  · exact ⟨_, _, hold, hreached, rfl, by rintro ⟨⟩⟩

include hs h

/-- What stands outside the root has no replacement. -/
theorem get?_eq_none (hd : p.Hosted c (.decl d)) (hc : ∀ g ∈ c, ¬ Inside p root g) :
    r.get? d = none := by
  cases hr : r.get? d with
  | none => rfl
  | some x =>
    obtain ⟨-, place, -, hbelow, hplace, -⟩ := reached_of_replaced h hr
    exact absurd hbelow (hs.not_below hd hc hplace)

/-- What has a replacement has a host. -/
theorem hosted_of_replaced (hr : r.get? d = some x) : ∃ g, p.Hosted (some g) (.decl d) := by
  obtain ⟨-, place, -, hbelow, hplace, -⟩ := reached_of_replaced h hr
  obtain ⟨content, hroot, hcallable⟩ := hs.callable
  obtain ⟨g, hg, -⟩ := hs.root_hosted.of_below hroot hcallable hbelow
  exact ⟨g, hplace ▸ hg⟩

omit hs in
/-- A callable outside the root has no replacement. -/
theorem get?_host_eq_none (hg : p.Hosted (some g) place) (hinside : ¬ Inside p root g) :
    r.get? g = none := by
  cases hr : r.get? g with
  | none => rfl
  | some x =>
    obtain ⟨content, place', hcontent, hbelow, -, hplace⟩ := reached_of_replaced h hr
    obtain ⟨content', hcontent', hcallable⟩ := hg.host_callable
    obtain rfl : content = content' := Option.mem_unique hcontent hcontent'
    exact absurd (.inr (hplace hcallable ▸ hbelow)) hinside

/-- What a declaration is housed in by the relocation is its parent. -/
theorem hasParent_of_houses (hhouses : site.Houses p d k) : p.HasParent d (some k) := by
  rcases hhouses with ⟨content, hd, hparent⟩ | ⟨x, y, hbelow, hx, hd, hparent⟩
  · exact ⟨content, hd, hparent⟩
  · rw [h.builds.atRoot] at hbelow
    obtain ⟨content, hroot, hcallable⟩ := hs.callable
    obtain ⟨g, hg, -⟩ := hs.root_hosted.of_below hroot hcallable hbelow
    exact hparent ▸ hs.accounted.listed hg hx hd

omit hs in
/-- The content of a replacement, and what was known of it when it was added. -/
theorem exists_replacement (hr : r.get? d = some x) : ∃ new content, q.decls.get? x = some new
    ∧ p₁.decls.get? x = some content ∧ Refills q.exprs.size p₁.exprs.size new content := by
  obtain ⟨-, -, new, -, hnew, -⟩ := h.raised.images hr
  obtain ⟨content, hcontent, hrefills⟩ := h.filled.touched.refills hnew
  exact ⟨new, content, hnew, hcontent, hrefills⟩

omit hs in
theorem not_isMember_of_lifted (hd : d ∈ site.locals.lifted) : p.isMember d = .ok false := by
  obtain ⟨hsorted, -⟩ := locals_spec h.builds.locals
  rcases List.mem_append.1 hd with hd | hd
  · exact ((hsorted.functions d).1 hd).2.1
  · exact ((hsorted.classes d).1 hd).2.1

omit hs in
theorem not_lifted_of_parent {c : ClassDecl} (hparent : p.HasParent d (some k))
    (hk : p.decls.get? k = some (.cls c)) : d ∉ site.locals.lifted := by
  intro hd
  obtain ⟨content, hcontent, hparent⟩ := hparent
  have hmember : p.isMember d = .ok true :=
    isMember_eq_ok.2 ⟨content, hcontent, .inr ⟨k, _, hparent, hk, rfl⟩⟩
  cases hmember.symm.trans (not_isMember_of_lifted h hd)

/-- **A local function or class** is lifted to where the root stands. -/
theorem hasParent_sibling (hr : r.get? d = some x) (hd : d ∈ site.locals.lifted) :
    p₁.HasParent x container := by
  obtain ⟨new, content, hnew, hcontent, hrefills⟩ := exists_replacement h hr
  refine ⟨content, hcontent, hrefills.parent.trans ?_⟩
  rcases h.raised.homes hr hnew with ⟨-, hdest⟩ | ⟨k, home, hhouses, hk, -⟩
  · obtain ⟨rootDecl, hroot, hparent⟩ := hs.parent
    rw [hdest, Site.destination, h.builds.atRoot, show p.decls.get? root = some rootDecl from hroot]
    exact hparent
  · obtain ⟨hsorted, -⟩ := locals_spec h.builds.locals
    obtain ⟨-, -, c, hc⟩ := (hsorted.classes k).1 hk
    exact absurd hd (not_lifted_of_parent h (hasParent_of_houses hs h hhouses) hc)

/-- **What stands in a local class** is lifted into the replacement of the class. -/
theorem hasParent_member {home : DeclId} {c : ClassDecl} (hr : r.get? d = some x)
    (hparent : p.HasParent d (some k)) (hk : p.decls.get? k = some (.cls c))
    (hhome : r.get? k = some home) : p₁.HasParent x (some home) := by
  obtain ⟨new, content, hnew, hcontent, hrefills⟩ := exists_replacement h hr
  refine ⟨content, hcontent, hrefills.parent.trans ?_⟩
  rcases h.raised.homes hr hnew with ⟨hd, -⟩ | ⟨k', home', hhouses, -, hhome', hnewParent⟩
  · exact absurd hd (not_lifted_of_parent h hparent hk)
  · obtain ⟨content', hd', hparent'⟩ := hasParent_of_houses hs h hhouses
    obtain rfl : k' = k := Option.some.inj (hparent'.symm.trans (hparent.eq hd'))
    rw [hnewParent, ← hhome', hhome]

omit hs in
/-- A declaration of the run is found where it was. -/
theorem get?_of_old {content₁ : Declaration} (hd : p.decls.get? d = some content)
    (hd₁ : p₁.decls.get? d = some content₁) : content₁ = content :=
  Option.some.inj (hd₁.symm.trans (h.confined.decls _ _ hd))

/-! ## §3. One step away from what remains. -/

/-- A sibling remains, and stands in the container. -/
theorem remains_sibling (hd : d ∈ siblings) :
    Remains p root r q.exprs.size S p₁ none (.decl d) ∧ p₁.HasParent d container := by
  obtain ⟨d₀, hd₀, hr⟩ := forall₂_left h.siblings hd
  obtain ⟨hsorted, -⟩ := locals_spec h.builds.locals
  refine ⟨.new hr ?_, hasParent_sibling hs h hr hd₀⟩
  obtain ⟨-, old, new, ⟨hold, -⟩, hnew, hmirrors⟩ := h.raised.images hr
  obtain ⟨content, hcontent, hrefills⟩ := h.filled.touched.refills hnew
  rcases List.mem_append.1 hd₀ with hfunction | hclass
  · obtain ⟨-, -, f, hf⟩ := (hsorted.functions d₀).1 hfunction
    obtain rfl : old = .function f := Option.mem_unique hold hf
    cases new with
    | function g =>
      cases hrefills
      exact tidied_of_finished (h.functions d₀ hfunction d hr) hcontent
    | _ => exact hmirrors.elim
  · obtain ⟨-, -, c, hc⟩ := (hsorted.classes d₀).1 hclass
    obtain rfl : old = .cls c := Option.mem_unique hold hc
    cases new with
    | cls c' =>
      refine ⟨content, hcontent, ?_⟩
      cases hrefills <;> exact ⟨by rintro e ⟨⟩, by rintro x ⟨⟩⟩
    | _ => exact hmirrors.elim

/-- What the replacement of a property lists replaces what the property listed. -/
theorem remains_part {y : PropertyDecl} (hr : r.get? x₀ = some x)
    (hx : p₁.decls.get? x = some (.property y)) (htidied : Tidied q.exprs.size S p₁ x)
    (hd : d ∈ (Declaration.property y).listed) :
    Remains p root r q.exprs.size S p₁ none (.decl d) ∧ p₁.HasParent d y.parent := by
  obtain ⟨-, old, new, ⟨hold, -⟩, hnew, hmirrors⟩ := h.raised.images hr
  obtain ⟨content, hcontent, hrefills⟩ := h.filled.touched.refills hnew
  obtain rfl : content = .property y := Option.mem_unique hcontent hx
  obtain rfl : new = .property y := by
    cases hrefills
    rfl
  obtain ⟨y₀, rfl⟩ : ∃ y₀, old = .property y₀ := by
    cases old with
    | property y₀ => exact ⟨y₀, rfl⟩
    | _ => exact hmirrors.elim
  obtain ⟨hgetter, hsetter, hbacking⟩ := hmirrors
  -- which part it was, and that its body has been gone through
  obtain ⟨d₀, hd₀, hrd, hdone⟩ : ∃ d₀, d₀ ∈ (Declaration.property y₀).listed ∧ r.get? d₀ = some d
      ∧ Tidied q.exprs.size S p₁ d := by
    have accessor : ∀ {d₀ : DeclId} {content : Declaration},
        d ∈ y.getter.toList ++ y.setter.toList →
        p.decls.get? d₀ = some content → (∃ f, content = .function f) → r.get? d₀ = some d →
        Tidied q.exprs.size S p₁ d := by
      rintro d₀ _ hd hd₀ ⟨f, rfl⟩ hrd
      obtain ⟨content', hx', -, haccessors⟩ := htidied
      obtain rfl : content' = .property y := Option.mem_unique hx' hx
      obtain ⟨-, old', new', ⟨hold', -⟩, hnew', hmirrors'⟩ := h.raised.images hrd
      obtain rfl : old' = .function f := Option.mem_unique hold' hd₀
      obtain ⟨content', hcontent', hrefills'⟩ := h.filled.touched.refills hnew'
      cases new' with
      | function g =>
        cases hrefills'
        exact tidied_of_finished (haccessors y rfl d hd) hcontent'
      | _ => exact hmirrors'.elim
    simp only [Declaration.listed, List.mem_append] at hd
    rcases hd with (hd | hd) | hd
    · obtain ⟨d₀, content, hpart, hd₀, ⟨f, rfl⟩, hrd⟩ := hbacking d hd
      refine ⟨d₀, by simp [Declaration.listed, hpart], hrd, ?_⟩
      obtain ⟨-, old', new', ⟨hold', -⟩, hnew', hmirrors'⟩ := h.raised.images hrd
      obtain rfl : old' = .field f := Option.mem_unique hold' hd₀
      obtain ⟨content', hcontent', hrefills'⟩ := h.filled.touched.refills hnew'
      cases new' with
      | field g =>
        refine ⟨content', hcontent', ?_⟩
        cases hrefills' <;> exact ⟨by rintro e ⟨⟩, by rintro x ⟨⟩⟩
      | _ => exact hmirrors'.elim
    · obtain ⟨d₀, content, hpart, hd₀, hkind, hrd⟩ := hgetter d hd
      exact ⟨d₀, by simp [Declaration.listed, hpart], hrd,
        accessor (List.mem_append_left _ hd) hd₀ hkind hrd⟩
    · obtain ⟨d₀, content, hpart, hd₀, hkind, hrd⟩ := hsetter d hd
      exact ⟨d₀, by simp [Declaration.listed, hpart], hrd,
        accessor (List.mem_append_right _ hd) hd₀ hkind hrd⟩
  refine ⟨.new hrd hdone, ?_⟩
  -- the property stands in a class, and its parts in the same
  obtain ⟨hsorted, -⟩ := locals_spec h.builds.locals
  rcases h.raised.homes hr hnew with ⟨hlifted, -⟩ | ⟨k, home, hhouses, hk, hhome, hparent⟩
  · rcases List.mem_append.1 hlifted with hfunction | hclass
    · obtain ⟨-, -, f, hf⟩ := (hsorted.functions x₀).1 hfunction
      cases hold.symm.trans hf
    · obtain ⟨-, -, c, hc⟩ := (hsorted.classes x₀).1 hclass
      cases hold.symm.trans hc
  · obtain ⟨-, -, c, hc⟩ := (hsorted.classes k).1 hk
    obtain ⟨g, hg⟩ := hosted_of_replaced hs h hr
    have hpart := hs.accounted.listed hg hold hd₀
    rw [show (Declaration.property y₀).home x₀ = some k
      from (hasParent_of_houses hs h hhouses).eq hold] at hpart
    rw [show y.parent = some home from hparent]
    exact hasParent_member hs h hrd hpart hc hhome

/-- What the replacement of a class lists replaces a member, or holds a captured value. -/
theorem remains_member {c : ClassDecl} (hr : r.get? x₀ = some x)
    (hx : p₁.decls.get? x = some (.cls c)) (hd : d ∈ c.members) :
    Remains p root r q.exprs.size S p₁ none (.decl d) ∧ p₁.HasParent d (some x) := by
  obtain ⟨hcomplete, x₁, hr₁, hlists⟩ := h.filled.members hr hx d hd
  rcases hlists with ⟨c₁, m, hc₁, hm, hrm⟩ | ⟨this, captured, hcontext, hmem⟩
  · obtain ⟨g, hg⟩ := hosted_of_replaced hs h hr₁
    exact ⟨.new hrm (tidied_of_complete hcomplete),
      hasParent_member hs h hrm (hs.accounted.listed hg hc₁ hm) hc₁ hr₁⟩
  · refine ⟨.captured hcontext hmem, ?_⟩
    obtain ⟨home, content, hhome, hcontent, hparent⟩ := h.raised.fieldHomes hcontext d hmem
    obtain ⟨content', hcontent', hrefills⟩ := h.filled.touched.refills hcontent
    obtain rfl : home = x := Option.mem_unique hhome hr₁
    exact ⟨content', hcontent', hrefills.parent.trans hparent⟩

include hlisted

/-- **What is listed** remains, and stands in what lists it. -/
theorem remains_listed {outer : Declaration} (hk : Remains p root r q.exprs.size S p₁ c (.decl k))
    (houter : p₂.decls.get? k = some outer) (hd : d ∈ outer.listed) :
    Remains p root r q.exprs.size S p₁ c (.decl d) ∧ p₁.HasParent d (outer.home k) := by
  obtain ⟨outer₁, houter₁, hsame⟩ := hlisted.decls houter
  cases hk with
  | old hk hc =>
    obtain ⟨outer₀, houter₀⟩ := hs.accounted.exists_decl hk
    obtain rfl := get?_of_old h houter₀ houter₁
    have kept : d ∈ outer₁.listed → Remains p root r q.exprs.size S p₁ c (.decl d)
        ∧ p₁.HasParent d (outer₁.home k) := fun hmem =>
      ⟨.old (.listed hk houter₀ hmem) hc,
        (hs.accounted.listed hk houter₀ hmem).relists (relists_of_keeps h.confined.decls)⟩
    rcases hsame with rfl | ⟨rfl, x, ms, rfl, rfl, hms⟩
    · exact kept hd
    · rcases hms d hd with hmem | hsibling
      · exact kept hmem
      · obtain rfl : c = none :=
          hs.accounted.host_unique (hosted_none_iff.2 (hs.container k rfl).1) hk
        exact remains_sibling hs h hsibling
  | new hr htidied =>
    obtain rfl : outer = outer₁ := by
      refine hsame.resolve_right ?_
      rintro ⟨rfl, -⟩
      obtain ⟨-, x, hx⟩ := hs.container k rfl
      exact absurd (Arena.lt_size_of_get? hx) (Nat.not_lt.2 (h.raised.images hr).1)
    cases outer with
    | cls x => exact remains_member hs h hr houter₁ hd
    | property y => exact remains_part hs h hr houter₁ htidied hd
    | _ => cases hd
  | captured hcontext hmem =>
    obtain ⟨-, hlow, f, hf⟩ := h.raised.fields hcontext k hmem
    obtain ⟨content, hcontent, hrefills⟩ := h.filled.touched.refills hf
    obtain rfl : content = outer₁ := Option.mem_unique hcontent houter₁
    obtain ⟨g, rfl⟩ : ∃ g, content = .field g := by
      cases hrefills <;> exact ⟨_, rfl⟩
    rcases hsame with rfl | ⟨-, x, ms, hcls, -⟩
    · cases hd
    · cases hcls

omit hlisted in
/-- A node that was there binds what it bound, and what it places or is made of is from before or
was added. -/
theorem node_of_old (he : p.Hosted (some g) (.expr e)) (hnode : p₁.exprs.get? e = some node) :
    ∃ old, p.exprs.get? e = some old ∧ node.bound? = old.bound?
      ∧ (∀ x ∈ node.operands, x ∈ old.operands ∨ q.exprs.size ≤ x.index ∧ x.index < p₁.exprs.size)
      ∧ ∀ d, node = .decl d → old = .decl d := by
  obtain ⟨old, hold⟩ := hs.accounted.nodes he
  have hold' : q.exprs.get? e = some old := by
    rw [h.raised.grown.exprs]
    exact hold
  refine ⟨old, hold, ?_⟩
  rcases h.filled.touched.exprs hold' with hsame | ⟨-, node', hnode', hthins⟩
  · obtain rfl : node = old := Option.mem_unique hnode hsame
    exact ⟨rfl, fun x hx => .inl hx, fun d hd => hd⟩
  · obtain rfl : node = node' := Option.mem_unique hnode hnode'
    exact ⟨hthins.bound, hthins.operands, fun d hd => absurd hd (hthins.placed d)⟩

omit hs hlisted in
/-- Code that has been gone through places nothing. -/
theorem not_placed (he : Clean q.exprs.size S p₁ e) : p₁.exprs.get? e ≠ some (.decl d) := by
  intro hnode
  obtain ⟨rank, htidy⟩ := h.filled.tidy
  rcases he with he | ⟨hlow, -⟩
  · obtain ⟨node, hnode', hplaces, -⟩ := htidy.swept he
    exact hplaces d (Option.mem_unique hnode' hnode)
  · exact (htidy.ranked hlow hnode).2.1 d rfl

omit hs hlisted in
/-- What code that has been gone through is made of has been gone through. -/
theorem clean_operand {x : ExprId} (he : Clean q.exprs.size S p₁ e)
    (hnode : p₁.exprs.get? e = some node) (hx : x ∈ node.operands) : Clean q.exprs.size S p₁ x := by
  obtain ⟨rank, htidy⟩ := h.filled.tidy
  rcases he with he | ⟨hlow, -⟩
  · obtain ⟨node', hnode', -, hclean⟩ := htidy.swept he
    obtain rfl : node = node' := Option.mem_unique hnode hnode'
    exact hclean x hx
  · obtain ⟨hlow', hhigh', -⟩ := (htidy.ranked hlow hnode).2.2 x hx
    exact .inr ⟨hlow', hhigh'⟩

/-- **What is placed** remains, and stands in the host. -/
theorem remains_placed (he : Remains p root r q.exprs.size S p₁ (some g) (.expr e))
    (hnode : p₂.exprs.get? e = some (.decl d)) :
    Remains p root r q.exprs.size S p₁ (some g) (.decl d) ∧ p₁.HasParent d (some g) := by
  rw [hlisted.exprs] at hnode
  cases he with
  | code he hinside =>
    obtain ⟨old, hold, -, -, hplaces⟩ := node_of_old hs h he hnode
    obtain rfl := hplaces d rfl
    refine ⟨.old (.placed he hold) ?_,
      (hs.accounted.placed he hold).relists (relists_of_keeps h.confined.decls)⟩
    rintro _ ⟨⟩
    exact hinside
  | rootCode _ he => exact absurd hnode (not_placed h (.inl he))
  | moved _ _ he => exact absurd hnode (not_placed h (.inl he))
  | fresh hlow hhigh => exact absurd hnode (not_placed h (.inr ⟨hlow, hhigh⟩))

/-- **A body** remains, as code of its callable. -/
theorem remains_body (hg : Remains p root r q.exprs.size S p₁ c (.decl g))
    (hcontent : p₂.decls.get? g = some content) (he : content.body = some e) :
    Remains p root r q.exprs.size S p₁ (some g) (.expr e) := by
  obtain ⟨content₁, hcontent₁, hsame⟩ := hlisted.decls hcontent
  obtain rfl : content = content₁ := by
    refine hsame.resolve_right ?_
    rintro ⟨-, x, ms, -, rfl, -⟩
    cases he
  cases hg with
  | old hg hc =>
    obtain ⟨content₀, hcontent₀⟩ := hs.accounted.exists_decl hg
    obtain rfl := get?_of_old h hcontent₀ hcontent₁
    have hhosted : p.Hosted (some g) (.expr e) := .body hg hcontent₀ he
    by_cases hroot : g = root
    · subst hroot
      obtain ⟨content', hcontent', hclean⟩ := h.body
      obtain rfl : content = content' := Option.mem_unique hcontent₁ hcontent'
      rcases hclean e he with hswept | ⟨hlow, hhigh⟩
      · exact .rootCode hhosted hswept
      · exact .fresh hlow hhigh
    · exact .code hhosted fun hinside => hinside.elim hroot (hs.not_below hg hc rfl)
  | @new d _ hr htidied =>
    obtain ⟨content', hcontent', hclean, -⟩ := htidied
    obtain rfl : content = content' := Option.mem_unique hcontent₁ hcontent'
    rcases hclean e he with hswept | ⟨hlow, hhigh⟩
    · obtain ⟨-, old, new, ⟨hold, -⟩, hnew, hmirrors⟩ := h.raised.images hr
      obtain ⟨content', hcontent', hrefills⟩ := h.filled.touched.refills hnew
      obtain rfl : content = content' := Option.mem_unique hcontent₁ hcontent'
      have hbody : old.body = some e := by
        cases hrefills with
        | same =>
          cases old <;> cases content
            <;> first | exact hmirrors.elim | cases he | exact hmirrors.symm.trans he
        | _ => cases he
      obtain ⟨g', hg'⟩ := hosted_of_replaced hs h hr
      exact .moved hr (.body hg' hold hbody) hswept
    · exact .fresh hlow hhigh
  | captured hcontext hmem =>
    obtain ⟨-, -, f, hf⟩ := h.raised.fields hcontext g hmem
    obtain ⟨content', hcontent', hrefills⟩ := h.filled.touched.refills hf
    obtain rfl : content = content' := Option.mem_unique hcontent₁ hcontent'
    cases hrefills <;> cases he

/-- **The initializer of a field** remains. -/
theorem remains_init {f : FieldDecl} (hd : Remains p root r q.exprs.size S p₁ (some g) (.decl d))
    (hf : p₂.decls.get? d = some (.field f)) (he : f.init = some e) :
    Remains p root r q.exprs.size S p₁ (some g) (.expr e) := by
  obtain ⟨content₁, hcontent₁, hsame⟩ := hlisted.decls hf
  obtain rfl : .field f = content₁ := by
    refine hsame.resolve_right ?_
    rintro ⟨-, x, ms, -, heq, -⟩
    cases heq
  cases hd with
  | old hd hc =>
    obtain ⟨content₀, hcontent₀⟩ := hs.accounted.exists_decl hd
    obtain rfl := get?_of_old h hcontent₀ hcontent₁
    exact .code (.init hd hcontent₀ he) (hc g rfl)

/-- **What code is made of** remains. -/
theorem remains_operand {x : ExprId} (he : Remains p root r q.exprs.size S p₁ (some g) (.expr e))
    (hnode : p₂.exprs.get? e = some node) (hx : x ∈ node.operands) :
    Remains p root r q.exprs.size S p₁ (some g) (.expr x) := by
  rw [hlisted.exprs] at hnode
  cases he with
  | code he hinside =>
    obtain ⟨old, hold, -, hoperands, -⟩ := node_of_old hs h he hnode
    rcases hoperands x hx with hx | ⟨hlow, hhigh⟩
    · exact .code (.operand he hold hx) hinside
    · exact .fresh hlow hhigh
  | rootCode he hswept =>
    obtain ⟨old, hold, -, hoperands, -⟩ := node_of_old hs h he hnode
    rcases hoperands x hx with hx' | ⟨hlow, hhigh⟩
    · rcases clean_operand h (.inl hswept) hnode hx with hswept' | ⟨hlow, hhigh⟩
      · exact .rootCode (.operand he hold hx') hswept'
      · exact .fresh hlow hhigh
    · exact .fresh hlow hhigh
  | moved hr he hswept =>
    obtain ⟨old, hold, -, hoperands, -⟩ := node_of_old hs h he hnode
    rcases hoperands x hx with hx' | ⟨hlow, hhigh⟩
    · rcases clean_operand h (.inl hswept) hnode hx with hswept' | ⟨hlow, hhigh⟩
      · exact .moved hr (.operand he hold hx') hswept'
      · exact .fresh hlow hhigh
    · exact .fresh hlow hhigh
  | fresh hlow hhigh =>
    obtain ⟨rank, htidy⟩ := h.filled.tidy
    obtain ⟨hlow', hhigh', -⟩ := (htidy.ranked hlow hnode).2.2 x hx
    exact .fresh hlow' hhigh'

/-! ## §4. One root. -/

/-- What the module lists remains. -/
theorem remains_top (hd : d ∈ p₂.top) :
    Remains p root r q.exprs.size S p₁ none (.decl d) ∧ p₁.HasParent d none := by
  rcases hlisted.top d hd with hold | ⟨rfl, hsibling⟩
  · rw [h.confined.top] at hold
    exact ⟨.old (.top hold) (by rintro _ ⟨⟩),
      (hs.accounted.top hold).relists (relists_of_keeps h.confined.decls)⟩
  · exact remains_sibling hs h hsibling

/-- **What the module leads to remains** from before, was lifted or was added. -/
theorem remains (hplace : p₂.Hosted c place) : Remains p root r q.exprs.size S p₁ c place := by
  induction hplace with
  | top hd => exact (remains_top hs h hlisted hd).1
  | listed _ houter hd ih => exact (remains_listed hs h hlisted ih houter hd).1
  | body _ hg he ih => exact remains_body hs h hlisted ih hg he
  | init _ hd he ih => exact remains_init hs h hlisted ih hd he
  | operand _ hnode hx ih => exact remains_operand hs h hlisted ih hnode hx
  | placed _ hnode ih => exact (remains_placed hs h hlisted ih hnode).1

omit hs h in
/-- Listing changes no parent. -/
theorem hasParent_listed {parent : Option DeclId} (hd : p₁.HasParent d parent) :
    p₂.HasParent d parent := by
  obtain ⟨content, hcontent, rfl⟩ := hd
  obtain ⟨content', hcontent', -⟩ := hlisted.lists hcontent
  obtain ⟨content₁, hcontent₁, hsame⟩ := hlisted.decls hcontent'
  obtain rfl : content = content₁ := Option.mem_unique hcontent hcontent₁
  refine ⟨content', hcontent', ?_⟩
  rcases hsame with rfl | ⟨-, c, ms, rfl, rfl, -⟩ <;> rfl

omit hlisted in
/-- What remains of a declaration owns what it binds. -/
theorem ownsBound_of_remains (hd : Remains p root r q.exprs.size S p₁ c (.decl d))
    (hcontent : p₁.decls.get? d = some content) : p₁.OwnsBound d content := by
  cases hd with
  | old hd hc =>
    obtain ⟨content₀, hcontent₀⟩ := hs.accounted.exists_decl hd
    obtain rfl := get?_of_old h hcontent₀ hcontent
    exact ((hs.accounted.bound hd hcontent₀).mono h.raised.grown.values).touched h.filled.touched
      (get?_eq_none hs h hd hc)
  | new hr _ =>
    obtain ⟨new, content', hnew, hcontent', hrefills⟩ := exists_replacement h hr
    obtain rfl : content = content' := Option.mem_unique hcontent hcontent'
    exact ((h.raised.bound hr hnew).touched h.filled.touched (h.raised.fixed _ _ hr)).refills
      hrefills
  | captured hcontext hmem =>
    obtain ⟨-, -, f, hf⟩ := h.raised.fields hcontext d hmem
    obtain ⟨content', hcontent', hrefills⟩ := h.filled.touched.refills hf
    obtain rfl : content = content' := Option.mem_unique hcontent hcontent'
    exact (OwnsBound.field _ _ f).refills hrefills

omit hlisted in
/-- What remains of code is there. -/
theorem exists_node_of_remains (he : Remains p root r q.exprs.size S p₁ (some g) (.expr e)) :
    ∃ node, p₁.exprs.get? e = some node := by
  have kept : ∀ {g' : DeclId}, p.Hosted (some g') (.expr e) →
      ∃ node, p₁.exprs.get? e = some node := by
    intro g' he
    obtain ⟨old, hold⟩ := hs.accounted.nodes he
    exact Arena.exists_get?_of_lt ((Arena.lt_size_of_get? hold).trans_le h.confined.exprs_grow)
  cases he with
  | code he _ => exact kept he
  | rootCode he _ => exact kept he
  | moved _ he _ => exact kept he
  | fresh _ hhigh => exact Arena.exists_get?_of_lt hhigh

omit hlisted in
/-- What remains of code binds variables of its host. -/
theorem owns_of_remains (he : Remains p root r q.exprs.size S p₁ (some g) (.expr e))
    (hnode : p₁.exprs.get? e = some node) (hv : node.bound? = some v) : p₁.Owns g v := by
  -- what has no replacement keeps its variables
  have kept : p.Hosted (some g) (.expr e) → r.get? g = none → p₁.Owns g v := by
    intro he hr
    obtain ⟨old, hold, hbound, -⟩ := node_of_old hs h he hnode
    obtain ⟨value, hvalue, rfl⟩ := hs.accounted.bindings he hold (hbound ▸ hv)
    exact ⟨value, h.filled.touched.keeps_value (h.raised.grown.values _ _ hvalue) hr, rfl⟩
  cases he with
  | code he hinside => exact kept he (get?_host_eq_none h he hinside)
  | rootCode he _ => exact kept he (get?_eq_none hs h hs.root_hosted (by rintro _ ⟨⟩))
  | moved hr he hswept =>
    obtain ⟨old, hold, hbound, -⟩ := node_of_old hs h he hnode
    obtain ⟨value, hvalue, rfl⟩ := hs.accounted.bindings he hold (hbound ▸ hv)
    obtain ⟨value', hvalue', hreowned⟩ := h.filled.reowned e hswept node v hnode hv
    rcases h.filled.touched.values (h.raised.grown.values _ _ hvalue)
      with hsame | ⟨owner, -, howner, hmoved⟩
    · obtain rfl : value = value' := Option.mem_unique hsame hvalue'
      cases hreowned.symm.trans hr
    · exact ⟨_, hmoved, Option.mem_unique howner hr⟩
  | fresh hlow _ =>
    cases hv.symm.trans (h.filled.touched.fresh hlow hnode).1

/-- **Lowering a root** leaves a program that is accounted for. -/
theorem accounted_of_lowered : p₂.Accounted where
  top hd := hasParent_listed hlisted (remains_top hs h hlisted hd).2
  listed hk houter hd :=
    hasParent_listed hlisted (remains_listed hs h hlisted (remains hs h hlisted hk) houter hd).2
  placed he hnode :=
    hasParent_listed hlisted (remains_placed hs h hlisted (remains hs h hlisted he) hnode).2
  bound {c d content} hd hcontent := by
    obtain ⟨content₁, hcontent₁, hsame⟩ := hlisted.decls hcontent
    have howns : p₂.OwnsBound d content₁ := by
      refine (ownsBound_of_remains hs h (remains hs h hlisted hd) hcontent₁).mono ?_
      rw [hlisted.values]
      exact .refl _
    rcases hsame with rfl | ⟨-, x, ms, rfl, rfl, -⟩
    · exact howns
    · exact howns.refills (m := 0) (n := 0) (.members ms)
  nodes {g e} he := by
    rw [hlisted.exprs]
    exact exists_node_of_remains hs h (remains hs h hlisted he)
  bindings {g e node v} he hnode hv := by
    rw [hlisted.exprs] at hnode
    obtain ⟨value, hvalue, howner⟩ := owns_of_remains hs h (remains hs h hlisted he) hnode hv
    exact ⟨value, hlisted.values ▸ hvalue, howner⟩

/-- The accessors of what the module declares stay callables. -/
theorem accessors_of_lowered (haccessors : p.AccessorsCallable) : p₂.AccessorsCallable := by
  intro k x hk hx a ha
  obtain ⟨content₁, hcontent₁, hsame⟩ := hlisted.decls hx
  obtain rfl : .property x = content₁ := by
    refine hsame.resolve_right ?_
    rintro ⟨-, c, ms, -, heq, -⟩
    cases heq
  have callable : ∀ {content : Declaration}, p₁.decls.get? a = some content →
      content.isCallable = true → p₂.Callable a := by
    intro content hcontent hcallable
    obtain ⟨content', hcontent', -⟩ := hlisted.lists hcontent
    obtain ⟨content₁, hcontent₁, hsame⟩ := hlisted.decls hcontent'
    obtain rfl : content = content₁ := Option.mem_unique hcontent hcontent₁
    rcases hsame with rfl | ⟨-, c, ms, rfl, -⟩
    · exact ⟨_, hcontent', hcallable⟩
    · cases hcallable
  cases remains hs h hlisted (hosted_none_iff.2 hk) with
  | old hold hc =>
    obtain ⟨content₀, hcontent₀⟩ := hs.accounted.exists_decl hold
    obtain rfl := get?_of_old h hcontent₀ hcontent₁
    obtain ⟨content, hcontent, hcallable⟩ := haccessors (hosted_none_iff.1 hold) hcontent₀ a ha
    exact callable (h.confined.decls _ _ hcontent) hcallable
  | new hr _ =>
    obtain ⟨new, content', hnew, hcontent', hrefills⟩ := exists_replacement h hr
    obtain rfl : .property x = content' := Option.mem_unique hcontent₁ hcontent'
    cases hrefills
    obtain ⟨-, f, -, hf⟩ := Retarget.accessors_of_property h.raised hr hnew a ha
    obtain ⟨content', hcontent', hrefills⟩ := h.filled.touched.refills hf
    cases hrefills
    exact callable hcontent' rfl
  | captured hcontext hmem =>
    obtain ⟨-, -, f, hf⟩ := h.raised.fields hcontext k hmem
    obtain ⟨content', hcontent', hrefills⟩ := h.filled.touched.refills hf
    obtain rfl : .property x = content' := Option.mem_unique hcontent₁ hcontent'
    cases hrefills

omit hs in
/-- What the module declared it still declares. -/
theorem declared_of_lowered (hd : p.Declared d) : p₂.Declared d := by
  induction hd with
  | top hd => exact .top (hlisted.tops (h.confined.top.symm ▸ hd))
  | listed _ hcontent hx ih =>
    obtain ⟨content', hcontent', hlists⟩ := hlisted.lists (h.confined.decls _ _ hcontent)
    exact .listed ih hcontent' (hlists hx)

end

end Lowering

/-! ## §5. A whole run. -/

namespace Program

variable {p p' : Program}

/-- Accounts are in order, and so are accessors. -/
structure InOrder (p : Program) : Prop where
  accounted : p.Accounted
  accessors : p.AccessorsCallable

/-- The container is the module or a class that it declares. -/
def Contains (p : Program) (container : Option DeclId) : Prop :=
  ∀ k ∈ container, p.Declared k ∧ ∃ c, p.decls.get? k = some (.cls c)

theorem contains_of_mem_containers {cs : List (Option DeclId)} (h : p.containers = .ok cs)
    (hmem : container ∈ cs) : p.Contains container := by
  rintro k rfl
  obtain ⟨k', c, hk', hdeclared, hc⟩ :=
    (of_mem_containers (Q := p.Declared) (fun _ => .top) .listed h hmem).resolve_left (by rintro ⟨⟩)
  cases hk'
  exact ⟨hdeclared, c, hc⟩

theorem Contains.mono (h : p.Contains container) (hrelists : p.Relists p')
    (hdeclared : ∀ d, p.Declared d → p'.Declared d) : p'.Contains container := by
  intro k hk
  obtain ⟨hdecl, c, hc⟩ := h k hk
  refine ⟨hdeclared k hdecl, ?_⟩
  obtain ⟨content, hcontent, rfl | ⟨c', ms, -, rfl⟩⟩ := hrelists _ _ hc
  · exact ⟨c, hcontent⟩
  · exact ⟨_, hcontent⟩

/-- **A root of a container** is a callable that the module declares, and the container is its
parent. -/
theorem InOrder.start (h : p.InOrder) {root : DeclId} (hcontainer : p.Contains container)
    (hroot : p.RootIn container root) : Lowering.Start p container root := by
  obtain ⟨ds, child, rs, hds, hchild, hrs, hroot⟩ := hroot
  -- the child of the container that brings the root
  obtain ⟨hdeclared, hparent⟩ : p.Declared child ∧ p.HasParent child container := by
    cases container with
    | none =>
      cases hds
      exact ⟨.top hchild, h.accounted.top hchild⟩
    | some k =>
      obtain ⟨c, hc, rfl⟩ := children_some hds hchild
      have hk := (hcontainer k rfl).1
      exact ⟨.listed hk hc hchild, h.accounted.listed (hosted_none_iff.2 hk) hc hchild⟩
  obtain ⟨content, hcontent, ⟨rfl, hcallable⟩ | ⟨x, rfl, haccessor⟩⟩ := rootsOf_spec hrs hroot
  · exact ⟨h.accounted, hdeclared, ⟨content, hcontent, hcallable⟩, hparent, hcontainer⟩
  · have hlisted : root ∈ (Declaration.property x).listed := by
      simp only [Declaration.listed, List.mem_append] at haccessor ⊢
      tauto
    refine ⟨h.accounted, .listed hdeclared hcontent hlisted,
      h.accessors hdeclared hcontent root haccessor, ?_, hcontainer⟩
    have hpart := h.accounted.listed (hosted_none_iff.2 hdeclared) hcontent hlisted
    rwa [show (Declaration.property x).home child = container from hparent.eq hcontent] at hpart

end Program

namespace Lowering

open Program

variable {settings : Settings} {container : Option DeclId} {root : DeclId} {w : Work}

/-- Accounts stay in order, and nothing that was declared goes. -/
structure Retains (p p' : Program) : Prop where
  inOrder : p'.InOrder
  relists : p.Relists p'
  declared : ∀ d, p.Declared d → p'.Declared d

theorem Retains.refl (h : p.InOrder) : Retains p p :=
  ⟨h, relists_of_keeps (.refl _), fun _ hd => hd⟩

theorem Retains.trans {p' p'' : Program} (h : Retains p p') (h' : Retains p' p'') : Retains p p'' :=
  ⟨h'.inOrder, h.relists.trans h'.relists, fun d hd => h'.declared d (h.declared d hd)⟩

/-- **A root** is lowered and listed. -/
theorem lowerListed_retains (hw : w.program.InOrder) (hcontainer : w.program.Contains container)
    (hin : w.program.RootIn container root) (lifted : Lifted) :
    (lowerListed settings container lifted root).Leaves w (fun _ w' => Retains w.program w'.program
      ∧ ∀ x, w.program.RootIn container x → w'.program.RootIn container x) fun _ => True := by
  have hs := hw.start hcontainer hin
  refine (lowerListed_leaves settings container lifted root w).mono ?_
  rintro _ w' (⟨-, rfl, -⟩ | ⟨siblings, site, r, q, S, p₁, -, -, hlowered, hlisted⟩)
  · exact ⟨.refl hw, fun _ hx => hx⟩
  have henlists := hlisted.enlists
  have hconfined := hlowered.confined
  exact ⟨⟨⟨accounted_of_lowered hs hlowered henlists,
      accessors_of_lowered hs hlowered henlists hw.accessors⟩,
      (relists_of_keeps hconfined.decls).trans hlisted.relists,
      fun _ => declared_of_lowered hlowered henlists⟩,
    fun _ hx => hlisted.rootIn (rootIn_of_confined hconfined hx)⟩

/-- **The roots of a container** are lowered and listed. -/
theorem lowerContainer_retains (hw : w.program.InOrder) (hcontainer : w.program.Contains container)
    (lifted : Lifted) :
    (lowerContainer settings lifted container).Leaves w
      (fun _ w' => Retains w.program w'.program) fun _ => True := by
  refine .bind (.program (.bind (.ask (fun nested _ => ?_) trivial)))
  split
  · exact .pure (.refl hw)
  refine .bind (.program (.bind (.ask (fun roots hroots => ?_) trivial)))
  refine (Step.Yields.foldlM
    (fun _ _ w' => Retains w.program w'.program ∧ ∀ x ∈ roots, w'.program.RootIn container x) ?_
    ⟨.refl hw, fun x hx => (mem_roots hroots).1 hx⟩).mono fun _ _ h => h.1
  rintro done root rest lifted' w₁ hsplit ⟨hretains, hin⟩
  refine (lowerListed_retains hretains.inOrder (hcontainer.mono hretains.relists hretains.declared)
    (hin root (by simp [hsplit])) lifted').mono ?_
  rintro _ w₂ ⟨hretains', hin'⟩
  exact ⟨hretains.trans hretains', fun x hx => hin' x (hin x hx)⟩

/-- **A whole run** keeps accounts in order. -/
theorem lower_retains (settings : Settings) (hw : w.program.InOrder) :
    (lower settings).Leaves w (fun _ w' => Retains w.program w'.program) fun _ => True := by
  refine .bind (.program (.bind (.ask (fun cs hcs => ?_) trivial)))
  refine .bind ((Step.Yields.foldlM (fun _ _ w' => Retains w.program w'.program) ?_
    (.refl hw)).mono fun _ w₁ h => ?_)
  · rintro done container rest lifted w₁ hsplit hretains
    have hcontainer :=
      contains_of_mem_containers hcs (hsplit ▸ List.mem_append_right _ List.mem_cons_self)
    exact (lowerContainer_retains hretains.inOrder
      (hcontainer.mono hretains.relists hretains.declared) lifted).mono
      fun _ w₂ hretains' => hretains.trans hretains'
  split
  · exact .bind (.program (.bind (.ask (fun _ _ => .pure h) trivial)))
  · exact .pure h

end Lowering

open Lowering

/-- Two callables do not share a body that binds a variable. -/
theorem Program.Accounted.eq_of_shared_body (hp : p.Accounted) {d' : DeclId}
    {content' : Declaration} (hd : p.Declared d) (hcontent : p.decls.get? d = some content)
    (hbody : content.body = some e) (hd' : p.Declared d')
    (hcontent' : p.decls.get? d' = some content') (hbody' : content'.body = some e)
    (hnode : p.exprs.get? e = some node) (hv : node.bound? = some v) : d = d' := by
  obtain ⟨value, hvalue, rfl⟩ :=
    hp.bindings (.body (Program.hosted_none_iff.2 hd) hcontent hbody) hnode hv
  obtain ⟨value', hvalue', rfl⟩ :=
    hp.bindings (.body (Program.hosted_none_iff.2 hd') hcontent' hbody') hnode hv
  rw [Option.mem_unique hvalue hvalue']

/-- **Lowering keeps parents and owners in order.**  Whatever the settings, if a run on a program
that is accounted for answers, and the accessors of what its module declares are callables, then the
program it leaves is accounted for again: whatever is listed has what lists it as its parent, or the
class of its property, and owns its parameters, each at its position, its receiver and its instance,
and the variables in its body; and no two declared callables share a parameter. -/
theorem lower_accounted (settings : Settings) (w : Work) (haccounted : w.program.Accounted)
    (haccessors : w.program.AccessorsCallable) {table : Lifted} {w' : Work}
    (hlower : lower settings w = .ok table w') :
    w'.program.Accounted ∧ ∀ d d' content content' v, w'.program.Declared d →
      w'.program.Declared d' →
      w'.program.decls.get? d = some content → w'.program.decls.get? d' = some content' →
      v ∈ content.params → v ∈ content'.params → d = d' := by
  have hleaves := lower_retains settings ⟨haccounted, haccessors⟩
  unfold Step.Leaves Step.Yields at hleaves
  rw [hlower] at hleaves
  refine ⟨hleaves.inOrder.accounted,
    fun d d' content content' v hd hd' hcontent hcontent' hv hv' => ?_⟩
  exact hleaves.inOrder.accounted.params_disjoint (Program.hosted_none_iff.2 hd) hcontent
    (Program.hosted_none_iff.2 hd') hcontent' hv hv'

/-- A variable of a local function that captures a parameter moves with it. -/
theorem lower_accounted_twoRoots : Program.twoRoots.Accounted ∧ Program.twoRoots.AccessorsCallable
    ∧ ∃ table w, lower {} ⟨.twoRoots, []⟩ = .ok table w ∧ w.program.owner ⟨2⟩ = .ok ⟨4⟩
    ∧ w.program.Accounted := by
  have hhosts : Program.twoRoots.AccountsFor (
    [(none, .decl ⟨0⟩), (none, .decl ⟨2⟩), (some ⟨0⟩, .decl ⟨1⟩), (some ⟨2⟩, .decl ⟨3⟩)]
      ++ ([⟨2⟩, ⟨3⟩, ⟨4⟩].map fun e => (some ⟨0⟩, .expr e))
      ++ ([⟨0⟩, ⟨1⟩].map fun e => (some ⟨1⟩, .expr e))
      ++ ([⟨6⟩, ⟨7⟩, ⟨8⟩].map fun e => (some ⟨2⟩, .expr e)) ++ [(some ⟨3⟩, .expr ⟨5⟩)]) := by
      decide +kernel
  have haccounted := hhosts.accounted
  have haccessors : Program.twoRoots.AccessorsCallable := by
    intro k x _ hx
    have hfunctions : ∀ content ∈ Program.twoRoots.decls.entries,
        content.isCallable = true := by decide +kernel
    cases hfunctions _ (Array.mem_of_getElem? hx)
  have hlower : (Step.answer? (lower {}) ⟨.twoRoots, []⟩).isSome = true := by decide +kernel
  have howner : ((lower {}).after ⟨.twoRoots, []⟩).program.owner ⟨2⟩ = .ok ⟨4⟩ := by decide +kernel
  obtain ⟨table, hanswer⟩ := Option.isSome_iff_exists.1 hlower
  obtain ⟨w, hw⟩ := Step.answer?_eq_some.1 hanswer
  rw [Step.after_of_ok hw] at howner
  exact ⟨haccounted, haccessors, table, w, hw, howner,
    (lower_accounted {} _ haccounted haccessors hw).1⟩

/-- A property whose getter is another property, and a local function in the getter of that one.

    class K { val q get() = r; val r get() { fun f() { var v } } }
-/
def Program.twofold : Program where
  decls := ⟨#[
    .cls { name := .ident "K", parent := none, kind := .plain, visibility := .everywhere,
           this := ⟨0⟩, members := [⟨1⟩, ⟨2⟩], scope := { declared := [⟨1⟩, ⟨2⟩] } },
    .property { name := .ident "q", parent := some ⟨0⟩, visibility := .everywhere, isVar := false,
                ty := .int, getter := some ⟨2⟩ },
    .property { name := .ident "r", parent := some ⟨0⟩, visibility := .everywhere, isVar := false,
                ty := .int, getter := some ⟨3⟩ },
    .function { name := .ident "a", parent := some ⟨0⟩, visibility := .everywhere,
                dispatchReceiver :=
                some ⟨0⟩, accessorOf := some ⟨2⟩, ret := .int, body := some ⟨1⟩ },
    .function { name := .ident "f", parent := some ⟨3⟩, visibility := .inBody, ret := .unit,
                body := some ⟨0⟩ }]⟩
  values := ⟨#[{ name := .this, ty := .cls ⟨0⟩, owner := ⟨0⟩, kind := .dispatchReceiver },
    { name := .ident "v", ty := .int, owner := ⟨4⟩, kind := .var true }]⟩
  exprs := ⟨#[.var ⟨1⟩ none, .decl ⟨4⟩]⟩
  top := [⟨0⟩]

/-- **A property among the accessors lifts twice.**  It is a root, and so is its own getter, and
each of the two gets a replacement of the local function; the variable in the code that these share
belongs to one of them. -/
theorem lower_not_accounted_twofold : Program.twofold.Closed ∧ Program.twofold.Accounted
    ∧ ∃ table w, lower { validate := false } ⟨.twofold, []⟩ = .ok table w
    ∧ ¬ w.program.Accounted := by
  have hhosts : Program.twofold.AccountsFor (([⟨0⟩, ⟨1⟩, ⟨2⟩, ⟨3⟩].map fun d => (none, .decl d))
      ++ [(some ⟨3⟩, .expr ⟨1⟩), (some ⟨3⟩, .decl ⟨4⟩), (some ⟨4⟩, .expr ⟨0⟩)]) := by
    decide +kernel
  have haccounted := hhosts.accounted
  have hlower : (Step.answer? (lower { validate := false }) ⟨.twofold, []⟩).isSome
      = true := by decide +kernel
  obtain ⟨table, hanswer⟩ := Option.isSome_iff_exists.1 hlower
  obtain ⟨w, hw⟩ := Step.answer?_eq_some.1 hanswer
  -- both replacements are listed by the class and have the body of the local function
  have hlisted :
    (((lower { validate := false }).after ⟨.twofold, []⟩).program.decls.get? ⟨0⟩).map (·.listed)
      = some [⟨1⟩, ⟨2⟩, ⟨6⟩, ⟨5⟩] := by decide +kernel
  have hbodies : ∀ d ∈ [⟨5⟩, ⟨6⟩],
    (((lower { validate := false }).after ⟨.twofold, []⟩).program.decls.get? d).map (·.body)
      = some (some ⟨0⟩) := by decide +kernel
  have hbody : ((lower { validate := false }).after ⟨.twofold, []⟩).program.exprs.get? ⟨0⟩
      = some (.var ⟨1⟩ none) := by
    decide +kernel
  have htop : ((lower { validate := false }).after ⟨.twofold, []⟩).program.top
      = [⟨0⟩] := by decide +kernel
  rw [Step.after_of_ok hw] at hlisted hbodies hbody htop
  refine ⟨by decide +kernel, haccounted, table, w, hw, fun haccounted' => ?_⟩
  obtain ⟨cls, hcls, hlists⟩ := Option.map_eq_some_iff.1 hlisted
  have hcontainer : w.program.Declared ⟨0⟩ := .top (htop ▸ List.mem_singleton_self _)
  obtain ⟨f, hf, hfbody⟩ := Option.map_eq_some_iff.1 (hbodies ⟨5⟩ (by decide))
  obtain ⟨g, hg, hgbody⟩ := Option.map_eq_some_iff.1 (hbodies ⟨6⟩ (by decide))
  have hdeclared : w.program.Declared ⟨5⟩ := .listed hcontainer hcls (by rw [hlists]; decide)
  have hdeclared' : w.program.Declared ⟨6⟩ := .listed hcontainer hcls (by rw [hlists]; decide)
  cases haccounted'.eq_of_shared_body hdeclared hf hfbody hdeclared' hg hgbody hbody rfl

end LambdaLift
