/-
  LambdaLift.Proofs.ScopePaths
  **COMPOSED NAMES ARE SCOPE PATHS.**

  The name of a lifted declaration is its path from the root, written with
  separators.  If no part contains the separator the path can be read off
  the name, and if the parts of siblings differ it leads to one
  declaration only: from the root down, each part says where to go on.
  Paths may differ in length, and one may continue the other.

  Main results:
    * `Program.rises_of_lineage` — the scopes between a declaration and an
      ancestor;
    * `lifted_names_injective` — names that are given and told apart.
-/
import Mathlib
import LambdaLift.Sample
import LambdaLift.Proofs.Ledger
import LambdaLift.Proofs.Titles

namespace LambdaLift

/-! ## §1. Up to an ancestor. -/

namespace Program

variable {p : Program} {root d : DeclId}

/-- **The scopes between a declaration and an ancestor** lead up to it, each to its parent. -/
theorem rises_of_lineage {scopes outer : List (DeclId × Name)} {name : Name}
    (hend : (p.chain d).ending = .atModule)
    (hlineage : p.lineage d = scopes ++ (root, name) :: outer) :
    p.Rises root scopes ∧ (scopes.head?.map (·.1)).getD root = d := by
  induction scopes generalizing d with
  | nil =>
    obtain ⟨content, hd⟩ := exists_of_ending hend
    have hhead := (List.cons.inj ((lineage_cons hend hd).2.symm.trans hlineage)).1
    exact ⟨trivial, (congrArg Prod.fst hhead).symm⟩
  | cons s scopes ih =>
    obtain ⟨content, hd⟩ := exists_of_ending hend
    obtain ⟨hends, hcons⟩ := lineage_cons hend hd
    obtain ⟨rfl, htail⟩ := List.cons.inj (hcons.symm.trans hlineage)
    cases hparent : content.parent with
    | none =>
      rw [hparent] at htail
      cases scopes <;> cases htail
    | some k =>
      rw [hparent] at htail
      obtain ⟨hrises, hhead⟩ := ih (hends k hparent) htail
      exact ⟨⟨⟨content, hd, rfl, by rw [hhead, hparent]⟩, hrises⟩, rfl⟩

/-- The declaration from which scopes lead up to the root is the first of them. -/
theorem exists_rises (hend : (p.chain d).ending = .atModule)
    (hroot : root ∈ (p.lineage d).map (·.1)) :
    ∃ scopes, p.lineage d = scopes ++ p.lineage root ∧ p.Rises root scopes
      ∧ (scopes.head?.map (·.1)).getD root = d := by
  obtain ⟨⟨_, name⟩, hmem, rfl⟩ := List.mem_map.1 hroot
  obtain ⟨scopes, outer, hlineage⟩ := List.append_of_mem hmem
  refine ⟨scopes, ?_, rises_of_lineage hend hlineage⟩
  rw [hlineage, (lineage_of_append hend hlineage).2]

/-- Two declarations have the same parent. -/
def Siblings (p : Program) (d d' : DeclId) : Prop :=
  (p.decls.get? d).map (·.parent) = (p.decls.get? d').map (·.parent)

instance (p : Program) (d d' : DeclId) : Decidable (p.Siblings d d') :=
  inferInstanceAs (Decidable (_ = _))

end Program

/-! ## §2. Names that are told apart. -/

/-- **Parts tell scopes apart**: on the chains of what is lifted, which all lead to the root, no
part contains the separator and siblings contribute different parts. -/
structure Site.TellsApart (site : Site) (p : Program) (c : Char) : Prop where
  separator : site.settings.separator = String.singleton c
  ends : ∀ d ∈ site.locals.lifted, (p.chain d).ending = .atModule
  rooted : ∀ d ∈ site.locals.lifted, site.root ∈ (p.lineage d).map (·.1)
  free : ∀ d ∈ site.locals.lifted, ∀ s ∈ p.lineage d, c ∉ (site.part s).toList
  siblings : ∀ d ∈ site.locals.lifted, ∀ d' ∈ site.locals.lifted, ∀ s ∈ p.lineage d,
    ∀ s' ∈ p.lineage d', s.1 ≠ s'.1 → p.Siblings s.1 s'.1 → site.part s ≠ site.part s'

instance (site : Site) (p : Program) (c : Char) : Decidable (site.TellsApart p c) :=
  decidable_of_iff (site.settings.separator = String.singleton c
      ∧ (∀ d ∈ site.locals.lifted, (p.chain d).ending = .atModule)
      ∧ (∀ d ∈ site.locals.lifted, ((p.lineage d).map (·.1)).contains site.root = true)
      ∧ (∀ d ∈ site.locals.lifted, ∀ s ∈ p.lineage d, (site.part s).toList.contains c = false)
      ∧ ∀ d ∈ site.locals.lifted, ∀ d' ∈ site.locals.lifted, ∀ s ∈ p.lineage d, ∀ s' ∈ p.lineage d',
        s.1 ≠ s'.1 → p.Siblings s.1 s'.1 → site.part s ≠ site.part s') (by
    simp only [List.contains_iff_mem, ← Bool.not_eq_true]
    exact ⟨fun h => ⟨h.1, h.2.1, h.2.2.1, h.2.2.2.1, h.2.2.2.2⟩,
      fun h => ⟨h.separator, h.ends, h.rooted, h.free, h.siblings⟩⟩)

/-- **Every local function and every local class has a name of its own**: the one that is composed
for it at any time, and the one that its replacement gets. -/
structure Site.NamesApart (site : Site) (p : Program) (names : DeclId → Name) : Prop where
  composed : ∀ d ∈ site.locals.lifted, Lift.NamedFrom p site d (names d)
  given : ∀ {r : Relocation} {q : Program} {events events' : List Event},
    Lift.relocation site ⟨p, events⟩ = .ok r ⟨q, events'⟩ → ∀ d ∈ site.locals.lifted, ∃ x content,
      r.get? d = some x ∧ q.decls.get? x = some content ∧ content.name = names d
  injective : ∀ d ∈ site.locals.lifted, ∀ d' ∈ site.locals.lifted, names d = names d' → d = d'

/-- The name composed for a declaration. -/
def Site.title (site : Site) (p : Program) (d : DeclId) : Name :=
  .ident (String.intercalate site.settings.separator (site.parts p d))

section

variable {p : Program} {site : Site} {c : Char}

/-- **A path leads to one declaration.** -/
theorem Site.TellsApart.eq_of_title (h : site.TellsApart p c) {rootDecl : Declaration}
    (hroot : p.decls.get? site.root = some rootDecl) {d d' : DeclId} (hd : d ∈ site.locals.lifted)
    (hd' : d' ∈ site.locals.lifted) (heq : site.title p d = site.title p d') : d = d' := by
  obtain ⟨scopes, hlineage, hrises, hhead⟩ := Program.exists_rises (h.ends d hd) (h.rooted d hd)
  obtain ⟨scopes', hlineage', hrises', hhead'⟩ :=
    Program.exists_rises (h.ends d' hd') (h.rooted d' hd')
  obtain ⟨outer, houter⟩ := Program.exists_lineage hroot
  have hfree : ∀ e ∈ site.locals.lifted, ∀ inner, p.lineage e = inner ++ p.lineage site.root →
      ∀ part ∈ site.part (site.root, rootDecl.name) :: (inner.map site.part).reverse,
      c ∉ part.toList := by
    intro e he inner hinner part hpart
    rcases List.mem_cons.1 hpart with rfl | hpart
    · exact h.free e he _ (by simp [hinner, houter])
    · obtain ⟨s, hs, rfl⟩ := List.mem_map.1 (List.mem_reverse.1 hpart)
      exact h.free e he s (hinner ▸ List.mem_append_left _ hs)
  -- the parts can be read off the name, and the root's comes first in both
  have hparts : (scopes.map site.part).reverse = (scopes'.map site.part).reverse := by
    have hjoined := Name.ident.inj heq
    rw [Site.parts_eq rfl hroot (h.ends d hd) hlineage,
      Site.parts_eq rfl hroot (h.ends d' hd') hlineage', h.separator] at hjoined
    have hpaths := joined_inj (hfree d hd scopes hlineage) (hfree d' hd' scopes' hlineage')
      (List.cons_ne_nil _ _)
      (List.cons_ne_nil _ _) hjoined
    exact (List.cons.inj hpaths).2
  have hscopes : scopes = scopes' := by
    refine @Program.Rises.eq_of_parts p site.root site.part scopes scopes' hrises hrises' ?_
      (List.reverse_injective hparts)
    rintro s hs s' hs' ⟨content, content', hcontent, hcontent', hparent⟩ hpart
    by_contra hne
    refine h.siblings d hd d' hd' s (hlineage ▸ List.mem_append_left _ hs) s'
      (hlineage' ▸ List.mem_append_left _ hs') hne
      ?_ hpart
    unfold Program.Siblings
    rw [hcontent, hcontent', Option.map_some, Option.map_some, hparent]
  rw [← hhead, ← hhead', hscopes]

/-- The replacement of a local function or class gets the name composed for it. -/
theorem Ledger.title {r : Relocation} {q : Program} (h : Ledger p site none r q) {d x : DeclId}
    (hd : d ∈ site.locals.lifted) (hx : r.get? d = some x) (hend : (p.chain d).ending = .atModule)
    (hsorted : p.Sorted site.root site.locals) :
    ∃ content, q.decls.get? x = some content ∧ content.name = site.title p d := by
  rcases List.mem_append.1 hd with hd | hd
  · obtain ⟨-, -, f, hf⟩ := (hsorted.functions d).1 hd
    obtain ⟨content, hcontent, hrenews⟩ := h.renews hx hf
    refine ⟨content, hcontent, ?_⟩
    rw [← Declaration.name_erase]
    generalize content.erase = g at hrenews
    cases hrenews with
    | function _ _ hname => exact hname hend
    | method hnot => exact absurd hd hnot
  · obtain ⟨-, -, c, hc⟩ := (hsorted.classes d).1 hd
    obtain ⟨content, hcontent, hrenews⟩ := h.renews hx hc
    refine ⟨content, hcontent, ?_⟩
    rw [← Declaration.name_erase]
    generalize content.erase = c' at hrenews
    cases hrenews with
    | cls _ _ hname => exact hname hend

end

/-- **Composed names encode scope paths injectively**: if parts tell the scopes of a root apart,
then no two of its local functions and classes get the same name, whether both stand in one scope,
in different ones or one in the other. -/
theorem lifted_names_injective {p : Program} {root : DeclId} {settings : Settings} {l : Locals}
    {closures : Closures} {c : Char} (hlocals : p.locals root = .ok l)
    (hapart : Site.TellsApart ⟨settings, root, l, closures⟩ p c) :
    ∃ names, Site.NamesApart ⟨settings, root, l, closures⟩ p names := by
  obtain ⟨hsorted, hcollects⟩ := Program.locals_spec hlocals
  obtain ⟨rootDecl, hroot, -⟩ := hcollects.ends
  refine ⟨Site.title ⟨settings, root, l, closures⟩ p,
    fun d hd => Lift.namedFrom hroot (hapart.ends d hd), ?_,
    fun d hd d' hd' heq => hapart.eq_of_title hroot hd hd' heq⟩
  intro r q events events' hrelocation d hd
  obtain ⟨h, hcovers⟩ := ledger_of_relocation hlocals hrelocation
  obtain ⟨x, hx⟩ := Option.isSome_iff_exists.1 (hcovers.isSome_of_lifted hsorted
    (fun d hd => List.mem_append_left _ (List.mem_append_left _ hd)) d hd)
  obtain ⟨content, hcontent, hname⟩ := h.title hd hx (hapart.ends d hd) hsorted
  exact ⟨x, content, hx, hcontent, hname⟩

/-- The same names at different depths, and an anonymous function.

    fun f() { fun a() { fun b() { }; { } }; fun b() { fun a() { } } }
-/
def Sample.crossedNames : Build Sample := do
  let f ← Build.function none (.ident "f") .unit
  let a ← Build.function (some f) (.ident "a") .unit
  let ab ← Build.function (some a) (.ident "b") .unit
  let lam ← Build.lambda a .unit
  let b ← Build.function (some f) (.ident "b") .unit
  let ba ← Build.function (some b) (.ident "a") .unit
  for d in [ab, lam, ba] do
    Build.setBody d (← Build.block [])
  Build.setBody a (← Build.block [← Build.addExpr (.decl ab), ← Build.addExpr (.decl lam)])
  Build.setBody b (← Build.block [← Build.addExpr (.decl ba)])
  Build.setBody f (← Build.block [← Build.addExpr (.decl a), ← Build.addExpr (.decl b)])
  return ⟨f, [a, ab, lam, b, ba]⟩

theorem lifted_names_injective_crossed :
    ∃ l, (Sample.program Sample.crossedNames).locals ⟨0⟩ = .ok l
      ∧ l.lifted = [⟨2⟩, ⟨3⟩, ⟨1⟩, ⟨5⟩, ⟨4⟩]
      ∧ Site.TellsApart ⟨{}, ⟨0⟩, l, .empty⟩ (Sample.program Sample.crossedNames) '$'
      ∧ ∃ names,
        Site.NamesApart ⟨{}, ⟨0⟩, l, .empty⟩ (Sample.program Sample.crossedNames) names := by
  have hrun : ((Sample.program Sample.crossedNames).locals ⟨0⟩).toOption.any (fun l =>
      decide (l.lifted = [⟨2⟩, ⟨3⟩, ⟨1⟩, ⟨5⟩, ⟨4⟩]
        ∧ Site.TellsApart ⟨{}, ⟨0⟩, l, .empty⟩ (Sample.program Sample.crossedNames) '$'))
        = true := by decide +kernel
  cases hlocals : (Sample.program Sample.crossedNames).locals ⟨0⟩ with
  | error f =>
    rw [hlocals] at hrun
    cases hrun
  | ok l =>
    rw [hlocals] at hrun
    obtain ⟨hlifted, hapart⟩ := of_decide_eq_true hrun
    exact ⟨l, rfl, hlifted, hapart, lifted_names_injective hlocals hapart⟩

end LambdaLift
