/-
  LambdaLift.Proofs.Distinct
  **NAMES IN A CONTAINER STAY APART.**

  Every composed name starts with the name of the root, but numbers start
  over for each root.  So names stay apart as long as no two scopes at the
  same place have the same name, if something to lift stands in both of
  them.  Functions, classes and properties of one container have different
  names anyhow; constructors and accessors need not, and two constructors
  of a class never have.

  Main results:
    * `Lowering.Lowered.title` — the name of a sibling;
    * `Lowering.Lowered.eq_of_title` — siblings have different names;
    * `lower_names_apart` — a whole run;
    * `lower_names_collide` — two constructors, each with a local function.
-/
import Mathlib
import LambdaLift.Proofs.Titles

namespace LambdaLift

variable {d x y : DeclId} {ds ds' : List DeclId} {container' : Option DeclId}
  {content content' : Declaration}

/-! ## §1. Names that are told apart. -/

/-- What a container tells apart by name: functions, classes and properties. -/
def Declaration.isNamed : Declaration → Bool
  | .function _ | .cls _ | .property _ => true
  | .constructor _ | .field _ => false

/-- A separator that is in no part of a composed name. -/
structure Settings.SeparatesBy (settings : Settings) (c : Char) : Prop where
  separator : settings.separator = String.singleton c
  dash : c ≠ '-'
  digit : c.isDigit = false
  stem : ∀ kind, c ∉ (settings.stem kind).toList
  stems : settings.lambdaStem ≠ settings.objectStem

namespace Settings.SeparatesBy

variable {settings : Settings} {c : Char}

theorem not_mem_numberedName (h : settings.SeparatesBy c) (kind : Numbering) (i : Nat) :
    c ∉ (settings.numberedName kind i).toList :=
  not_mem_numbered (h.stem kind) h.dash h.digit i

/-- Kind and number can be read off a numbered name. -/
theorem numberedName_inj (h : settings.SeparatesBy c) {kind kind' : Numbering} {i j : Nat}
    (heq : settings.numberedName kind i = settings.numberedName kind' j) :
    kind = kind' ∧ i = j := by
  obtain ⟨hstem, hindex⟩ := numbered_inj heq
  refine ⟨?_, hindex⟩
  cases kind <;> cases kind'
  · rfl
  · exact absurd hstem h.stems
  · exact absurd hstem.symm h.stems
  · rfl

end Settings.SeparatesBy

namespace Program

/-- No two functions, classes or properties in a list have the same name. -/
def NamesDiffer (p : Program) (ds : List DeclId) : Prop :=
  ∀ x ∈ ds, ∀ y ∈ ds, ∀ content ∈ p.decls.get? x, ∀ content' ∈ p.decls.get? y,
    content.isNamed = true → content'.isNamed = true → content.name = content'.name → x = y

/-- The function or class stands in a body and in no class there, so it is lifted. -/
def LiftedOut (p : Program) (d : DeclId) : Prop :=
  ∃ content ∈ p.decls.get? d, content.numbering?.isSome = true
    ∧ ∃ k ∈ content.parent, ∃ outer ∈ p.decls.get? k, outer.isClass = false

/-- Something that is lifted stands in the declaration, or is it. -/
def Carries (p : Program) (x : DeclId) : Prop :=
  ∃ d, p.LiftedOut d ∧ ∃ s ∈ p.lineage d, s.1 = x

/-- Declared names do not look like composed or numbered ones, and the names that a container lists
differ. -/
structure NamesPlain (p : Program) (settings : Settings) (c : Char) : Prop where
  plain : ∀ {d content}, p.decls.get? d = some content → c ∉ content.name.display.toList
  unnumbered : ∀ {d content}, p.decls.get? d = some content → p.numbering? d = none →
    ∀ kind i, content.name.display ≠ settings.numberedName kind i
  children : ∀ {container ds}, p.children container = .ok ds → p.NamesDiffer ds

/-- Scopes at the same place have different names if they are not numbered and carry something to
lift. -/
def ScopesApart (p : Program) : Prop :=
  ∀ {x y content content'}, p.decls.get? x = some content → p.decls.get? y = some content' →
    content.parent = content'.parent → p.Carries x → p.Carries y → p.numbering? x = none →
    p.numbering? y = none →
    content.name.display = content'.name.display → x = y

/-- Names that can be told apart. -/
structure NamesApart (p : Program) (settings : Settings) (c : Char) :
    Prop extends p.NamesPlain settings c where
  scopes : p.ScopesApart

variable {P p : Program} {x k : DeclId} {content outer : Declaration}

/-- Numberings are a matter of names, kinds and parents. -/
theorem Relists.numbering? (h : P.Relists p) (hx : P.decls.get? x = some content)
    (hparent : content.parent = some k) (hk : P.decls.get? k = some outer) :
    p.numbering? x = P.numbering? x := by
  have kind : ∀ {d : DeclId} {a : Declaration}, P.decls.get? d = some a →
      ∃ b, p.decls.get? d = some b
      ∧ b.parent = a.parent ∧ b.name = a.name ∧ b.isClass = a.isClass
      ∧ b.numbering? = a.numbering? := by
    intro d a hd
    obtain ⟨b, hb, rfl | ⟨c, ms, rfl, rfl⟩⟩ := h d a hd
    · exact ⟨b, hb, rfl, rfl, rfl, rfl⟩
    · exact ⟨_, hb, rfl, rfl, rfl, rfl⟩
  obtain ⟨content', hx', hparent', hname, -, hnumbering⟩ := kind hx
  obtain ⟨outer', hk', -, -, hclass, -⟩ := kind hk
  unfold Program.numbering?
  rw [hx, hx', Option.bind_some, Option.bind_some, hparent', hparent, Option.bind_some,
    Option.bind_some, hk, hk', Option.bind_some, Option.bind_some, hname, hclass, hnumbering]

/-- Names stay apart in a list if they are kept. -/
theorem NamesDiffer.relists (h : P.NamesDiffer ds) (hrelists : P.Relists p)
    (hds : ∀ x ∈ ds, ∃ content, P.decls.get? x = some content) : p.NamesDiffer ds := by
  have old : ∀ {d : DeclId} {b : Declaration}, d ∈ ds → p.decls.get? d = some b →
      ∃ a, P.decls.get? d = some a
      ∧ a.isNamed = b.isNamed ∧ a.name = b.name := by
    intro d b hd hb
    obtain ⟨a, ha⟩ := hds d hd
    obtain ⟨b', hb', hcases⟩ := hrelists d a ha
    obtain rfl : b = b' := Option.mem_unique hb hb'
    obtain rfl | ⟨c, ms, rfl, rfl⟩ := hcases
    · exact ⟨b, ha, rfl, rfl⟩
    · exact ⟨_, ha, rfl, rfl⟩
  intro x hx y hy content hcontent content' hcontent' hnamed hnamed' hname
  obtain ⟨a, ha, haNamed, haName⟩ := old hx hcontent
  obtain ⟨b, hb, hbNamed, hbName⟩ := old hy hcontent'
  exact h x hx y hy a ha b hb (haNamed.trans hnamed) (hbNamed.trans hnamed')
    (haName.trans (hname.trans hbName.symm))

end Program

/-- A name that is composed of a first part and more, none of which has the separator in it. -/
def Name.StartsWith (c : Char) (first : String) (name : Name) : Prop :=
  ∃ rest, rest ≠ [] ∧ (∀ part ∈ first :: rest, c ∉ part.toList)
    ∧ name = .ident (String.intercalate (String.singleton c) (first :: rest))

namespace Name.StartsWith

variable {c : Char} {first first' : String} {name : Name}

/-- Composed names have the separator in them. -/
theorem mem (h : name.StartsWith c first) : c ∈ name.display.toList := by
  obtain ⟨rest, hne, -, rfl⟩ := h
  cases rest with
  | nil => exact absurd rfl hne
  | cons part rest => exact mem_joined c first part rest

/-- The first part can be read off a composed name. -/
theorem inj (h : name.StartsWith c first) (h' : name.StartsWith c first') : first = first' := by
  obtain ⟨rest, -, hfree, rfl⟩ := h
  obtain ⟨rest', -, hfree', heq⟩ := h'
  exact (List.cons.inj (joined_inj hfree hfree' (by simp) (by simp) (Name.ident.inj heq))).1

end Name.StartsWith

theorem Refills.name {m k : Nat} (h : Refills m k content content') :
    content'.name = content.name ∧ content'.isNamed = content.isNamed := by
  cases h <;> exact ⟨rfl, rfl⟩

theorem Program.Rises.exists_decl {p : Program} {root : DeclId} {scopes : List (DeclId × Name)}
    (h : p.Rises root scopes) {s : DeclId × Name} (hs : s ∈ scopes) :
    ∃ content k, p.decls.get? s.1 = some content ∧ content.name = s.2
      ∧ content.parent = some k := by
  induction scopes with
  | nil => cases hs
  | cons a rest ih =>
    obtain ⟨⟨content, ha, hname, hparent⟩, hrest⟩ := h
    rcases List.mem_cons.1 hs with rfl | hs
    · exact ⟨content, _, ha, hname, hparent⟩
    · exact ih hrest hs

/-! ## §2. The names of siblings. -/

namespace Lowering

open Program

variable {settings : Settings} {c : Char} {P p p₁ p₂ q : Program} {container : Option DeclId}
  {root : DeclId} {siblings : List DeclId} {site : Site} {r : Relocation} {S : Set ExprId}

/-- A program that was reached from `P`: what was there has its parent and its name, and callables
host no declarations but those that they hosted. -/
structure Continues (P p : Program) : Prop where
  relists : P.Relists p
  hosts : ∀ {g d}, p.Hosted (some g) (.decl d) → P.Hosted (some g) (.decl d)

section

variable (hP : P.Accounted) (hchains : P.ChainsEnd) (hcontinues : Continues P p)
  (hs : Start p container root) {rootDecl : Declaration} (hroot : P.decls.get? root = some rootDecl)
include hP hchains hcontinues hs hroot

/-- What is reached from a root was there from the start, with its parent, its ancestors and its
numbering. -/
theorem exists_old (hbelow : p.Below root (.decl x)) :
    ∃ content k outer, P.decls.get? x = some content ∧ content.parent = some k
      ∧ P.decls.get? k = some outer
      ∧ (p.chain x).ending = .atModule ∧ p.lineage x = P.lineage x
      ∧ p.numbering? x = P.numbering? x := by
  obtain ⟨rootDecl', hroot', hcallable⟩ := hs.callable
  have old : ∀ {y : DeclId}, p.Below root (.decl y) → ∃ content, P.decls.get? y = some content := by
    intro y hy
    obtain ⟨g, hg, -⟩ := hs.root_hosted.of_below hroot' hcallable hy
    exact hP.exists_decl (hcontinues.hosts hg)
  obtain ⟨content, hx⟩ := old hbelow
  obtain ⟨k, ⟨content', hx', hparent'⟩, hinside⟩ :=
    hs.accounted.parent_of_below hs.root_hosted hroot' hcallable hbelow rfl
  obtain ⟨content'', hx'', hparent, -⟩ := hcontinues.relists.exists_same hx
  obtain rfl : content' = content'' := Option.some.inj (Eq.trans (Eq.symm hx') hx'')
  rw [hparent'] at hparent
  have houter : ∃ outer, P.decls.get? k = some outer := by
    rcases hinside with rfl | hinside
    · exact ⟨rootDecl, hroot⟩
    · exact old hinside
  obtain ⟨outer, houter⟩ := houter
  obtain ⟨hend, hlineage⟩ := hcontinues.relists.lineage (hchains.ending hx)
  exact ⟨content, k, outer, hx, hparent.symm, houter, hend, hlineage,
    hcontinues.relists.numbering? hx hparent.symm houter⟩

/-- **The scopes around what is lifted** carry it, and so does the root. -/
theorem carries_of_way (hlocals : p.locals root = .ok site.locals) (hd : d ∈ site.locals.lifted)
    {scopes : List (DeclId × Name)} (hway : p.Way root d scopes) :
    P.Carries root ∧ ∀ s ∈ scopes, P.Carries s.1 := by
  obtain ⟨hsorted, -⟩ := locals_spec hlocals
  obtain ⟨hbelow, hmember, hkind⟩ : p.Below root (.decl d) ∧ p.isMember d = .ok false
      ∧ ∀ content, p.decls.get? d = some content → content.numbering?.isSome = true := by
    rcases List.mem_append.1 hd with hd | hd
    · obtain ⟨hbelow, hmember, f, hf⟩ := (hsorted.functions d).1 hd
      refine ⟨hbelow, hmember, fun content hcontent => ?_⟩
      rw [Option.mem_unique hcontent hf]
      rfl
    · obtain ⟨hbelow, hmember, x, hx⟩ := (hsorted.classes d).1 hd
      refine ⟨hbelow, hmember, fun content hcontent => ?_⟩
      rw [Option.mem_unique hcontent hx]
      rfl
  obtain ⟨content, k, outer, hcontent, hparent, houter, -, hlineage, -⟩ :=
    exists_old hP hchains hcontinues hs hroot hbelow
  have hlifted : P.LiftedOut d := by
    refine ⟨content, hcontent, ?_, k, hparent, outer, houter, ?_⟩
    · obtain ⟨content', hcontent', hcases⟩ := hcontinues.relists d content hcontent
      have hsome := hkind content' hcontent'
      obtain rfl | ⟨c, ms, rfl, rfl⟩ := hcases
      · exact hsome
      · rfl
    · have hsame := hcontinues.relists.isMember
        (isMember_eq_ok.2 ⟨content, hcontent, .inr ⟨k, outer, hparent, houter, rfl⟩⟩)
      exact Except.ok.inj (hsame.symm.trans hmember)
  -- the way and the root make up the first ancestors
  have hmem : ∀ s ∈ scopes ++ p.lineage root, P.Carries s.1 := by
    intro s hs
    refine ⟨d, hlifted, s, ?_, rfl⟩
    rw [← hlineage, hway.lineage]
    exact hs
  refine ⟨?_, fun s hs => hmem s (List.mem_append_left _ hs)⟩
  obtain ⟨content', hroot', -⟩ := hs.callable
  have hend := (hcontinues.relists.lineage (hchains.ending hroot)).1
  refine hmem (root, content'.name) (List.mem_append_right _ ?_)
  rw [(lineage_cons hend hroot').2]
  exact List.mem_cons_self

/-- **What a scope below the root contributes**: its number if it has a numbering, and its declared
name if not. -/
theorem part_of_way (hsite : site.root = root) (hlocals : p.locals root = .ok site.locals)
    {scopes : List (DeclId × Name)} (hway : p.Way root d scopes) {s : DeclId × Name}
    (hmem : s ∈ scopes) :
    ∃ content, P.decls.get? s.1 = some content ∧ p.HasParent s.1 content.parent
      ∧ ((∃ kind i, (site.locals.table kind).get? s.1 = some (some i)
          ∧ site.part s = site.settings.numberedName kind i)
        ∨ P.numbering? s.1 = none ∧ site.part s = content.name.display) := by
  subst hsite
  have hbelow := hway.below s hmem
  obtain ⟨content, k, outer, hcontent, hparent, houter, -, -, hnumbering⟩ :=
    exists_old hP hchains hcontinues hs hroot hbelow
  obtain ⟨content', hcontent', hparent', hname'⟩ := hcontinues.relists.exists_same hcontent
  obtain ⟨outer', houter', -⟩ := hcontinues.relists.exists_same houter
  obtain ⟨content'', -, hcontent'', hname, -⟩ := hway.rises.exists_decl hmem
  obtain rfl : content' = content'' := Option.mem_unique hcontent' hcontent''
  refine ⟨content, hcontent, ⟨content', hcontent', hparent'⟩, ?_⟩
  rw [← hnumbering, ← hname', show s = (s.1, content'.name) from Prod.ext rfl hname.symm]
  refine (site.part_cases hlocals hbelow hcontent' (hparent'.trans hparent) houter').imp_left ?_
  rintro ⟨kind, i, -, hi, hpart⟩
  exact ⟨kind, i, hi, hpart⟩

variable (hseparates : settings.SeparatesBy c) (hnames : P.NamesApart settings c)
  (hbuilds : Builds settings root p site r q)
include hseparates hnames hbuilds

/-- What a scope below the root contributes has no separator in it. -/
theorem not_mem_part {scopes : List (DeclId × Name)} (hway : p.Way root d scopes)
    {s : DeclId × Name} (hmem : s ∈ scopes) : c ∉ (site.part s).toList := by
  obtain ⟨content, hcontent, -, ⟨kind, i, -, hpart⟩ | ⟨-, hpart⟩⟩ :=
    part_of_way hP hchains hcontinues hs hroot hbuilds.atRoot hbuilds.locals hway hmem
  · rw [hpart, hbuilds.bySettings]
    exact hseparates.not_mem_numberedName kind i
  · rw [hpart]
    exact hnames.plain hcontent

/-- **Scopes at the same place contribute different parts.** -/
theorem eq_of_part {d' : DeclId} (hd : d ∈ site.locals.lifted) (hd' : d' ∈ site.locals.lifted)
    {scopes scopes' : List (DeclId × Name)} (hway : p.Way root d scopes)
    (hway' : p.Way root d' scopes') {s s' : DeclId × Name} (hmem : s ∈ scopes)
    (hmem' : s' ∈ scopes') {parent : Option DeclId} (hparent : p.HasParent s.1 parent)
    (hparent' : p.HasParent s'.1 parent) (hpart : site.part s = site.part s') : s.1 = s'.1 := by
  have hcarries := (carries_of_way hP hchains hcontinues hs hroot hbuilds.locals hd hway).2 s hmem
  have hcarries' :=
    (carries_of_way hP hchains hcontinues hs hroot hbuilds.locals hd' hway').2 s' hmem'
  have hlocals : p.locals site.root = .ok site.locals := by
    rw [hbuilds.atRoot]; exact hbuilds.locals
  obtain ⟨content, hcontent, ⟨a, ha, haParent⟩, hcases⟩ :=
    part_of_way hP hchains hcontinues hs hroot hbuilds.atRoot hbuilds.locals hway hmem
  obtain ⟨content', hcontent', ⟨b, hb, hbParent⟩, hcases'⟩ :=
    part_of_way hP hchains hcontinues hs hroot hbuilds.atRoot hbuilds.locals hway' hmem'
  have hsame : content.parent = content'.parent :=
    haParent.symm.trans ((hparent.eq ha).trans ((hparent'.eq hb).symm.trans hbParent))
  rw [hbuilds.bySettings] at hcases hcases'
  rcases hcases with ⟨kind, i, hi, hs₁⟩ | ⟨hnone, hs₁⟩ <;> rcases hcases'
    with ⟨kind', j, hj, hs₂⟩ | ⟨hnone', hs₂⟩
  · obtain ⟨rfl, rfl⟩ := hseparates.numberedName_inj (hs₁.symm.trans (hpart.trans hs₂))
    exact Site.eq_of_number hlocals hi hj
  · exact absurd (hs₂.symm.trans (hpart.symm.trans hs₁)) (hnames.unnumbered hcontent' hnone' kind i)
  · exact absurd (hs₁.symm.trans (hpart.trans hs₂)) (hnames.unnumbered hcontent hnone kind' j)
  · exact hnames.scopes hcontent hcontent' hsame hcarries hcarries' hnone hnone'
      (hs₁.symm.trans (hpart.trans hs₂))

omit hbuilds
variable (hlowered : Lowered settings root p siblings site r q S p₁)
include hlowered

omit hP hchains hcontinues hroot hseparates hnames in
/-- A replacement that stands in a class keeps its name. -/
theorem name_of_member {old : Declaration} (hr : r.get? d = some x)
    (hold : p.decls.get? d = some old) (hcontent : p₁.decls.get? x = some content)
    (hparent : content.parent = some y) (hy : p.decls.size ≤ y.index) :
    content.name = old.name := by
  obtain ⟨new, content', hnew, hcontent', hrefills⟩ := exists_replacement hlowered hr
  obtain rfl : content = content' := Option.mem_unique hcontent hcontent'
  rcases hlowered.raised.names hr hold hnew with ⟨hdest, -⟩ | ⟨k, z, -, -, hname⟩
  · -- the destination was there before
    obtain ⟨rootDecl, hroot, hrootParent⟩ := hs.parent
    have hdestination : site.destination p = container := by
      rw [Site.destination, hlowered.builds.atRoot,
        show p.decls.get? root = some rootDecl from hroot]
      exact hrootParent
    rw [← hrefills.parent, hparent, hdestination] at hdest
    obtain ⟨-, c, hc⟩ := hs.container y hdest.symm
    exact absurd (Arena.lt_size_of_get? hc) (Nat.not_lt_of_le hy)
  · rw [hrefills.name.1, hname]

omit hnames in
/-- **The name of a sibling** is composed from the root and the scopes between. -/
theorem Lowered.title (hx : x ∈ siblings) : ∃ d scopes content, d ∈ site.locals.lifted
    ∧ p.Way root d scopes ∧ r.get? d = some x ∧ p₁.decls.get? x = some content
    ∧ content.name = .ident (String.intercalate (String.singleton c)
      (rootDecl.name.display :: (scopes.map site.part).reverse)) := by
  obtain ⟨d, hd, hr⟩ := forall₂_left hlowered.siblings hx
  have hbuilds := hlowered.builds
  obtain ⟨hsorted, -⟩ := locals_spec hbuilds.locals
  have hbelow : p.Below root (.decl d) := by
    rcases List.mem_append.1 hd with hd | hd
    · exact ((hsorted.functions d).1 hd).1
    · exact ((hsorted.classes d).1 hd).1
  obtain ⟨old, -, -, hold, -, -, hend, -⟩ := exists_old hP hchains hcontinues hs hroot hbelow
  obtain ⟨old', hold', -⟩ := hcontinues.relists.exists_same hold
  obtain ⟨scopes, hway⟩ := hs.exists_way hend hbelow
  obtain ⟨rootDecl', hroot', hrootParent', hrootName⟩ := hcontinues.relists.exists_same hroot
  -- the root is in none of its own tables
  have hrootPart : site.part (root, rootDecl'.name) = rootDecl.name.display := by
    rw [← hrootName]
    refine Site.part_of_not_mem fun kind hmem => ?_
    have hsorted' : p.Sorted site.root site.locals := by rw [hbuilds.atRoot]; exact hsorted
    have hloop := ((Site.mem_table hsorted' hroot').1 hmem).1
    rw [hbuilds.atRoot] at hloop
    exact hs.not_below hs.root_hosted (fun g hg => by cases hg) rfl hloop
  have hparts := Site.parts_eq hbuilds.atRoot hroot' hend hway.lineage
  obtain ⟨new, content, hnew, hcontent, hrefills⟩ := exists_replacement hlowered hr
  refine ⟨d, scopes, content, hd, hway, hr, hcontent, ?_⟩
  rcases hlowered.raised.names hr hold' hnew with ⟨-, hname⟩ | ⟨k, y, hy, hparent, -⟩
  · rw [hrefills.name.1, hname hend, hbuilds.bySettings, hseparates.separator, hparts, hrootPart]
  · -- siblings stand in the container, which is no replacement
    have hcontainer := (hasParent_sibling hs hlowered hr hd).eq hcontent
    rw [hrefills.parent, hparent] at hcontainer
    obtain ⟨-, z, hz⟩ := hs.container y hcontainer.symm
    exact absurd (Arena.lt_size_of_get? hz) (Nat.not_lt_of_le (hlowered.raised.images hy).1)

/-- No part of the name of a sibling has the separator in it. -/
theorem free_of_way {scopes : List (DeclId × Name)} (hway : p.Way root d scopes) :
    ∀ part ∈ rootDecl.name.display :: (scopes.map site.part).reverse, c ∉ part.toList := by
  intro part hpart
  rcases List.mem_cons.1 hpart with rfl | hpart
  · exact hnames.plain hroot
  · obtain ⟨s, hmem, rfl⟩ := List.mem_map.1 (List.mem_reverse.1 hpart)
    exact not_mem_part hP hchains hcontinues hs hroot hseparates hnames hlowered.builds hway hmem

/-- **The name of a sibling starts with the root**, which carries what was lifted. -/
theorem Lowered.startsWith (hx : x ∈ siblings) : P.Carries root
    ∧ ∃ content, p₁.decls.get? x = some content
    ∧ content.name.StartsWith c rootDecl.name.display := by
  obtain ⟨d, scopes, content, hd, hway, -, hcontent, hname⟩ :=
    hlowered.title hP hchains hcontinues hs hroot hseparates hx
  refine ⟨(carries_of_way hP hchains hcontinues hs hroot hlowered.builds.locals hd hway).1, content,
    hcontent, _, ?_,
    free_of_way hP hchains hcontinues hs hroot hseparates hnames hlowered hway, hname⟩
  intro hnil
  rw [List.reverse_eq_nil_iff, List.map_eq_nil_iff] at hnil
  rw [hnil] at hway
  cases hway.head

/-- **Siblings have different names.** -/
theorem Lowered.eq_of_title (hx : x ∈ siblings) (hy : y ∈ siblings)
    (hcontent : p₁.decls.get? x = some content) (hcontent' : p₁.decls.get? y = some content')
    (hname : content.name = content'.name) : x = y := by
  obtain ⟨d, scopes, a, hd, hway, hr, ha, haName⟩ :=
    hlowered.title hP hchains hcontinues hs hroot hseparates hx
  obtain ⟨d', scopes', b, hd', hway', hr', hb, hbName⟩ :=
    hlowered.title hP hchains hcontinues hs hroot hseparates hy
  obtain rfl : content = a := Option.mem_unique hcontent ha
  obtain rfl : content' = b := Option.mem_unique hcontent' hb
  have hparts :=
    joined_inj (free_of_way hP hchains hcontinues hs hroot hseparates hnames hlowered hway)
    (free_of_way hP hchains hcontinues hs hroot hseparates hnames hlowered hway') (by simp)
      (by simp)
    (Name.ident.inj (haName.symm.trans (hname.trans hbName)))
  have hscopes : scopes = scopes' := by
    refine hway.rises.eq_of_parts hway'.rises ?_ (List.reverse_injective (List.cons.inj hparts).2)
    rintro s hmem s' hmem' ⟨z, z', hz, hz', hparent⟩ hpart
    exact eq_of_part hP hchains hcontinues hs hroot hseparates hnames hlowered.builds hd hd'
      hway hway' hmem hmem'
      ⟨z, hz, rfl⟩ ⟨z', hz', hparent.symm⟩ hpart
  subst hscopes
  obtain rfl : d = d' := Option.mem_unique hway.head hway'.head
  exact Option.mem_unique hr hr'

end

/-! ## §3. One root more. -/

section

variable (hs : Start p container root) (hlowered : Lowered settings root p siblings site r q S p₁)
include hlowered

/-- What lists something when a root has been lowered listed it before, or is the replacement of a
class. -/
theorem Lowered.children_cases (hds : p₁.children container' = .ok ds) (hx : x ∈ ds) :
    p.children container' = .ok ds
      ∨ ∃ k d c, container' = some k ∧ r.get? d = some k ∧ p₁.decls.get? k = some (.cls c)
      ∧ c.members = ds := by
  have hconfined := hlowered.confined
  cases container' with
  | none => exact .inl (hds.symm.trans (congrArg Except.ok hconfined.top)).symm
  | some k =>
    obtain ⟨c, hc, rfl⟩ := children_some hds hx
    by_cases hlt : k.index < p.decls.size
    · obtain ⟨content, hk⟩ := Arena.exists_get?_of_lt hlt
      obtain rfl : content = .cls c := Option.some.inj ((hconfined.decls _ _ hk).symm.trans hc)
      left
      simp only [Program.children, decl_eq_ok.2 hk]
      rfl
    · right
      have hq : k.index < q.decls.size := by
        rw [← hlowered.filled.touched.declCount]
        exact Arena.lt_size_of_get? hc
      obtain ⟨content, hk⟩ := Arena.exists_get?_of_lt hq
      obtain ⟨content', hk', hrefills⟩ := hlowered.filled.touched.refills hk
      obtain rfl : content' = .cls c := Option.mem_unique hk' hc
      obtain ⟨c', rfl⟩ : ∃ c', content = .cls c' := by
        cases hrefills
        · exact ⟨_, rfl⟩
        · exact ⟨_, rfl⟩
      obtain ⟨d, hd⟩ := (hlowered.raised.added hk).resolve_left hlt
      exact ⟨k, d, c, rfl, hd, hc, rfl⟩

include hs

/-- The container lists what it listed until the siblings are listed. -/
theorem Lowered.children_container (hds : p₁.children container = .ok ds) (hx : x ∈ ds) :
    p.children container = .ok ds := by
  rcases hlowered.children_cases hds hx with hold | ⟨k, d, cls, rfl, hd, -⟩
  · exact hold
  · obtain ⟨-, c, hc⟩ := hs.container k rfl
    exact absurd (Arena.lt_size_of_get? hc) (Nat.not_lt_of_le (hlowered.raised.images hd).1)

/-- **The members of a lifted class** are called as those of the class were. -/
theorem Lowered.member_of_class {k : DeclId} {cls : ClassDecl} (hd : r.get? d = some k)
    (hk : p₁.decls.get? k = some (.cls cls)) (hy : y ∈ cls.members)
    (hcontent : p₁.decls.get? y = some content) (hnamed : content.isNamed = true) :
    ∃ c m old, p.decls.get? d = some (.cls c) ∧ m ∈ c.members
      ∧ r.get? m = some y ∧ p.decls.get? m = some old ∧ old.isNamed = true
      ∧ content.name = old.name := by
  obtain ⟨d', hd', hlists⟩ := (hlowered.filled.members hd hk y hy).2
  obtain rfl : d' = d := hlowered.raised.injective hd' hd
  rcases hlists with ⟨c, m, hc, hm, hr⟩ | ⟨this, captured, hcontext, hcaptured⟩
  · obtain ⟨-, old, new, hreach, hnew, hmirrors⟩ := hlowered.raised.images hr
    obtain ⟨content', hcontent', hrefills⟩ := hlowered.filled.touched.refills hnew
    obtain rfl : content = content' := Option.mem_unique hcontent hcontent'
    refine ⟨c, m, old, hc, hm, hr, hreach.1, ?_, ?_⟩
    · rw [hrefills.name.2] at hnamed
      rw [← hnamed]
      cases old <;> cases new <;> first | rfl | exact hmirrors.elim
    · have hparent := (remains_member hs hlowered hd hk hy).2.eq hcontent
      exact name_of_member hs hlowered hr hreach.1 hcontent hparent (hlowered.raised.images hd).1
  · -- a captured value is kept in a field
    obtain ⟨-, -, f, hf⟩ := hlowered.raised.fields hcontext y hcaptured
    obtain ⟨content', hcontent', hrefills⟩ := hlowered.filled.touched.refills hf
    obtain rfl : content = content' := Option.mem_unique hcontent hcontent'
    rw [hrefills.name.2] at hnamed
    cases hnamed

end

/-- The name starts with that of a root of the container, in which something to lift stands. -/
def Titles (P : Program) (c : Char) (container : Option DeclId) (root : DeclId)
    (name : Name) : Prop :=
  ∃ rootDecl, P.decls.get? root = some rootDecl ∧ rootDecl.parent = container
    ∧ P.numbering? root = none
    ∧ P.Carries root ∧ name.StartsWith c rootDecl.name.display

/-- The root can be read off the name. -/
theorem Titles.root_eq (hnames : P.NamesApart settings c) {root' : DeclId} {name : Name}
    (h : Titles P c container root name) (h' : Titles P c container root' name) : root = root' := by
  obtain ⟨rootDecl, hroot, hparent, hnone, hcarries, hstarts⟩ := h
  obtain ⟨rootDecl', hroot', hparent', hnone', hcarries', hstarts'⟩ := h'
  exact hnames.scopes hroot hroot' (hparent.trans hparent'.symm) hcarries hcarries' hnone hnone'
    (hstarts.inj hstarts')

/-- A run that started at `P` has come to `p`: the names that a container lists are apart, and what
it lists was listed before or is called after a root that was lowered. -/
structure Unambiguous (P : Program) (c : Char) (table : Lifted) (p : Program) : Prop where
  continues : Continues P p
  present : ∀ {container ds x}, p.children container = .ok ds → x ∈ ds →
    ∃ content, p.decls.get? x = some content
  differ : ∀ {container ds}, p.children container = .ok ds → p.NamesDiffer ds
  listed : ∀ {container ds ds' x}, P.children container = .ok ds →
    p.children container = .ok ds' → x ∈ ds' →
    x ∈ ds ∨ ∃ root ∈ table.keys, ∃ content, p.decls.get? x = some content
    ∧ Titles P c container root content.name

theorem Unambiguous.start (hclosed : P.Closed) (hnames : P.NamesApart settings c) :
    Unambiguous P c .empty P where
  continues := ⟨relists_of_keeps (.refl _), id⟩
  present hds hx := hclosed.exists_child hds hx
  differ := hnames.children
  listed hds hds' hx := by
    cases hds.symm.trans hds'
    exact .inl hx

/-- What a container lists it listed before, or it is the container of the root and this is a
sibling. -/
theorem Listed.children_cases (h : Listed container root siblings p₁ p₂)
    (hds : p₂.children container' = .ok ds) : ∃ ds₁, p₁.children container' = .ok ds₁
      ∧ ∀ x ∈ ds, x ∈ ds₁ ∨ container' = container ∧ x ∈ siblings := by
  by_cases hc : container' = container
  · subst hc
    obtain ⟨_, children, children', -, hchildren, hinsert, hchildren'⟩ := h.children
    cases hds.symm.trans hchildren'
    exact ⟨children, hchildren,
      fun x hx => ((mem_insertAfter hinsert x).1 hx).imp_right fun hx => ⟨rfl, hx⟩⟩
  · rw [h.children_of_ne hc] at hds
    exact ⟨ds, hds, fun x hx => .inl hx⟩

/-- Listing siblings changes no name. -/
theorem Enlists.exists_same (h : Enlists container siblings p₁ p₂)
    (hx : p₂.decls.get? x = some content) : ∃ a, p₁.decls.get? x = some a ∧ a.name = content.name
      ∧ a.isNamed = content.isNamed := by
  obtain ⟨a, ha, rfl | ⟨-, cls, ms, rfl, rfl, -⟩⟩ := h.decls hx
  · exact ⟨content, ha, rfl, rfl⟩
  · exact ⟨_, ha, rfl, rfl⟩

section

variable {table : Lifted} (h : Unambiguous P c table p) (hs : Start p container root)
  (hlowered : Lowered settings root p siblings site r q S p₁)
include h hs hlowered

/-- When a root has been lowered, and before its siblings are listed, names are apart. -/
theorem Unambiguous.lowered (hds : p₁.children container' = .ok ds) :
    p₁.NamesDiffer ds ∧ ∀ x ∈ ds, ∃ content, p₁.decls.get? x = some content := by
  have hkeeps := hlowered.confined.decls
  refine ⟨?_, ?_⟩
  · intro x hx y hy content hcontent content' hcontent' hnamed hnamed' hname
    rcases hlowered.children_cases hds hx with hold | ⟨k, d, cls, rfl, hd, hk, rfl⟩
    · have hrelists :=
        (h.differ hold).relists (relists_of_keeps hkeeps) fun z hz => h.present hold hz
      exact hrelists x hx y hy content hcontent content' hcontent' hnamed hnamed' hname
    · obtain ⟨c₁, m, old, hc₁, hm, hr, hmem, holdNamed, hmName⟩ :=
        hlowered.member_of_class hs hd hk hx hcontent hnamed
      obtain ⟨c₂, m', old', hc₂, hm', hr', hmem', holdNamed', hmName'⟩ :=
        hlowered.member_of_class hs hd hk hy hcontent' hnamed'
      cases hc₁.symm.trans hc₂
      have hchildren : p.children (some d) = .ok c₁.members := by
        simp only [Program.children, decl_eq_ok.2 hc₁]
        rfl
      obtain rfl := h.differ hchildren m hm m' hm' old hmem old' hmem' holdNamed holdNamed'
        (hmName.symm.trans (hname.trans hmName'))
      exact Option.mem_unique hr hr'
  · intro x hx
    rcases hlowered.children_cases hds hx with hold | ⟨k, d, cls, rfl, hd, hk, rfl⟩
    · obtain ⟨content, hcontent⟩ := h.present hold hx
      exact ⟨content, hkeeps _ _ hcontent⟩
    · obtain ⟨-, content, hcontent, -⟩ := (hlowered.filled.members hd hk x hx).1
      exact ⟨content, hcontent⟩

variable (hP : P.Accounted) (hchains : P.ChainsEnd) (hseparates : settings.SeparatesBy c)
  (hnames : P.NamesApart settings c) {rootDecl : Declaration}
  (hroot : P.decls.get? root = some rootDecl)
include hP hchains hseparates hnames hroot

/-- A sibling is called after the root. -/
theorem Unambiguous.titles_sibling (hx : x ∈ siblings) :
    ∃ content, p₁.decls.get? x = some content ∧ Titles P c container root content.name := by
  obtain ⟨hcarries, content, hcontent, hstarts⟩ :=
    hlowered.startsWith hP hchains h.continues hs hroot hseparates hnames hx
  obtain ⟨rootDecl', hroot', hparent, -⟩ := h.continues.relists.exists_same hroot
  have hcontainer : rootDecl.parent = container := hparent.symm.trans (hs.parent.eq hroot')
  refine ⟨content, hcontent, rootDecl, hroot, hcontainer, ?_, hcarries, hstarts⟩
  -- a container is no body
  unfold Program.numbering?
  rw [hroot, Option.bind_some, hcontainer]
  cases container with
  | none => rfl
  | some k =>
    obtain ⟨-, cls, hcls⟩ := hs.container k rfl
    cases hk : P.decls.get? k with
    | none => simp [hk]
    | some outer =>
      obtain ⟨outer', hk', hcases⟩ := h.continues.relists k outer hk
      obtain rfl : outer' = .cls cls := Option.mem_unique hk' hcls
      have hclass : outer.isClass = true := by
        rcases hcases with rfl | ⟨c₁, ms, rfl, -⟩
        · rfl
        · rfl
      simp [hk, hclass]

variable (hclosed : P.Closed) {ds : List DeclId} (hds : P.children container = .ok ds)
  (hnew : root ∉ table.keys)
include hclosed hds hnew

/-- **What was listed and what is new have different names.** -/
theorem Unambiguous.ne_of_listed {children : List DeclId}
    (hchildren : p.children container = .ok children) (hx : x ∈ children) (hy : y ∈ siblings)
    (hcontent : p₁.decls.get? x = some content) (hcontent' : p₁.decls.get? y = some content') :
    content.name ≠ content'.name := by
  intro hname
  have hkeeps := hlowered.confined.decls
  obtain ⟨b, hb, htitles⟩ := h.titles_sibling hs hlowered hP hchains hseparates hnames hroot hy
  obtain rfl : content' = b := Option.mem_unique hcontent' hb
  obtain ⟨a, ha⟩ := h.present hchildren hx
  obtain rfl : content = a := Option.some.inj (hcontent.symm.trans (hkeeps _ _ ha))
  rcases h.listed hds hchildren hx with hold | ⟨root', hroot', b', hb', htitles'⟩
  · -- declared names do not have the separator in them
    obtain ⟨_, _, _, _, _, hstarts⟩ := htitles
    obtain ⟨old, hx'⟩ := hclosed.exists_child hds hold
    obtain ⟨a', ha', -, haName⟩ := h.continues.relists.exists_same hx'
    obtain rfl : content = a' := Option.mem_unique ha ha'
    rw [← hname, haName] at hstarts
    exact hnames.plain hx' hstarts.mem
  · obtain rfl : content = b' := Option.mem_unique ha hb'
    rw [hname] at htitles'
    exact hnew (Titles.root_eq hnames htitles' htitles ▸ hroot')

/-- Names are apart when the siblings have been listed. -/
theorem Unambiguous.differ_listed (hlisted : Listed container root siblings p₁ p₂)
    (hds' : p₂.children container' = .ok ds') : p₂.NamesDiffer ds' := by
  intro x hx y hy content hcontent content' hcontent' hnamed hnamed' hname
  obtain ⟨a, ha, haName, haNamed⟩ := hlisted.enlists.exists_same hcontent
  obtain ⟨b, hb, hbName, hbNamed⟩ := hlisted.enlists.exists_same hcontent'
  have hsame : a.name = b.name := haName.trans (hname.trans hbName.symm)
  obtain ⟨ds₁, hds₁, hcases⟩ := hlisted.children_cases hds'
  rcases hcases x hx with hx | ⟨rfl, hx⟩ <;> rcases hcases y hy with hy | ⟨hc, hy⟩
  · exact (h.lowered hs hlowered hds₁).1 x hx y hy a ha b hb (haNamed.trans hnamed)
      (hbNamed.trans hnamed') hsame
  · subst hc
    exact absurd hsame
      (h.ne_of_listed hs hlowered hP hchains hseparates hnames hroot hclosed hds hnew
      (hlowered.children_container hs hds₁ hx) hx hy ha hb)
  · exact absurd hsame.symm
      (h.ne_of_listed hs hlowered hP hchains hseparates hnames hroot hclosed hds hnew
      (hlowered.children_container hs hds₁ hy) hy hx hb ha)
  · exact hlowered.eq_of_title hP hchains h.continues hs hroot hseparates hnames hx hy ha hb hsame

omit hclosed hds hnew in
/-- What is listed then was listed before, or is called after a root that was lowered. -/
theorem Unambiguous.titles_listed (hlisted : Listed container root siblings p₁ p₂)
    {ds₀ : List DeclId} (hold : P.children container' = .ok ds₀)
    (hds' : p₂.children container' = .ok ds') (hx : x ∈ ds') :
    x ∈ ds₀ ∨ ∃ root', (root' = root ∨ root' ∈ table.keys)
      ∧ ∃ content, p₂.decls.get? x = some content
      ∧ Titles P c container' root' content.name := by
  obtain ⟨ds₁, hds₁, hcases⟩ := hlisted.children_cases hds'
  rcases hcases x hx with hx | ⟨rfl, hx⟩
  · have hp : p.children container' = .ok ds₁ := by
      rcases hlowered.children_cases hds₁ hx with hp | ⟨k, d, cls, rfl, hd, -⟩
      · exact hp
      · -- a replacement is none of the containers at the start
        obtain ⟨content, hk⟩ : ∃ content, P.decls.get? k = some content := by
          obtain ⟨content, hk, -⟩ := Except.bind_eq_ok.1 hold
          exact ⟨content, decl_eq_ok.1 hk⟩
        have hlt := Nat.lt_of_lt_of_le (Arena.lt_size_of_get? hk) h.continues.relists.size_le
        exact absurd hlt (Nat.not_lt_of_le (hlowered.raised.images hd).1)
    refine (h.listed hold hp hx).imp_right ?_
    rintro ⟨root', hroot', content, hcontent, htitles⟩
    obtain ⟨content', hcontent', -, hname⟩ :=
      hlisted.relists.exists_same (hlowered.confined.decls _ _ hcontent)
    exact ⟨root', .inr hroot', content', hcontent', by rwa [hname]⟩
  · obtain ⟨content, hcontent, htitles⟩ :=
      h.titles_sibling hs hlowered hP hchains hseparates hnames hroot hx
    obtain ⟨content', hcontent', -, hname⟩ := hlisted.relists.exists_same hcontent
    exact .inr ⟨root, .inl rfl, content', hcontent', by rwa [hname]⟩

/-- **One root more.** -/
theorem Unambiguous.step (hlisted : Listed container root siblings p₁ p₂) :
    Unambiguous P c (table.insert root siblings) p₂ where
  continues := by
    have hrelists := (relists_of_keeps hlowered.confined.decls).trans hlisted.relists
    refine ⟨h.continues.relists.trans hrelists, fun hd => ?_⟩
    -- what has a host was there before
    cases remains hs hlowered hlisted.enlists hd with
    | old hold => exact h.continues.hosts hold
  present := by
    intro container' ds' x hds' hx
    obtain ⟨ds₁, hds₁, hcases⟩ := hlisted.children_cases hds'
    have hfound : ∃ content, p₁.decls.get? x = some content := by
      rcases hcases x hx with hx | ⟨-, hx⟩
      · exact (h.lowered hs hlowered hds₁).2 x hx
      · obtain ⟨content, hcontent, -⟩ :=
          h.titles_sibling hs hlowered hP hchains hseparates hnames hroot hx
        exact ⟨content, hcontent⟩
    obtain ⟨content, hcontent⟩ := hfound
    obtain ⟨content', hcontent', -⟩ := hlisted.relists.exists_same hcontent
    exact ⟨content', hcontent'⟩
  differ hds' :=
    h.differ_listed hs hlowered hP hchains hseparates hnames hroot hclosed hds hnew hlisted hds'
  listed := by
    intro container' ds₀ ds' x hold hds' hx
    refine (h.titles_listed hs hlowered hP hchains hseparates hnames hroot hlisted hold
      hds' hx).imp_right ?_
    rintro ⟨root', hroot', htitles⟩
    refine ⟨root', ?_, htitles⟩
    rw [OrderedMap.keys_insert, if_neg hnew, List.mem_append, List.mem_singleton]
    exact hroot'.symm

end

/-! ## §4. A whole run. -/

section

variable {lifted : Lifted} {w : Work} {ds : List DeclId}

/-- What a run has come to, with all that is known of it. -/
structure Names (P : Program) (c : Char) (lifted : Lifted) (p : Program) : Prop where
  run : ∃ slots, Run P slots lifted p
  retains : Retains P p
  unambiguous : Unambiguous P c lifted p

/-- What names need to stay apart. -/
structure Legible (P : Program) (settings : Settings) (c : Char) : Prop where
  closed : P.Closed
  chains : P.ChainsEnd
  accessors : P.AccessorsAreFunctions
  accounted : P.Accounted
  separates : settings.SeparatesBy c
  names : P.NamesApart settings c

/-- **A root** is lowered and listed. -/
theorem lowerListed_names (hP : Legible P settings c) (h : Names P c lifted w.program)
    (hcontainer : P.Contains container) (hds : P.children container = .ok ds)
    (hroot : P.RootIn container root ∧ P.Callable root ∨ w.program.Done root)
    (hin : w.program.RootIn container root) :
    (lowerListed settings container lifted root).Leaves w
      (fun lifted' w' => Names P c lifted' w'.program
        ∧ (∀ x, w.program.RootIn container x → w'.program.RootIn container x)
        ∧ ∀ x, w.program.Done x → w'.program.Done x) fun _ => True := by
  have hcontains := hcontainer.mono h.retains.relists h.retains.declared
  have hnames : (lowerListed settings container lifted root).Leaves w (fun lifted' w' =>
      Unambiguous P c lifted' w'.program) fun _ => True := by
    obtain ⟨slots, hrun⟩ := h.run
    refine (lowerListed_leaves settings container lifted root w).mono ?_
    rintro _ w' (⟨rfl, rfl, -⟩ | ⟨siblings, site, r, q, S, p₁, rfl, hfull, hlowered, hlisted⟩)
    · exact h.unambiguous
    -- a root with tables is not bare, so it was not lowered before
    have hbare := hlowered.not_bare hfull
    obtain ⟨-, rootDecl, hrootDecl, -⟩ := hroot.resolve_right fun hdone => hbare hdone.1
    exact h.unambiguous.step (h.retains.inOrder.start hcontains hin) hlowered hP.accounted
      hP.chains hP.separates hP.names hrootDecl hP.closed hds (hrun.not_mem_keys hbare) hlisted
  refine (((lowerListed_runs h.run hP.closed hroot).and
    (lowerListed_retains h.retains.inOrder hcontains hin lifted)).and hnames).mono ?_
  rintro lifted' w' ⟨⟨⟨hrun, -, hdone⟩, hretains, hkept⟩, hunambiguous⟩
  exact ⟨⟨hrun, h.retains.trans hretains, hunambiguous⟩, hkept, hdone⟩

/-- **The roots of a container** are lowered and listed. -/
theorem lowerContainer_names (hP : Legible P settings c) (h : Names P c lifted w.program)
    (hcontainer : P.Contains container) (hds : P.children container = .ok ds) :
    (lowerContainer settings lifted container).Leaves w
      (fun lifted' w' => Names P c lifted' w'.program) fun _ => True := by
  obtain ⟨slots, hrun⟩ := h.run
  refine .bind (.program (.bind (.ask (fun nested _ => ?_) trivial)))
  split
  · exact .pure h
  refine .bind (.program (.bind (.ask (fun roots hroots => ?_) trivial)))
  refine (Step.Yields.foldlM (fun _ lifted' w' => Names P c lifted' w'.program
    ∧ (∀ x, w.program.RootIn container x → w'.program.RootIn container x) ∧ ∀ x, w.program.Done x →
    w'.program.Done x) ?_
    ⟨h, fun _ => id, fun _ => id⟩).mono fun _ _ h => h.1
  rintro done root rest lifted' w₁ hsplit ⟨hnames, hkept, hdone⟩
  have hin := (mem_roots hroots).1
    (show root ∈ roots from hsplit ▸ List.mem_append_right _ List.mem_cons_self)
  have hcases := hrun.rootIn_cases hP.closed hP.accessors hds hin
  refine (lowerListed_names hP hnames hcontainer hds (hcases.imp id (hdone root))
    (hkept root hin)).mono ?_
  rintro lifted'' w₂ ⟨hnames', hkept', hdone'⟩
  exact ⟨hnames', fun x hx => hkept' x (hkept x hx), fun x hx => hdone' x (hdone x hx)⟩

end

end Lowering

open Lowering

/-- **Names in a container stay apart.**  Whatever the settings, let a run on a program that is
closed and accounted for answer.  If the separator is one character that is in no declared name and
no stem, no declared name is a numbered one, and scopes at the same place in which something to lift
stands have different names, then no container of the program that it leaves lists two functions,
classes or properties of the same name. -/
theorem lower_names_apart (settings : Settings) (w : Work) (c : Char) (hclosed : w.program.Closed)
    (hchains : w.program.ChainsEnd) (haccessors : w.program.AccessorsAreFunctions)
    (haccounted : w.program.Accounted) (hseparates : settings.SeparatesBy c)
    (hnames : w.program.NamesApart settings c) {table : Lifted} {w' : Work}
    (hlower : lower settings w = .ok table w') {container : Option DeclId} {ds : List DeclId}
    (hds : w'.program.children container = .ok ds) : w'.program.NamesDiffer ds := by
  have hlegible : Legible w.program settings c :=
    ⟨hclosed, hchains, haccessors, haccounted, hseparates, hnames⟩
  have hinOrder : w.program.InOrder := by
    refine ⟨haccounted, fun {k x} _ hx a ha => ?_⟩
    obtain ⟨f, hf⟩ := haccessors.function hx ha
    exact ⟨_, hf, rfl⟩
  have hleaves : (lower settings).Leaves w
      (fun table w' => Names w.program c table w'.program) fun _ => True := by
    refine .bind (.program (.bind (.ask (fun cs hcs => ?_) trivial)))
    refine .bind ((Step.Yields.foldlM (fun _ lifted w' => Names w.program c lifted w'.program) ?_
      ⟨⟨_, .start _⟩, .refl hinOrder, .start hclosed hnames⟩).mono fun _ w₁ h => ?_)
    · rintro done container rest lifted w₁ hsplit h
      have hmem : container ∈ cs := hsplit ▸ List.mem_append_right _ List.mem_cons_self
      obtain ⟨ds, hds⟩ := Program.exists_children_of_mem hcs hmem
      exact lowerContainer_names hlegible h (Program.contains_of_mem_containers hcs hmem) hds
    · split
      · exact .bind (.program (.bind (.ask (fun _ _ => .pure h) trivial)))
      · exact .pure h
  unfold Step.Leaves Step.Yields at hleaves
  rw [hlower] at hleaves
  exact hleaves.unambiguous.differ hds

/-! ## §5. Names that are checked. -/

theorem Arena.mem_toList {kind : Entity} {α : Type} {a : Arena kind α} {h : Handle kind} {x : α} :
    (h, x) ∈ a.toList ↔ a.get? h = some x := by
  unfold Arena.toList Arena.get?
  rw [List.mem_mapIdx]
  constructor
  · rintro ⟨i, hi, heq⟩
    cases heq
    simp
  · intro hx
    obtain ⟨hi, hx⟩ := Array.getElem?_eq_some_iff.1 hx
    exact ⟨h.index, by simpa using hi, by simp [hx]⟩

namespace Program

variable {p : Program}

instance (p : Program) (ds : List DeclId) : Decidable (p.NamesDiffer ds) := by
  unfold NamesDiffer
  infer_instance

instance (p : Program) (d : DeclId) : Decidable (p.LiftedOut d) := by
  unfold LiftedOut
  infer_instance

instance (p : Program) (x : DeclId) : Decidable (p.Carries x) :=
  decidable_of_iff (∃ d ∈ p.decls.toList, p.LiftedOut d.1 ∧ ∃ s ∈ p.lineage d.1, s.1 = x) <| by
    constructor
    · rintro ⟨d, -, hd⟩
      exact ⟨d.1, hd⟩
    · rintro ⟨d, hd, hx⟩
      obtain ⟨content, hcontent, -⟩ := id hd
      exact ⟨(d, content), Arena.mem_toList.2 hcontent, hd, hx⟩

instance (p : Program) : Decidable p.ScopesApart :=
  decidable_of_iff
    (∀ x ∈ p.decls.toList, ∀ y ∈ p.decls.toList, x.2.parent = y.2.parent → p.Carries x.1 →
      p.Carries y.1 → p.numbering? x.1 = none → p.numbering? y.1 = none →
      x.2.name.display = y.2.name.display →
      x.1 = y.1) <| by
    constructor
    · intro h x y content content' hx hy
      exact h (x, content) (Arena.mem_toList.2 hx) (y, content') (Arena.mem_toList.2 hy)
    · intro h x hx y hy
      exact h (Arena.mem_toList.1 hx) (Arena.mem_toList.1 hy)

/-- **Declared names that were checked** are plain.  A name that does not start with a stem is no
numbered one. -/
theorem NamesPlain.of_checked {settings : Settings} {c : Char}
    (hplain : ∀ x ∈ p.decls.toList, c ∉ x.2.name.display.toList)
    (hstems : ∀ x ∈ p.decls.toList, ∀ kind ∈ [Numbering.function, .cls],
      ¬ (settings.stem kind).toList <+: x.2.name.display.toList)
    (htop : p.NamesDiffer p.top)
    (hclasses : ∀ x ∈ p.decls.toList, ∀ cls ∈ x.2.cls?, p.NamesDiffer cls.members) :
    p.NamesPlain settings c where
  plain hd := hplain _ (Arena.mem_toList.2 hd)
  unnumbered hd _ kind i hname := by
    refine hstems _ (Arena.mem_toList.2 hd) kind (by cases kind <;> decide) ?_
    rw [hname, Settings.numberedName, String.toList_append, String.toList_append, List.append_assoc]
    exact List.prefix_append _ _
  children := by
    intro container ds hds
    cases container with
    | none =>
      cases hds
      exact htop
    | some k =>
      intro x hx
      obtain ⟨cls, hcls, rfl⟩ := children_some hds hx
      exact hclasses _ (Arena.mem_toList.2 hcls) cls rfl x hx

end Program

/-- A class with a constructor and one more callable, and an anonymous function in the body of each.

    class K { constructor() { fun() {} }; .. }
-/
def Program.twoCallables (second : Declaration) : Program where
  decls := ⟨#[
    .cls { name := .ident "K", parent := none, kind := .plain, visibility := .everywhere,
           this := ⟨0⟩, members := [⟨1⟩, ⟨2⟩], scope := { declared := [⟨1⟩, ⟨2⟩] } },
    .constructor { parent := some ⟨0⟩, isPrimary := true, visibility := .everywhere,
                   body := some ⟨1⟩ },
    second,
    .function { name := .special "anonymous", parent := some ⟨1⟩, visibility := .inBody,
                ret := .unit, body := some ⟨0⟩ },
    .function { name := .special "anonymous", parent := some ⟨2⟩, visibility := .inBody,
                ret := .unit, body := some ⟨2⟩ }]⟩
  values := ⟨#[{ name := .this, ty := .cls ⟨0⟩, owner := ⟨0⟩, kind := .dispatchReceiver },
    { name := .ident "n", ty := .int, owner := ⟨2⟩, kind := .param 0 }]⟩
  exprs := ⟨#[.block [], .decl ⟨3⟩, .block [], .decl ⟨4⟩]⟩
  top := [⟨0⟩]

/-- The other callable is a method. -/
def Program.withMethod : Program := .twoCallables <| .function
  { name := .ident "m", parent := some ⟨0⟩, visibility := .everywhere,
    dispatchReceiver := some ⟨0⟩, params := [⟨1⟩], ret := .unit, body := some ⟨3⟩ }

/-- The other callable is a constructor too. -/
def Program.withConstructors : Program := .twoCallables <| .constructor
  { parent := some ⟨0⟩, isPrimary := false, visibility := .everywhere,
    params := [⟨1⟩], body := some ⟨3⟩ }

/-- The hosts in a class with two callables. -/
def Program.hostsOfCallables : List (Option DeclId × Place) :=
  [(none, .decl ⟨0⟩), (none, .decl ⟨1⟩), (none, .decl ⟨2⟩), (some ⟨1⟩, .decl ⟨3⟩),
    (some ⟨2⟩, .decl ⟨4⟩), (some ⟨1⟩, .expr ⟨1⟩), (some ⟨2⟩, .expr ⟨3⟩), (some ⟨3⟩, .expr ⟨0⟩),
    (some ⟨4⟩, .expr ⟨2⟩)]

theorem Settings.separatesBy_default : ({} : Settings).SeparatesBy '$' where
  separator := rfl
  dash := by decide
  digit := by decide
  stem kind := by cases kind <;> decide
  stems := by decide

/-- A constructor and a method are told apart by their names. -/
theorem lower_names_apart_withMethod : Program.withMethod.ScopesApart
    ∧ ∃ table w, lower {} ⟨.withMethod, []⟩ = .ok table w ∧ w.program.children (some ⟨0⟩) = .ok
    [⟨1⟩, ⟨5⟩, ⟨2⟩, ⟨6⟩]
      ∧ w.program.NamesDiffer [⟨1⟩, ⟨5⟩, ⟨2⟩, ⟨6⟩] := by
  have hhosts : Program.withMethod.AccountsFor Program.hostsOfCallables := by decide +kernel
  have hplain : Program.withMethod.NamesPlain {} '$' :=
    .of_checked (by decide +kernel) (by decide +kernel) (by decide +kernel) (by decide +kernel)
  have hscopes : Program.withMethod.ScopesApart := by decide +kernel
  have hlower : (Step.answer? (lower {}) ⟨.withMethod, []⟩).isSome = true := by decide +kernel
  have hchildren : ((lower {}).after ⟨.withMethod, []⟩).program.children (some ⟨0⟩)
      = .ok [⟨1⟩, ⟨5⟩, ⟨2⟩, ⟨6⟩] := by
    decide +kernel
  obtain ⟨table, hanswer⟩ := Option.isSome_iff_exists.1 hlower
  obtain ⟨w, hw⟩ := Step.answer?_eq_some.1 hanswer
  rw [Step.after_of_ok hw] at hchildren
  exact ⟨hscopes, table, w, hw, hchildren,
    lower_names_apart {} _ '$' (by decide +kernel) (by decide +kernel)
    (by decide +kernel) hhosts.accounted Settings.separatesBy_default
    ⟨hplain, hscopes⟩ hw hchildren⟩

/-- **Constructors share their name**, so two constructors of a class, each with an anonymous
function in its body, get siblings of the same name, although all declared names differ. -/
theorem lower_names_collide : Program.withConstructors.Closed ∧ Program.withConstructors.ChainsEnd
    ∧ Program.withConstructors.Accounted ∧ Settings.SeparatesBy {} '$'
    ∧ Program.withConstructors.NamesPlain {} '$'
    ∧ ∃ table w, lower {} ⟨.withConstructors, []⟩ = .ok table w
      ∧ w.program.children (some ⟨0⟩) = .ok [⟨1⟩, ⟨5⟩, ⟨2⟩, ⟨6⟩] ∧ ¬ w.program.NamesDiffer
    [⟨1⟩, ⟨5⟩, ⟨2⟩, ⟨6⟩] := by
  have hhosts : Program.withConstructors.AccountsFor Program.hostsOfCallables := by decide +kernel
  have hplain : Program.withConstructors.NamesPlain {} '$' :=
    .of_checked (by decide +kernel) (by decide +kernel) (by decide +kernel) (by decide +kernel)
  have hlower : (Step.answer? (lower {}) ⟨.withConstructors, []⟩).isSome = true := by decide +kernel
  have hchildren : ((lower {}).after ⟨.withConstructors, []⟩).program.children (some ⟨0⟩)
      = .ok [⟨1⟩, ⟨5⟩, ⟨2⟩, ⟨6⟩] := by
    decide +kernel
  have hsame : ¬ ((lower {}).after ⟨.withConstructors, []⟩).program.NamesDiffer
      [⟨1⟩, ⟨5⟩, ⟨2⟩, ⟨6⟩] := by decide +kernel
  obtain ⟨table, hanswer⟩ := Option.isSome_iff_exists.1 hlower
  obtain ⟨w, hw⟩ := Step.answer?_eq_some.1 hanswer
  rw [Step.after_of_ok hw] at hchildren hsame
  exact ⟨by decide +kernel, by decide +kernel, hhosts.accounted, Settings.separatesBy_default,
    hplain, table, w, hw, hchildren, hsame⟩

end LambdaLift
