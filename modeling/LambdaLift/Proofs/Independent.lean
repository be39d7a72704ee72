/-
  LambdaLift.Proofs.Independent
  **ROOTS DO NOT AFFECT EACH OTHER.**

  Lowering a root rewrites the expressions below it, moves the owners of
  the variables bound there and adds entries to every arena.  What another
  root is analysed from stays, if nothing is nested in both roots and the
  other one neither reads nor writes a variable that is bound below the
  first.  So its local declarations, their numbers and their order, its
  closures and the names of the lifted declarations are what they were.

  Writes have to be excluded along with reads.  Whether a class captures a
  value is decided by the chain of parents of the owner, and a variable
  whose owner is lifted leaves that chain.

  Main results:
    * `Lowering.agreesIn_of_confined` — what another root sees is still there;
    * `lowerRoot_independent` — collecting, closures and names of another root.
-/
import Mathlib
import LambdaLift.Proofs.Agreement
import LambdaLift.Proofs.Confined

namespace LambdaLift

variable {p : Program} {d : DeclId} {place : Place}

/-! ## §1. Roots that stand apart. -/

namespace Program

variable {p : Program} {root : DeclId}

theorem Follows.encloses {outer inner : Place} (h : p.Follows outer inner) :
    p.Encloses .nested outer inner := by
  obtain ⟨label, hlabel, hmem⟩ := h
  refine ⟨label, hlabel, ?_⟩
  cases label with
  | expr e node => exact hmem
  | decl d content => exact hmem
  | backing d content =>
    cases content <;> simp_all [Label.followed, Label.places, Declaration.parts]

/-- What is reached below a declaration is nested in it. -/
theorem Below.nests (h : p.Below root place) : p.Nests root place := by
  obtain ⟨content, hroot, part, hpart, hreach⟩ := h
  exact .head' ⟨_, label?_eq_decl.2 ⟨rfl, hroot⟩, hpart⟩
    (hreach.lift id fun _ _ => Follows.encloses)

/-- Two roots stand apart: no place is nested in both, and what the second does to values it does
not do to variables that are bound in the first. -/
structure Apart (p : Program) (concerned : Expr → Option ValueId) (a b : DeclId) : Prop where
  places : ∀ place, p.Nests a place → ¬ p.Nests b place
  values : ∀ e node v, p.Nests b (.expr e) → p.exprs.get? e = some node → concerned node = some v →
    ¬ p.Binds (fun e => p.Nests a (.expr e)) v

/-- Places that hold everything nested in a declaration: with each place they hold what is nested
directly in it. -/
def Spans (p : Program) (root : DeclId) (places : List Place) : Prop :=
  ∀ outer ∈ Place.decl root :: places,
    ∀ inner ∈ ((p.label? outer).map (Label.places .nested)).getD [], inner ∈ places

instance (p : Program) (root : DeclId) (places : List Place) : Decidable (p.Spans root places) := by
  unfold Spans
  infer_instance

theorem Nests.mem {places : List Place} (hspans : p.Spans root places) (h : p.Nests root place) :
    place ∈ places := by
  have hstep : ∀ {outer inner}, outer ∈ Place.decl root :: places → p.Encloses .nested outer inner →
      inner ∈ places := by
    rintro outer inner houter ⟨label, hlabel, hmem⟩
    exact hspans outer houter inner (by simpa [hlabel] using hmem)
  induction h with
  | single h => exact hstep List.mem_cons_self h
  | tail _ h ih => exact hstep (List.mem_cons_of_mem _ ih) h

/-- The value that the expression at a place is concerned with. -/
def valueAt (p : Program) (concerned : Expr → Option ValueId) : Place → Option ValueId
  | .expr e => (p.exprs.get? e).bind concerned
  | _ => none

/-- Roots stand apart if places that hold what is nested in them do. -/
theorem Apart.of_spans {concerned : Expr → Option ValueId} {a b : DeclId} (as bs : List Place)
    (ha : p.Spans a as) (hb : p.Spans b bs) (hplaces : ∀ place ∈ as, place ∉ bs)
    (hvalues : ∀ x ∈ as, ∀ y ∈ bs, p.valueAt concerned y ≠ none →
      p.valueAt Expr.bound? x ≠ p.valueAt concerned y) :
    p.Apart concerned a b := by
  refine ⟨fun place hplace hplace' => hplaces place (hplace.mem ha) (hplace'.mem hb),
    fun e node v he hnode hv => ?_⟩
  rintro ⟨x, xnode, hx, hxnode, hbound⟩
  have hy : p.valueAt concerned (.expr e) = some v := by simp [valueAt, hnode, hv]
  have hx' : p.valueAt Expr.bound? (.expr x) = some v := by simp [valueAt, hxnode, hbound]
  exact hvalues _ (hx.mem ha) _ (he.mem hb) (by simp [hy]) (hx'.trans hy.symm)

end Program

namespace Lowering

variable {settings : Settings} {p p' : Program} {a b : DeclId}

/-- **What another root sees is still there.** -/
theorem agreesIn_of_confined (h : p.Confined settings a p') (hapart : p.Apart Expr.used? a b) :
    p.AgreesIn p' b where
  decls := h.decls
  exprs hb he := (h.exprs he).resolve_right fun hbelow => hapart.places _ hbelow.nests hb
  values hused hv := by
    obtain ⟨e, node, hb, hnode, hused⟩ := hused
    refine (h.values hv).resolve_right ?_
    rintro ⟨r, owner, -, -, ⟨x, xnode, hbelow, hx, hbound⟩, -⟩
    exact hapart.values e node _ hb hnode hused ⟨x, xnode, hbelow.nests, hx, hbound⟩
  valueCount := h.values_grow

end Lowering

/-! ## §2. Names. -/

/-- From a program on, a declaration gets this name, whatever else is added. -/
def Lift.NamedFrom (p : Program) (site : Site) (d : DeclId) (name : Name) : Prop :=
  ∀ (p₁ : Program) (reports : List Event), p.decls.Keeps p₁.decls →
    Lift.liftedName site d ⟨p₁, reports⟩ = .ok name ⟨p₁, reports⟩

theorem Lift.namedFrom {site : Site} {rootContent : Declaration}
    (hroot : p.decls.get? site.root = some rootContent) (hend : (p.chain d).ending = .atModule) :
    Lift.NamedFrom p site d
      (.ident (String.intercalate site.settings.separator (site.parts p d))) := by
  intro p₁ reports hkeeps
  have hdestination : site.destination p = rootContent.parent := by
    unfold Site.destination
    rw [hroot]
    rfl
  have hdest : Lift.destination site ⟨p₁, reports⟩ = .ok (site.destination p) ⟨p₁, reports⟩ := by
    rw [hdestination]
    exact Step.liftExcept_eq (Program.parent_of_get? (hkeeps _ _ hroot))
  have hchain : p₁.chain d = p.chain d :=
    Program.chainFrom_of_keeps hkeeps (Nat.succ_le_succ hkeeps.size_le) hend
  unfold Lift.liftedName
  rw [Step.bind_eq hdest, Step.bind_eq Step.program_eq, hchain,
    Step.bind_eq (Step.liftExcept_eq (Program.Chain.before_eq hend _)), Site.parts, Program.lineage,
    List.takeWhile_map, List.map_map]
  rfl

theorem Lift.exists_namedFrom (hchains : p.ChainsEnd) (site : Site)
    (hroot : ∃ content, p.decls.get? site.root = some content) {content : Declaration}
    (hd : p.decls.get? d = some content) : ∃ name, Lift.NamedFrom p site d name := by
  obtain ⟨rootContent, hroot⟩ := hroot
  exact ⟨_, Lift.namedFrom hroot (hchains.ending hd)⟩

/-! ## §3. Independence. -/

open Lowering

/-- **Lowering a root leaves the analysis of another as it was**, whatever it answers: collecting
and closure analysis give the same results, reports and faults included, and the declarations get
the same names. -/
theorem lowerRoot_independent (settings : Settings) {p : Program} (hp : p.Closed)
    (hchains : p.ChainsEnd) {a b : DeclId} {content : Declaration}
    (hb : p.decls.get? b = some content) (hacyclic : p.AcyclicAt .nested (.decl b))
    (hapart : p.Apart Expr.used? a b) (reports : List Event) :
    ((lowerRoot settings a).after ⟨p, reports⟩).program.locals b = p.locals b
      ∧ ((lowerRoot settings a).after ⟨p, reports⟩).program.closures b = p.closures b
      ∧ ∀ site : Site, site.root = b → ∀ d content, p.decls.get? d = some content →
        ∃ name, Lift.NamedFrom p site d name
          ∧ Lift.NamedFrom ((lowerRoot settings a).after ⟨p, reports⟩).program site d name := by
  obtain ⟨hconfined, -⟩ := (lowerRoot_frame settings a ⟨p, reports⟩).after
  have hagrees := agreesIn_of_confined hconfined hapart
  refine ⟨(Program.locals_alike hp hb hacyclic hagrees).eq.symm,
    (Program.closures_alike hp hchains hb hacyclic hagrees).eq.symm, ?_⟩
  rintro site rfl d dcontent hd
  obtain ⟨name, hname⟩ := Lift.exists_namedFrom hchains site ⟨content, hb⟩ hd
  exact ⟨name, hname, fun p₁ reports hkeeps => hname p₁ reports (hagrees.decls.trans hkeeps)⟩

/-- Two functions, each with a local function that reads a parameter of the function around it; the
first local function binds a variable.

    fun f(n: Int) { fun g() { val x = n }; g() }; fun h(m: Int) { fun k() { m }; k() }
-/
def Program.twoRoots : Program where
  decls := ⟨#[.function { name := .ident "f", parent := none, visibility := .everywhere,
                          params := [⟨0⟩], ret := .unit, body := some ⟨4⟩ },
    .function { name := .ident "g", parent := some ⟨0⟩, visibility := .inBody, ret := .unit,
                body := some ⟨1⟩ },
    .function { name := .ident "h", parent := none, visibility := .everywhere, params := [⟨1⟩],
                ret := .unit, body := some ⟨8⟩ },
    .function { name := .ident "k", parent := some ⟨2⟩, visibility := .inBody, ret := .unit,
                body := some ⟨5⟩ }]⟩
  values := ⟨#[{ name := .ident "n", ty := .int, owner := ⟨0⟩, kind := .param 0 },
    { name := .ident "m", ty := .int, owner := ⟨2⟩, kind := .param 0 },
    { name := .ident "x", ty := .int, owner := ⟨1⟩, kind := .var false }]⟩
  exprs :=
    ⟨#[.get ⟨0⟩, .var ⟨2⟩ (some ⟨0⟩), .decl ⟨1⟩, .access .call { callee := ⟨1⟩ }, .block [⟨2⟩, ⟨3⟩],
      .get ⟨1⟩, .decl ⟨3⟩, .access .call { callee := ⟨3⟩ }, .block [⟨6⟩, ⟨7⟩]]⟩
  top := [⟨0⟩, ⟨2⟩]

/-- The first function is lowered, which adds a declaration and moves the owner of its variable. -/
theorem lowerRoot_independent_twoRoots :
    ((lowerRoot {} ⟨0⟩).after ⟨.twoRoots, []⟩).program.owner ⟨2⟩ = .ok ⟨4⟩
      ∧ ((lowerRoot {} ⟨0⟩).after ⟨.twoRoots, []⟩).program.locals ⟨2⟩ = Program.twoRoots.locals ⟨2⟩
      ∧ ((lowerRoot {} ⟨0⟩).after ⟨.twoRoots, []⟩).program.closures ⟨2⟩
        = Program.twoRoots.closures ⟨2⟩ := by
  have hcomplete : (Program.twoRoots.unfoldUpTo .nested 10 (.decl ⟨2⟩)).complete
      = true := by decide +kernel
  have hapart : Program.twoRoots.Apart Expr.used? ⟨0⟩ ⟨2⟩ := .of_spans
    [.decl ⟨1⟩, .expr ⟨0⟩, .expr ⟨1⟩, .expr ⟨2⟩, .expr ⟨3⟩, .expr ⟨4⟩]
    [.decl ⟨3⟩, .expr ⟨5⟩, .expr ⟨6⟩, .expr ⟨7⟩, .expr ⟨8⟩]
    (by decide +kernel) (by decide +kernel) (by decide +kernel) (by decide +kernel)
  obtain ⟨hlocals, hclosures, -⟩ :=
    lowerRoot_independent {} (p := .twoRoots) (by decide +kernel) (by decide +kernel) rfl
    (Program.acyclicAt_of_complete hcomplete) hapart []
  exact ⟨by decide +kernel, hlocals, hclosures⟩

/-! ## §4. Writes. -/

/-- The value that a node reads. -/
def Expr.read? : Expr → Option ValueId
  | .get v => some v
  | _ => none

/-- A local function of one function names a method as its parent that stands in a class of the
other, and an initializer of that class writes the variable of the local function.

    fun a() { fun x() { var v } }; fun b() { class C { fun m(); val f = (v = 1) } }
-/
def Program.entangled : Program where
  decls := ⟨#[.function { name := .ident "a", parent := none, visibility := .everywhere,
                          ret := .unit, body := some ⟨3⟩ },
    .function { name := .ident "b", parent := none, visibility := .everywhere, ret := .unit,
                body := some ⟨4⟩ },
    .cls { name := .ident "C", parent := some ⟨1⟩, kind := .plain, visibility := .inBody,
           this := ⟨0⟩, members := [⟨3⟩, ⟨5⟩], scope := { declared := [⟨3⟩] } },
    .function { name := .ident "m", parent := some ⟨2⟩, visibility := .everywhere,
                dispatchReceiver := some ⟨0⟩, ret := .unit },
    .function { name := .ident "x", parent := some ⟨3⟩, visibility := .inBody, ret := .unit,
                body := some ⟨2⟩ },
    .field { name := .ident "f", parent := some ⟨2⟩, visibility := .inContainer, isFinal := true,
             ty := .unit, init := some ⟨1⟩ }]⟩
  values := ⟨#[{ name := .this, ty := .cls ⟨2⟩, owner := ⟨2⟩, kind := .dispatchReceiver },
    { name := .ident "v", ty := .int, owner := ⟨4⟩, kind := .var true }]⟩
  exprs := ⟨#[.lit (.int 1), .set ⟨1⟩ ⟨0⟩, .var ⟨1⟩ none, .decl ⟨4⟩, .decl ⟨2⟩]⟩
  top := [⟨0⟩, ⟨1⟩]

/-- **A write is enough to see the other root.**  The variable belongs to the class as long as its
owner names a method of the class as its parent.  Once the owner is lifted the class captures it. -/
theorem closures_not_independent_of_writes :
    Program.entangled.Closed ∧ Program.entangled.ChainsEnd ∧ Program.entangled.Acyclic
      ∧ Program.entangled.Apart Expr.read? ⟨0⟩ ⟨1⟩
      ∧ ((lowerRoot {} ⟨0⟩).after ⟨.entangled, []⟩).program.closures ⟨1⟩
        ≠ Program.entangled.closures ⟨1⟩ := by
  refine ⟨by decide +kernel, by decide +kernel,
    Program.acyclic_of_complete (by decide +kernel), ?_, ?_⟩
  · exact .of_spans [.decl ⟨4⟩, .expr ⟨2⟩, .expr ⟨3⟩]
      [.decl ⟨2⟩, .decl ⟨3⟩, .decl ⟨5⟩, .expr ⟨0⟩, .expr ⟨1⟩, .expr ⟨4⟩]
      (by decide +kernel) (by decide +kernel) (by decide +kernel) (by decide +kernel)
  · intro heq
    have hbefore : (Program.entangled.closures ⟨1⟩).toOption.map
        (fun r => (r.1.get? ⟨2⟩).map OrderedSet.toList)
        = some (some []) := by decide +kernel
    have hafter : (((lowerRoot {} ⟨0⟩).after ⟨.entangled, []⟩).program.closures ⟨1⟩).toOption.map
        (fun r => (r.1.get? ⟨2⟩).map OrderedSet.toList) = some (some [⟨1⟩]) := by decide +kernel
    rw [heq, hbefore] at hafter
    cases hafter

end LambdaLift
