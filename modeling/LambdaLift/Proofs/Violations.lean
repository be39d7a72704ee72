/-
  LambdaLift.Proofs.Violations
  **THE CHECK REPORTS WHAT VIOLATES ITS RULES, IN ORDER.**

  The rules say what may be used where, without a walk: a value may be
  used if it is visible where the code begins, or bound by a node that is
  finished and whose blocks are still open; a declaration may be referred
  to if the module lists it; no declaration may stand in a body.  The
  check first reports what is listed again, then goes through the listed
  declarations in the order of their discovery and through the code of
  each from left to right, and reports every violation and nothing else.

  Main results:
    * `Program.visible_spec` — the values that are visible where code begins;
    * `Program.codeFindings_reports` — the code of one declaration;
    * `check_reports_violations` — a whole program.
-/
import Mathlib
import LambdaLift.Proofs.Discovery
import LambdaLift.Proofs.Visibility

namespace LambdaLift

variable {p : Program} {v : ValueId}

namespace Program

/-! ## §1. The rules. -/

/-- A constructor is the primary one of a class: the first among its members. -/
def PrimaryOf (p : Program) (k m : DeclId) (x : ConstructorDecl) : Prop :=
  ∃ c, p.decls.get? k = some (.cls c) ∧ c.members.find? p.isPrimary = some m
    ∧ p.decls.get? m = some (.constructor x)

/-- **A value is visible where the code of a declaration begins.** -/
inductive VisibleFrom (p : Program) (d : DeclId) : ValueId → Prop
  /-- the receiver of a class that the declaration stands in -/
  | receiver {x : DeclId} {c : ClassDecl} : Relation.ReflTransGen p.Parent d x →
      p.decls.get? x = some (.cls c) →
      VisibleFrom p d c.this
  /-- a receiver or a parameter of the declaration -/
  | own {content : Declaration} {v : ValueId} : p.decls.get? d = some content →
      v ∈ content.dispatchReceiver.toList ++ content.extensionReceiver.toList ++ content.params →
      VisibleFrom p d v
  /-- initializers run as part of the primary constructor of their class -/
  | primary {f : FieldDecl} {k m : DeclId} {x : ConstructorDecl} {v : ValueId} :
      p.decls.get? d = some (.field f) →
      f.parent = some k → p.PrimaryOf k m x → v ∈ x.params → VisibleFrom p d v

/-- The body or the initializer of a declaration as a tree; without one there is nothing. -/
def codeTree (p : Program) (d : DeclId) : Tree :=
  match (p.decls.get? d).bind Declaration.code with
  | some e => p.unfold .body (.expr e)
  | none => .missing

/-- What a spot in the code of a declaration violates. -/
def ViolatesIn (p : Program) (d : DeclId) (s : Spot) (f : Finding) : Prop :=
  Violates p.Declared (fun v => p.VisibleFrom d v ∨ (p.codeTree d).VisibleAt s.path v) d s.node f

/-- The violations in the code of a declaration, from left to right. -/
def ReportsCode (p : Program) (d : DeclId) (fs : List Finding) : Prop :=
  Reports (p.ViolatesIn d) (p.codeTree d).spots fs

/-- **What the check follows is there and does not run in circles:** listed declarations, their
ancestors and their code; and, for fields, the members of their class up to the first primary
constructor. -/
structure Checkable (p : Program) : Prop where
  listed : ∀ {d}, p.Declared d → ∃ content, p.decls.get? d = some content
  ancestors : ∀ {d x}, p.Declared d → Relation.ReflTransGen p.Parent d x →
    (∃ content, p.decls.get? x = some content) ∧ ¬ Relation.TransGen p.Parent x x
  members : ∀ {d f k c before m after}, p.Declared d →
    p.decls.get? d = some (.field f) → f.parent = some k →
    p.decls.get? k = some (.cls c) → c.members = before ++ m :: after →
    (∀ y ∈ before, p.isPrimary y = false) →
    ∃ content, p.decls.get? m = some content
  code : ∀ {d content e}, p.Declared d → p.decls.get? d = some content → content.code = some e →
    p.CompleteAt .body (.expr e) ∧ p.AcyclicAt .body (.expr e)

theorem Closed.exists_listed (hp : p.Closed) {d : DeclId} (hd : p.Declared d) :
    ∃ content, p.decls.get? d = some content := by
  cases hd with
  | top hd => exact Arena.exists_get?_of_lt (hp.2.2.2 _ hd)
  | @listed x _ content _ hx hmem =>
    refine hp.exists_decl hx ?_
    cases content with
    | cls c => simp_all [Declaration.listed, Declaration.namedDecls]
    | property q =>
      simp only [Declaration.listed, List.mem_append] at hmem
      simp only [Declaration.namedDecls, List.mem_append]
      tauto
    | _ => cases hmem

/-- Closed programs without circles can be checked. -/
theorem Closed.checkable (hp : p.Closed) (hchains : p.ChainsEnd) (hacyclic : p.Acyclic) :
    p.Checkable where
  listed := hp.exists_listed
  ancestors hd hx := by
    refine ⟨?_, hchains.acyclic _⟩
    rcases Relation.ReflTransGen.cases_tail hx with rfl | ⟨y, -, content, hy, hparent⟩
    · exact hp.exists_listed hd
    · exact hp.exists_parent hy hparent
  members _ _ _ hk hmembers _ := hp.exists_decl hk (by simp [Declaration.namedDecls, hmembers])
  code _ hd he := by
    obtain ⟨node, hnode⟩ := hp.exists_code hd he
    exact ⟨hp.completeAt ⟨_, label?_eq_expr.2 ⟨rfl, hnode⟩⟩, hacyclic.acyclicAt _ _⟩

/-! ## §2. Where code begins. -/

variable {p : Program} (hp : p.Checkable) {d : DeclId} (hd : p.Declared d)
include hp hd

theorem Checkable.ending : (p.chain d).ending = .atModule :=
  chain_ends (fun _ hx => (hp.ancestors hd hx).1) fun _ hx => (hp.ancestors hd hx).2

/-- The receivers on the chain of a listed declaration are those of the classes around it. -/
theorem Checkable.mem_receivers :
    v ∈ (p.chain d).scopes.filterMap (fun s => s.2.cls?.map (·.this)) ↔
      ∃ x c, Relation.ReflTransGen p.Parent d x ∧ p.decls.get? x = some (.cls c) ∧ c.this = v := by
  simp only [List.mem_filterMap, Option.map_eq_some_iff, Prod.exists]
  constructor
  · rintro ⟨x, content, hmem, c, hc, rfl⟩
    obtain ⟨hx, hcontent⟩ := parents_of_mem_chainFrom hmem
    cases content with
    | cls c' =>
      cases hc
      exact ⟨x, c, hx, hcontent, rfl⟩
    | _ => cases hc
  · rintro ⟨x, c, hx, hcontent, rfl⟩
    obtain ⟨content, hcontent', hmem⟩ := mem_chainFrom (hp.ending hd) hx
    obtain rfl := Option.mem_unique hcontent hcontent'
    exact ⟨x, .cls c, hmem, c, rfl, rfl⟩

/-- The primary constructor that the initializer of a field runs in. -/
theorem Checkable.primary {f : FieldDecl} {k : DeclId} (hf : p.decls.get? d = some (.field f))
    (hparent : f.parent = some k) :
    (p.primaryConstructor? k = .ok none ∧ ∀ m x, ¬ p.PrimaryOf k m x)
      ∨ ∃ m x, p.primaryConstructor? k = .ok (some m) ∧ p.decls.get? m = some (.constructor x)
        ∧ ∀ m' x', p.PrimaryOf k m' x' ↔ m' = m ∧ x' = x := by
  obtain ⟨⟨content, hk⟩, -⟩ := hp.ancestors hd (.single ⟨_, hf, hparent⟩)
  by_cases hc : ∃ c, content = .cls c
  · obtain ⟨c, rfl⟩ := hc
    have hfound : p.primaryConstructor? k = .ok (c.members.find? p.isPrimary) :=
      primaryConstructor?_eq hk fun before m after hsplit hbefore => by
        obtain ⟨content, hm⟩ := hp.members hd hf hparent hk hsplit hbefore
        exact ⟨content, hm, hm⟩
    cases hfind : c.members.find? p.isPrimary with
    | none =>
      refine .inl ⟨hfind ▸ hfound, fun m x ⟨c', hc', hm, _⟩ => ?_⟩
      cases Option.mem_unique hk hc'
      exact absurd (hfind.symm.trans hm) (by simp)
    | some m =>
      obtain ⟨x, hm, -⟩ := isPrimary_iff.1 (List.find?_some hfind)
      refine .inr ⟨m, x, hfind ▸ hfound, hm, fun m' x' => ⟨?_, ?_⟩⟩
      · rintro ⟨c', hc', hm', hx'⟩
        cases Option.mem_unique hk hc'
        obtain rfl := Option.mem_unique hfind hm'
        exact ⟨rfl, by simpa using hx'.symm.trans hm⟩
      · rintro ⟨rfl, rfl⟩
        exact ⟨c, hk, hfind, hm⟩
  · -- what is no class has no members
    refine .inl ⟨?_, fun m x ⟨c, hc', _⟩ => hc ⟨c, Option.mem_unique hk hc'⟩⟩
    unfold primaryConstructor?
    simp only [children, decl_eq_ok.2 hk]
    cases content with
    | cls c => exact absurd ⟨c, rfl⟩ hc
    | _ => rfl

/-- What is visible where the code of a declaration begins, by its content. -/
theorem Checkable.visibleFrom_iff {content : Declaration}
    (hcontent : p.decls.get? d = some content) :
    p.VisibleFrom d v ↔ v ∈ (p.chain d).scopes.filterMap (fun s => s.2.cls?.map (·.this))
      ∨ v ∈ content.dispatchReceiver.toList ++ content.extensionReceiver.toList ++ content.params
      ∨ ∃ f k m x, content = .field f ∧ f.parent = some k ∧ p.PrimaryOf k m x ∧ v ∈ x.params := by
  constructor
  · rintro (⟨hx, hc⟩ | ⟨hown, hv⟩ | ⟨hf, hk, hprimary, hv⟩)
    · exact .inl ((hp.mem_receivers hd).2 ⟨_, _, hx, hc, rfl⟩)
    · obtain rfl := Option.mem_unique hcontent hown
      exact .inr (.inl hv)
    · exact .inr (.inr ⟨_, _, _, _, Option.mem_unique hcontent hf, hk, hprimary, hv⟩)
  · rintro (hv | hv | ⟨f, k, m, x, rfl, hk, hprimary, hv⟩)
    · obtain ⟨x, c, hx, hc, rfl⟩ := (hp.mem_receivers hd).1 hv
      exact .receiver hx hc
    · exact .own hcontent hv
    · exact .primary hcontent hk hprimary hv

/-- **What is visible where code begins.** -/
theorem visible_spec : ∃ scope, p.visible d = .ok scope ∧ ∀ v, v ∈ scope ↔ p.VisibleFrom d v := by
  obtain ⟨content, hcontent⟩ := hp.listed hd
  have hscopes : (p.chain d).toList = .ok (p.chain d).scopes := by
    rw [Chain.toList, hp.ending hd]
    rfl
  have hiff := fun v => hp.visibleFrom_iff hd hcontent (v := v)
  unfold visible
  rw [hscopes, Except.ok_bind, decl_eq_ok.2 hcontent, Except.ok_bind]
  generalize (p.chain d).scopes.filterMap (fun s => s.2.cls?.map (·.this)) = receivers at hiff ⊢
  by_cases hfield : ∃ f k, content = .field f ∧ f.parent = some k
  · -- an initializer sees what the primary constructor of its class takes
    obtain ⟨⟨name, parent, origin, visibility, isFinal, ty, init⟩, k, rfl, hk⟩ := hfield
    obtain rfl : parent = some k := hk
    rcases hp.primary hd hcontent rfl with ⟨hnone, hno⟩ | ⟨m, x, hsome, hm, hprimary⟩
    · refine ⟨receivers, by simp only [hnone]; rfl, fun v => ?_⟩
      simp [hiff, Declaration.dispatchReceiver, Declaration.extensionReceiver,
        Declaration.params, hno]
    · refine ⟨receivers ++ x.params,
        by simp only [hsome, Except.ok_bind, decl_eq_ok.2 hm]; rfl, fun v => ?_⟩
      simp [hiff, Declaration.dispatchReceiver, Declaration.extensionReceiver,
        Declaration.params, hprimary]
  · refine ⟨receivers ++ content.dispatchReceiver.toList ++ content.extensionReceiver.toList
      ++ content.params, ?_, fun v => ?_⟩
    · split
      · exact absurd ⟨_, _, rfl, rfl⟩ hfield
      · rfl
    · rw [hiff, List.append_assoc, List.append_assoc, List.mem_append, ← List.append_assoc]
      refine or_congr_right (or_iff_left ?_).symm
      rintro ⟨f, k, -, -, hf, hk, -⟩
      exact hfield ⟨f, k, hf, hk⟩

/-! ## §3. The code of a declaration, and the whole program. -/

/-- **The findings in the code of a declaration are its violations.** -/
theorem codeFindings_reports {declared : OrderedSet DeclId}
    (hdeclared : ∀ x, x ∈ declared ↔ p.Declared x) :
    ∃ fs, p.codeFindings declared d = .ok fs ∧ p.ReportsCode d fs := by
  obtain ⟨content, hcontent⟩ := hp.listed hd
  obtain ⟨scope, hscope, hvisible⟩ := visible_spec hp hd
  unfold codeFindings
  rw [hscope, Except.ok_bind, decl_eq_ok.2 hcontent, Except.ok_bind]
  cases hcode : content.code with
  | none =>
    have htree : p.codeTree d = .missing := by simp [codeTree, hcontent, hcode]
    refine ⟨[], rfl, ?_⟩
    rw [ReportsCode, htree]
    exact .nil
  | some e =>
    obtain ⟨t, ht⟩ := exists_reads (hp.code hd hcontent hcode).1 (hp.code hd hcontent hcode).2
    have htree : p.codeTree d = t := by
      simp only [codeTree, hcontent, hcode, Option.bind_some]
      exact unfold_of_reads ht
    have hiscode := Tree.isCode_of_reads ht
    refine ⟨t.found declared d scope, ?_, ?_⟩
    · simp only [visit_of_reads _ ht, Tree.visit_code declared d hiscode, Except.ok_bind]
      rfl
    · have := Tree.found_reports hdeclared d hiscode hvisible
      rw [← htree] at this ⊢
      exact this

omit hd

/-- Everything that is found, in order. -/
theorem findings_reports : ∃ ds again fss, p.Discovers [] p.top ds again ∧ ds.Nodup
    ∧ List.Forall₂ p.ReportsCode ds fss
    ∧ p.findings = .ok (again.map .redeclared ++ fss.flatten) := by
  have hthere : ∀ {d}, p.Declared d → d.index < p.decls.size := by
    intro d hd
    obtain ⟨content, hcontent⟩ := hp.listed hd
    exact Arena.lt_size_of_get? hcontent
  obtain ⟨l, again, hl, hdiscovers, hagain⟩ := listing_discovers hthere
  have hdeclared : ∀ x, x ∈ l.declared ↔ p.Declared x := hdiscovers.mem_iff
  have hcodes : ∀ d ∈ l.declared.toList, ∃ fs, p.codeFindings l.declared d = .ok fs
      ∧ p.ReportsCode d fs :=
    fun d hd => codeFindings_reports hp ((hdeclared d).1 hd) hdeclared
  obtain ⟨fss, hfss, hreports⟩ := Except.mapM_eq_ok hcodes
  refine ⟨l.declared.toList, again, fss, hdiscovers, l.declared.nodup, hreports, ?_⟩
  rw [findings, hl, Except.ok_bind, hfss, Except.ok_bind, hagain]
  rfl

end Program

/-- **The check reports exactly the violations of the rules, in order.**  The declarations that the
module lists are discovered depth first, each once; every further listing is reported.  Then come,
declaration by declaration, the violations in its code from left to right.  The check passes iff
there is nothing to report. -/
theorem check_reports_violations {p : Program} (hp : p.Checkable) :
    ∃ ds again fss, p.Discovers [] p.top ds again ∧ ds.Nodup ∧ (∀ d, d ∈ ds ↔ p.Declared d)
      ∧ (p.top ++ ds.flatMap p.listedBy).Perm (ds ++ again) ∧ List.Forall₂ p.ReportsCode ds fss
      ∧ (p.check = .ok () ↔ again = [] ∧ ∀ d, p.Declared d →
        ∀ s ∈ (p.codeTree d).spots, ∀ f, ¬ p.ViolatesIn d s f)
      ∧ (p.check ≠ .ok () →
        p.check = .error (.illFormed (again.map .redeclared ++ fss.flatten))) := by
  obtain ⟨ds, again, fss, hdiscovers, hnodup, hreports, hfindings⟩ := Program.findings_reports hp
  have hcheck : p.check = if (again.map Finding.redeclared ++ fss.flatten).isEmpty then .ok ()
      else .error (.illFormed (again.map .redeclared ++ fss.flatten)) := by
    rw [Program.check, hfindings, Except.ok_bind]
    rfl
  have hnone : fss.flatten = [] ↔ ∀ d, p.Declared d →
      ∀ s ∈ (p.codeTree d).spots, ∀ f, ¬ p.ViolatesIn d s f := by
    rw [List.flatten_eq_nil_iff]
    constructor
    · intro hall d hd s hs f hf
      obtain ⟨fs, hfs, hcode⟩ := forall₂_right hreports ((hdiscovers.mem_iff d).2 hd)
      have := (hcode.mem_iff f).2 ⟨s, hs, hf⟩
      rw [hall fs hfs] at this
      cases this
    · intro hno fs hfs
      obtain ⟨d, hd, hcode⟩ := forall₂_left hreports hfs
      refine List.eq_nil_iff_forall_not_mem.2 fun f hf => ?_
      obtain ⟨s, hs, hviolates⟩ := (hcode.mem_iff f).1 hf
      exact hno d ((hdiscovers.mem_iff d).1 hd) s hs f hviolates
  refine ⟨ds, again, fss, hdiscovers, hnodup, hdiscovers.mem_iff, hdiscovers.perm, hreports, ?_, ?_⟩
  · rw [hcheck, ← hnone]
    split <;> simp_all
  · rw [hcheck]
    split <;> simp

/-- A program that the check has something to say about: a class is listed twice, a variable is read
behind its block, and a function that stands in a body is called.  The initializer of the field is
in order.

    class A(n: Int) { val f = n }; fun g() { { var x; x }; x; h(); fun h() {} }
-/
def Program.flawed : Program where
  decls := ⟨#[.cls { name := .ident "A", parent := none, kind := .plain, visibility := .everywhere,
                     this := ⟨0⟩, members := [⟨1⟩, ⟨2⟩] },
    .field { name := .ident "f", parent := some ⟨0⟩, visibility := .everywhere, isFinal := true,
             ty := .int, init := some ⟨0⟩ },
    .constructor { parent := some ⟨0⟩, isPrimary := true, visibility := .everywhere,
                   params := [⟨1⟩] },
    .function { name := .ident "g", parent := none, visibility := .everywhere, ret := .unit,
                body := some ⟨7⟩ },
    .function { name := .ident "h", parent := some ⟨3⟩, visibility := .inBody, ret := .unit }]⟩
  values := ⟨#[{ name := .this, ty := .cls ⟨0⟩, owner := ⟨0⟩, kind := .dispatchReceiver },
    { name := .ident "n", ty := .int, owner := ⟨2⟩, kind := .param 0 },
    { name := .ident "x", ty := .int, owner := ⟨3⟩, kind := .var true }]⟩
  exprs := ⟨#[.get ⟨1⟩, .var ⟨2⟩ none, .get ⟨2⟩, .block [⟨1⟩, ⟨2⟩], .get ⟨2⟩,
    .access .call { callee := ⟨4⟩ }, .decl ⟨4⟩, .block [⟨3⟩, ⟨4⟩, ⟨5⟩, ⟨6⟩]]⟩
  top := [⟨0⟩, ⟨3⟩, ⟨0⟩]

theorem check_reports_violations_flawed :
    ∃ ds again fss, Program.flawed.Discovers [] Program.flawed.top ds again
      ∧ List.Forall₂ Program.flawed.ReportsCode ds fss
      ∧ again.map .redeclared ++ fss.flatten
        = [.redeclared ⟨0⟩, .outOfScope ⟨2⟩ ⟨3⟩, .undeclared ⟨4⟩ ⟨3⟩, .residual ⟨4⟩ ⟨3⟩] := by
  have hchecked : Program.flawed.check
      = .error (.illFormed [.redeclared ⟨0⟩, .outOfScope ⟨2⟩ ⟨3⟩, .undeclared ⟨4⟩ ⟨3⟩,
      .residual ⟨4⟩ ⟨3⟩]) := by
    decide +kernel
  obtain ⟨ds, again, fss, hdiscovers, -, -, -, hreports, -, hfailed⟩ := check_reports_violations
    (Program.Closed.checkable (p := .flawed) (by decide +kernel) (by decide +kernel)
      (Program.acyclic_of_complete (by decide +kernel)))
  refine ⟨ds, again, fss, hdiscovers, hreports, ?_⟩
  simpa [hchecked] using (hfailed (by rw [hchecked]; simp)).symm

end LambdaLift
