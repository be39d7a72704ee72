/-
  LambdaLift.Proofs.Correspondence
  **HOW PARAMETERS, RECEIVERS AND FIELDS OF REPLACEMENTS CORRESPOND.**

  A lifted function takes the values it captured, in the order of its
  closure, and then counterparts of its own parameters; a constructor does
  so with what its class captured.  A lifted class has one field for each
  captured value.  Methods and accessors correspond parameter by parameter
  and are called on the receiver of the lifted class.  All of them share
  one table of counterparts, which is read in both directions.

  Main results:
    * `Signs.passes_each` — parameters, position by position;
    * `Ledger.cls`, `Ledger.method` — lifted classes and their members;
    * `relocation_corresponds` — what is recorded for a whole root.
-/
import Mathlib
import LambdaLift.Sample
import LambdaLift.Proofs.Ledger
import LambdaLift.Proofs.Substituted

namespace LambdaLift

variable {v : ValueId} {old params : List ValueId} {kind : ValueKind}

/-! ## §1. Position by position. -/

/-- Elements at the same position of related lists are related. -/
theorem getElem?_of_forall₂_zipIdx {R : ValueId × Nat → ValueId → Prop} {vs xs : List ValueId}
    {start : Nat} (h : List.Forall₂ R (vs.zipIdx start) xs) (i : Nat) :
    Option.Rel (fun v x => R (v, start + i) x) vs[i]? xs[i]? := by
  induction vs generalizing xs start i with
  | nil =>
    cases h
    exact .none
  | cons v vs ih =>
    cases h with
    | @cons _ x _ xs hx hxs =>
      cases i with
      | zero => exact .some hx
      | succ i =>
        have hrest := ih hxs i
        rw [show start + 1 + i = start + (i + 1) by omega] at hrest
        simpa using hrest

/-- A table made from two lists holds the pairs at the same positions. -/
theorem OrderedMap.get?_ofList_zip_of_getElem? {κ α : Type} [DecidableEq κ] {ks : List κ}
    {as : List α} (hks : ks.Nodup) (hlength : ks.length = as.length) {i : Nat} {k : κ} {a : α}
    (hk : ks[i]? = some k) (ha : as[i]? = some a) :
    (OrderedMap.ofList (ks.zip as)).get? k = some a := by
  rw [get?_eq_some_iff, entries_ofList_zip hks hlength]
  refine List.mem_of_getElem? (i := i) ?_
  rw [List.getElem?_zip_eq_some]
  exact ⟨hk, ha⟩

/-- Two values have the same name and the same type. -/
def Program.Alike (p : Program) (v x : ValueId) : Prop :=
  ∃ a b, p.values.get? v = some a ∧ p.values.get? x = some b ∧ b.name = a.name ∧ b.ty = a.ty

/-- One value is the counterpart of the other, with the same name and type. -/
structure Paired (r : Relocation) (p : Program) (v x : ValueId) : Prop where
  forth : r.values.forth? v = some x
  back : r.values.back? x = some v
  alike : p.Alike v x

/-- **The parameters of the replacement `new` of `d`**: first one for each captured value, which
carries it and from which it is read, then the counterparts of the old ones.  Each belongs to the
replacement at its position. -/
structure Passing (r : Relocation) (p : Program) (d new : DeclId)
    (captured old params : List ValueId) : Prop where
  length : params.length = captured.length + old.length
  carries : ∀ {i : Nat} {v}, captured[i]? = some v → ∃ x context, params[i]? = some x
    ∧ r.carried.get? x = some v
    ∧ r.values.back? x = none
    ∧ (∃ a b, p.values.get? v = some a ∧ p.values.get? x = some b ∧ b.ty = a.ty)
    ∧ r.contexts.get? d = some context ∧ context.carrier? v = some (.param x)
  copies : ∀ {j : Nat} {v}, old[j]? = some v →
    ∃ x, params[captured.length + j]? = some x ∧ Paired r p v x
  numbered : ∀ {i : Nat} {x}, params[i]? = some x → p.ValueIs x new (.param i)

section

variable {p₀ p : Program} {site : Site} {settings : Settings} {n : Nat}
  {r : Relocation} {d new : DeclId}

theorem Links.paired {x : ValueId} (h : Links r p new kind v x) (hbooks : Books p₀ site n r p) :
    Paired r p v x := by
  obtain ⟨hforth, value, hv, hx⟩ := h
  exact ⟨hforth, hbooks.inverse.1 hforth, value, _, hv, hx, rfl, rfl⟩

theorem Links.valueIs {x : ValueId} (h : Links r p new kind v x) : p.ValueIs x new kind := by
  obtain ⟨-, value, -, hx⟩ := h
  exact ⟨_, hx, rfl, rfl⟩

/-- **A signature, position by position.** -/
theorem Signs.passes_each {closure : Closure} (hbooks : Books p₀ site n r p)
    (h : Signs settings r p d new closure.toList old params) :
    Passing r p d new closure.toList old params := by
  obtain ⟨caps, copies, rfl, hcaps, hcopies, hcontext⟩ := h
  have hlength : closure.toList.length = caps.length := by simpa using hcaps.length_eq
  have hlength' : old.length = copies.length := by simpa using hcopies.length_eq
  refine ⟨by simp [hlength, hlength'], fun {i v} hv => ?_, fun {j v} hv => ?_, fun {i x} hx => ?_⟩
  · have hrel := getElem?_of_forall₂_zipIdx hcaps i
    rw [hv] at hrel
    generalize hx : caps[i]? = x? at hrel
    obtain ⟨⟨hcarried, value, hvalue, hxvalue⟩⟩ := hrel
    refine ⟨_, _, ?_, hcarried, (hbooks.carried hcarried).2.2.1,
      ⟨value, _, hvalue, hxvalue, rfl⟩, hcontext, ?_⟩
    · rw [List.getElem?_append_left (List.getElem?_eq_some_iff.1 hx).1, hx]
    · exact Option.map_eq_some_iff.2
        ⟨_, OrderedMap.get?_ofList_zip_of_getElem? closure.nodup hlength hv hx, rfl⟩
  · have hrel := getElem?_of_forall₂_zipIdx hcopies j
    rw [hv] at hrel
    generalize hx : copies[j]? = x? at hrel
    obtain ⟨hlinks⟩ := hrel
    refine ⟨_, ?_, hlinks.paired hbooks⟩
    rw [hlength, List.getElem?_append_right (Nat.le_add_right _ _), Nat.add_sub_cancel_left, hx]
  · rcases Nat.lt_or_ge i caps.length with hi | hi
    · rw [List.getElem?_append_left hi] at hx
      have hrel := getElem?_of_forall₂_zipIdx hcaps i
      rw [hx] at hrel
      generalize closure.toList[i]? = v? at hrel
      obtain ⟨⟨-, value, -, hxvalue⟩⟩ := hrel
      rw [Nat.zero_add] at hxvalue
      exact ⟨_, hxvalue, rfl, rfl⟩
    · rw [List.getElem?_append_right hi] at hx
      have hrel := getElem?_of_forall₂_zipIdx hcopies (i - caps.length)
      rw [hx] at hrel
      generalize old[i - caps.length]? = v? at hrel
      obtain ⟨hlinks⟩ := hrel
      have hvalue := hlinks.valueIs
      rwa [hlength, Nat.add_sub_cancel' hi] at hvalue

/-- **Parameters that correspond one to one**: nothing is captured. -/
theorem passing_of_links (hbooks : Books p₀ site n r p)
    (h : List.Forall₂ (fun a => Links r p new (.param a.2) a.1) old.zipIdx params) :
    Passing r p d new [] old params := by
  refine ⟨by simpa using h.length_eq.symm, fun hv => by simp at hv,
    fun {j v} hv => ?_, fun {i x} hx => ?_⟩
  · have hrel := getElem?_of_forall₂_zipIdx h j
    rw [hv] at hrel
    generalize hx : params[j]? = x? at hrel
    obtain ⟨hlinks⟩ := hrel
    exact ⟨_, by simpa using hx, hlinks.paired hbooks⟩
  · have hrel := getElem?_of_forall₂_zipIdx h i
    rw [hx] at hrel
    generalize old[i]? = v? at hrel
    obtain ⟨hlinks⟩ := hrel
    have hvalue := hlinks.valueIs
    rwa [Nat.zero_add] at hvalue

end

/-! ## §2. What is recorded for a root. -/

/-- **What a lifted class keeps its captured values in**: one new field for each value of the
closure, in its order, that nobody outside can name or write. -/
structure Storing (p₀ : Program) (r : Relocation) (p : Program) (new : DeclId)
    (closure : List ValueId) (captured : OrderedMap ValueId DeclId) : Prop where
  keys : captured.keys = closure
  distinct : captured.values.Nodup
  fresh : ∀ f ∈ captured.values, p₀.decls.size ≤ f.index ∧ ∀ d, r.get? d ≠ some f
  typed : ∀ {v f}, captured.get? v = some f → ∃ value content, p.values.get? v = some value
    ∧ p.decls.get? f = some (.field content) ∧ content.parent = some new
    ∧ content.origin = .captured
    ∧ content.visibility = .inContainer ∧ content.isFinal = true ∧ content.ty = value.ty

/-- **How replacements correspond to what they replace.** -/
structure Corresponds (p₀ : Program) (site : Site) (r : Relocation) (p : Program) : Prop where
  fresh : ∀ {d x}, r.get? d = some x → p₀.decls.size ≤ x.index ∧ x.index < p.decls.size
  injective : ∀ {d d' x}, r.get? d = some x → r.get? d' = some x → d = d'
  inverse : ∀ {v x}, r.values.forth? v = some x ↔ r.values.back? x = some v
  carried : ∀ {x v}, r.carried.get? x = some v → r.values.back? x = none
  functions : ∀ d ∈ site.locals.functions.keys, ∃ f closure new g,
    p₀.decls.get? d = some (.function f)
    ∧ site.closures.get? d = some closure ∧ r.get? d = some new
    ∧ p.decls.get? new = some (.function g)
    ∧ Passing r p d new closure.toList f.params g.params
    ∧ Option.Rel (Paired r p) f.extensionReceiver g.extensionReceiver
  constructors : ∀ d ∈ site.locals.constructors, ∃ c k closure new c',
    p₀.decls.get? d = some (.constructor c)
    ∧ c.parent = some k ∧ k ∈ site.locals.classes.keys ∧ site.closures.get? k = some closure
    ∧ r.get? d = some new
    ∧ p.decls.get? new = some (.constructor c')
    ∧ Passing r p d new closure.toList c.params c'.params
    ∧ Option.Rel (Paired r p) c.dispatchReceiver c'.dispatchReceiver
  classes : ∀ k ∈ site.locals.classes.keys, ∃ c closure new c' captured,
    p₀.decls.get? k = some (.cls c)
    ∧ site.closures.get? k = some closure ∧ r.get? k = some new ∧ p.decls.get? new = some (.cls c')
    ∧ r.contexts.get? k = some (.fields c'.this captured) ∧ r.values.forth? c.this = some c'.this
    ∧ p.ValueIs c'.this new .dispatchReceiver ∧ Storing p₀ r p new closure.toList captured
  methods : ∀ {d x f}, r.get? d = some x → p₀.decls.get? d = some (.function f) →
    d ∉ site.locals.functions.keys →
    ∃ g k c new c', p.decls.get? x = some (.function g) ∧ k ∈ site.locals.classes.keys
      ∧ p₀.decls.get? k = some (.cls c) ∧ r.get? k = some new ∧ p.decls.get? new = some (.cls c')
      ∧ g.parent = some new ∧ f.dispatchReceiver = some c.this ∧ g.dispatchReceiver = some c'.this
      ∧ Passing r p d x [] f.params g.params
      ∧ Option.Rel (Paired r p) f.extensionReceiver g.extensionReceiver

section

variable {p₀ p : Program} {site : Site} {r : Relocation} {d x : DeclId}
  (h : Ledger p₀ site none r p)

include h

theorem Ledger.paired {v? x? : Option ValueId} (hrel : Option.Rel (Links r p x kind) v? x?) :
    Option.Rel (Paired r p) v? x? :=
  optionRel_mono hrel fun _ _ hlinks => hlinks.paired h.toBooks

theorem Ledger.function {f : FunctionDecl} (hd : d ∈ site.locals.functions.keys)
    (hx : r.get? d = some x) (hf : p₀.decls.get? d = some (.function f)) :
    ∃ closure g, site.closures.get? d = some closure
      ∧ p.decls.get? x = some (.function g) ∧ Passing r p d x closure.toList f.params g.params
      ∧ Option.Rel (Paired r p) f.extensionReceiver g.extensionReceiver := by
  obtain ⟨content, hcontent, hrenews⟩ := h.renews hx hf
  generalize herase : content.erase = g' at hrenews
  cases hrenews with
  | function _ hclosure _ _ hext hsigns =>
    obtain ⟨overrides, rfl⟩ := Declaration.eq_function_of_erase herase
    exact ⟨_, _, hclosure, hcontent, hsigns.passes_each h.toBooks, h.paired hext⟩
  | method hnot => exact absurd hd hnot

theorem Ledger.constructor {c : ConstructorDecl} (hx : r.get? d = some x)
    (hc : p₀.decls.get? d = some (.constructor c)) : ∃ k closure c', c.parent = some k
      ∧ k ∈ site.locals.classes.keys ∧ site.closures.get? k = some closure
      ∧ p.decls.get? x = some (.constructor c')
      ∧ Passing r p d x closure.toList c.params c'.params
      ∧ Option.Rel (Paired r p) c.dispatchReceiver c'.dispatchReceiver := by
  obtain ⟨content, hcontent, hrenews⟩ := h.renews hx hc
  generalize herase : content.erase = c' at hrenews
  cases hrenews with
  | constructor hk hlisted _ hclosure hdispatch hsigns =>
    obtain rfl := Declaration.eq_constructor_of_erase herase
    exact ⟨_, _, _, hk, hlisted, hclosure, hcontent,
      hsigns.passes_each h.toBooks, h.paired hdispatch⟩

/-- **A lifted class and its context.** -/
theorem Ledger.cls {c : ClassDecl} (hraised : Raised p₀ site r p) (hx : r.get? d = some x)
    (hc : p₀.decls.get? d = some (.cls c)) :
    ∃ closure c' captured, site.closures.get? d = some closure
      ∧ p.decls.get? x = some (.cls c') ∧ r.contexts.get? d = some (.fields c'.this captured)
      ∧ r.values.forth? c.this = some c'.this ∧ p.ValueIs c'.this x .dispatchReceiver
      ∧ Storing p₀ r p x closure.toList captured := by
  obtain ⟨content, hcontent, hrenews⟩ := h.renews hx hc
  generalize herase : content.erase = c' at hrenews
  cases hrenews with
  | @cls _ closure _ this fields _ hclosure _ hforth howned hfields hnodup hnew hcontext =>
    obtain ⟨scope, rfl⟩ := Declaration.eq_cls_of_erase herase
    have hlength := hfields.length_eq
    have hvalues := OrderedMap.values_ofList_zip closure.nodup hlength
    refine ⟨closure, _, _, hclosure, hcontent, hcontext, hforth, howned, ?_⟩
    refine ⟨OrderedMap.keys_ofList_zip closure.nodup hlength, ?_,
      fun f hf => ?_, fun {v f} hf => ?_⟩
    · rw [hvalues]
      exact hnodup
    · exact ⟨hnew f (hvalues ▸ hf), (hraised.fields hcontext f hf).1⟩
    · have hentry := OrderedMap.get?_eq_some_iff.1 hf
      rw [OrderedMap.entries_ofList_zip closure.nodup hlength] at hentry
      obtain ⟨value, hvalue, hfield⟩ := (List.forall₂_iff_zip.1 hfields).2 hentry
      exact ⟨value, _, hvalue, hfield, rfl, rfl, rfl, rfl, rfl⟩

/-- **A lifted method or accessor** is called on the receiver of the lifted class. -/
theorem Ledger.method {f : FunctionDecl} (hraised : Raised p₀ site r p) (hx : r.get? d = some x)
    (hf : p₀.decls.get? d = some (.function f)) (hd : d ∉ site.locals.functions.keys) :
    ∃ g k c new c', p.decls.get? x = some (.function g) ∧ k ∈ site.locals.classes.keys
      ∧ p₀.decls.get? k = some (.cls c) ∧ r.get? k = some new ∧ p.decls.get? new = some (.cls c')
      ∧ g.parent = some new ∧ f.dispatchReceiver = some c.this ∧ g.dispatchReceiver = some c'.this
      ∧ Passing r p d x [] f.params g.params
      ∧ Option.Rel (Paired r p) f.extensionReceiver g.extensionReceiver := by
  obtain ⟨content, hcontent, hrenews⟩ := h.renews hx hf
  generalize herase : content.erase = g' at hrenews
  cases hrenews with
  | function hlisted => exact absurd hlisted hd
  | method _ hlodges hdispatch hext hparams =>
    obtain ⟨overrides, rfl⟩ := Declaration.eq_function_of_erase herase
    -- the class has one receiver, whichever of its members asks
    obtain ⟨_, c', _, _, hc', _, hthis, _⟩ := h.cls hraised hlodges.new hlodges.old
    cases hlodges.forth.symm.trans hthis
    exact ⟨_, _, _, _, c', hcontent, hlodges.listed, hlodges.old, hlodges.new, hc', rfl, hdispatch,
      rfl, passing_of_links h.toBooks hparams, h.paired hext⟩

end

/-- **The replacements of a root correspond to what they replace**: whenever all signatures are
built, whatever has been listed as captured, the records are one to one, and every function,
constructor, class and member passes and keeps what it should. -/
theorem relocation_corresponds {p q : Program} {settings : Settings} {root : DeclId} {l : Locals}
    {closures : Closures} {r : Relocation} {events events' : List Event}
    (hlocals : p.locals root = .ok l)
    (hrelocation : Lift.relocation ⟨settings, root, l, closures⟩ ⟨p, events⟩ = .ok r ⟨q, events'⟩) :
    Corresponds p ⟨settings, root, l, closures⟩ r q := by
  obtain ⟨hsorted, -⟩ := Program.locals_spec hlocals
  have hraised := raised_of_relocation hlocals hrelocation
  obtain ⟨h, hcovers⟩ := ledger_of_relocation hlocals hrelocation
  have hlifted :=
    hcovers.isSome_of_lifted hsorted fun d hd => List.mem_append_left _ (List.mem_append_left _ hd)
  refine ⟨h.images, h.injective, h.inverse, fun hx => (h.carried hx).2.2.1, fun d hd => ?_,
    fun d hd => ?_, fun k hk => ?_, fun hx hf hd => h.method hraised hx hf hd⟩
  · obtain ⟨-, -, f, hf⟩ := (hsorted.functions d).1 hd
    obtain ⟨x, hx⟩ := Option.isSome_iff_exists.1 (hlifted d (List.mem_append_left _ hd))
    obtain ⟨closure, g, hclosure, hg, hpassing⟩ := h.function hd hx hf
    exact ⟨f, closure, x, g, hf, hclosure, hx, hg, hpassing⟩
  · obtain ⟨-, c, hc⟩ := (hsorted.constructors d).1 hd
    have hbrought := Program.brought_eq_self hc (by rintro q ⟨⟩) (by rintro f ⟨⟩)
    obtain ⟨x, hx⟩ := Option.isSome_iff_exists.1
      ((hcovers d).2 ⟨d, by simp [Locals.tables, hd], by simp [hbrought]⟩)
    obtain ⟨k, closure, c', hk, hlisted, hclosure, hc', hpassing⟩ := h.constructor hx hc
    exact ⟨c, k, closure, x, c', hc, hk, hlisted, hclosure, hx, hc', hpassing⟩
  · obtain ⟨-, -, c, hc⟩ := (hsorted.classes k).1 hk
    obtain ⟨x, hx⟩ := Option.isSome_iff_exists.1 (hlifted k (List.mem_append_right _ hk))
    obtain ⟨closure, c', captured, hclosure, hc', hcontext, hstoring⟩ := h.cls hraised hx hc
    exact ⟨c, closure, x, c', captured, hc, hclosure, hx, hc', hcontext, hstoring⟩

/-- A local function and a local class capture one parameter; the function, the constructor and the
method of the class have parameters of their own.

    fun make(n: Int): Int {
      fun plus(k: Int): Int { return n + k }
      class C(s: Int) { fun get(m: Int): Int { return n } }
      return plus(2)
    }
-/
def Sample.functionAndClass : Build Sample := do
  let make ← Build.function none (.ident "make") .int
  let n ← Build.param make (.ident "n") .int
  let plus ← Build.function (some make) (.ident "plus") .int
  let k ← Build.param plus (.ident "k") .int
  let lhs ← Build.read n
  let rhs ← Build.read k
  returning plus (← Build.addExpr (.binary .add lhs rhs))
  let cls ← Build.cls (some make) (.ident "C") .plain false
  let ctor ← Build.constructor cls true
  let _ ← Build.param ctor (.ident "s") .int
  let get ← Build.function (some cls) (.ident "get") .int
  let _ ← Build.param get (.ident "m") .int
  returning get (← Build.read n)
  placing make [plus, cls] do
    let two ← Build.addExpr (.lit (.int 2))
    Build.call plus [two]
  return ⟨make, [plus, cls, ctor, get]⟩

theorem relocation_corresponds_functionAndClass : ∃ s : Stages,
    s.Ran (Sample.program Sample.functionAndClass) ⟨0⟩
    ∧ s.locals.functions.keys = [⟨1⟩] ∧ s.locals.classes.keys = [⟨2⟩]
    ∧ s.locals.constructors.toList = [⟨3⟩]
    ∧ s.relocation.get? ⟨4⟩ ≠ none
    ∧ Corresponds (Sample.program Sample.functionAndClass)
      ⟨{}, ⟨0⟩, s.locals, s.closures⟩ s.relocation
        s.before.program := by
  have hrun : ((Sample.program Sample.functionAndClass).stages? ⟨0⟩).any (fun s =>
      decide (s.locals.functions.keys = [⟨1⟩] ∧ s.locals.classes.keys = [⟨2⟩]
        ∧ s.locals.constructors.toList = [⟨3⟩]
        ∧ s.relocation.get? ⟨4⟩ ≠ none)) = true := by decide +kernel
  obtain ⟨s, hs, hfacts⟩ := (Option.any_eq_true _ _).1 hrun
  obtain ⟨hfunctions, hclasses, hconstructors, hmethod⟩ := of_decide_eq_true hfacts
  have hran := Program.ran_of_stages? hs
  exact ⟨s, hran, hfunctions, hclasses, hconstructors, hmethod,
    relocation_corresponds hran.locals hran.relocation⟩

end LambdaLift
