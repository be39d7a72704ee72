/-
  LambdaLift.Proofs.PostOrder
  **THE TABLES OF A ROOT ARE ONE ENUMERATION, SORTED.**

  In a closed program in which nothing is nested in itself, collecting
  fails only on a declaration that may not stand where it stands.  If each
  declaration below the root is placed once, every table is what the
  enumeration leaves when the other declarations are crossed out, and the
  anonymous functions and classes are numbered by their positions.

  Main results:
    * `Locals.restricts_of_foldlM` — what sorting an enumeration gives;
    * `locals_in_postorder` — when collecting fails, the four tables, their
      numbers, and the replacements that lowering answers with.
-/
import Mathlib
import LambdaLift.Sample
import LambdaLift.Proofs.Answers
import LambdaLift.Proofs.Confined
import LambdaLift.Proofs.Locality
import LambdaLift.Proofs.Runs

namespace LambdaLift

variable {p : Program} {d d' root : DeclId} {order : List DeclId} {content : Declaration}

/-! ## §1. What may not stand where it stands. -/

namespace Program

/-- The declaration may not stand where it stands: it is a constructor, property or field outside of
a class, or a class in a class and not inner. -/
def Misplaced (p : Program) (d : DeclId) : Prop :=
  (∃ content, p.decls.get? d = some content ∧ p.isMember d = .ok false
      ∧ ((∃ c, content = .constructor c) ∨ (∃ q, content = .property q) ∨ ∃ f, content = .field f))
    ∨ ∃ c, p.decls.get? d = some (.cls c) ∧ p.isMember d = .ok true ∧ c.isInner = false

theorem Misplaced.table? (h : p.Misplaced d) : p.table? d = none := by
  obtain ⟨content, hd, hmember, ⟨c, rfl⟩ | ⟨q, rfl⟩ | ⟨f, rfl⟩⟩ | ⟨c, hd, hmember, hinner⟩ := h
  · exact table?_eq hd hmember
  · exact table?_eq hd hmember
  · exact table?_eq hd hmember
  · rw [table?_eq hd hmember]
    simp [Declaration.table?, hinner]

/-- In a closed program, only what is misplaced belongs in no table. -/
theorem Closed.misplaced (hp : p.Closed) (hd : p.decls.get? d = some content)
    (h : p.table? d = none) : p.Misplaced d := by
  obtain ⟨b, hb⟩ := hp.exists_isMember hd
  rw [table?_eq hd hb] at h
  cases b <;> cases content <;> simp_all [Misplaced, Declaration.table?]

/-- In a closed program, what cannot be sorted is misplaced, and the fault is a report. -/
theorem Closed.reports_of_sort (hp : p.Closed) (hd : p.decls.get? d = some content)
    {t : Locals.Partial} {f : Fault} (hsort : t.sort p d = .error f) :
    f.Reports ∧ p.Misplaced d := by
  obtain ⟨b, hb⟩ := hp.exists_isMember hd
  rw [t.sort_eq hd] at hsort
  have hput := Locals.toOption_add t content hb
  rw [hsort] at hput
  refine ⟨?_, hp.misplaced hd ((table?_eq hd hb).trans (Option.map_eq_none_iff.1 hput.symm))⟩
  unfold Locals.Partial.add at hsort
  rw [hb, Except.ok_bind] at hsort
  cases content with
  | cls c =>
    cases b with
    | false => cases hsort
    | true =>
      simp only at hsort
      split at hsort <;> cases hsort
      rfl
  | _ => cases b <;> cases hsort <;> rfl

/-- Where handles lead somewhere and nothing is nested in itself, the nesting ends. -/
theorem Acyclic.ends (hacyclic : p.Acyclic) (hp : p.Closed)
    (hroot : p.decls.get? root = some content) : p.Ends root := by
  refine ⟨content, hroot, fun part hpart => ?_⟩
  obtain ⟨label, hlabel⟩ := hp.exists_label (.part hroot hpart)
  obtain ⟨t, ht⟩ := exists_reads (hp.completeAt ⟨label, hlabel⟩) (hacyclic.acyclicAt .nested part)
  exact bounded_of_reads ht (height_le_depth ht)

end Program

/-! ## §2. Sorting an enumeration. -/

namespace Locals

/-- The tables are an enumeration sorted: each has what belongs in it, in that order, and the
anonymous are numbered by their positions. -/
structure Restricts (p : Program) (order : List DeclId) (l : Locals) : Prop where
  listed : ∀ table, l.listed table = order.filter fun d => p.table? d = some table
  one : ∀ d ∈ order, ∃! table, d ∈ l.listed table
  lambdas : ∀ d, l.lambdaIndex? d = ((l.listed .functions).filter p.isAnonymous).idxOf? d
  objects : ∀ d, l.objectIndex? d = ((l.listed .classes).filter p.isAnonymous).idxOf? d

theorem toList_ofList {ds : List DeclId} (h : ds.Nodup) : (OrderedSet.ofList ds).toList = ds := by
  induction ds using List.reverseRecOn with
  | nil => rfl
  | append_singleton ds d ih =>
    obtain ⟨hds, -, hd⟩ := List.nodup_append.1 h
    have hfresh : d ∉ OrderedSet.ofList ds := by
      rw [OrderedSet.mem_ofList]
      exact fun hmem => hd d hmem d List.mem_cons_self rfl
    have hstep : OrderedSet.ofList (ds ++ [d]) = (OrderedSet.ofList ds).insert d := by
      simp [OrderedSet.ofList, OrderedSet.insertAll]
    rw [hstep, OrderedSet.toList_insert, if_neg hfresh, ih hds]

/-- **Sorting an enumeration in which nothing comes twice.** -/
theorem restricts_of_foldlM {t : Partial} (honce : order.Nodup)
    (h : order.foldlM (Partial.sort p) {} = .ok t) : Restricts p order t.locals := by
  have hfilled := filled_of_foldlM h
  have hlisted : ∀ table, t.locals.listed table = order.filter fun d => p.table? d = some table :=
    fun table =>
    (hfilled.listed table).trans (toList_ofList (honce.filter _))
  obtain ⟨hlambdas, hobjects⟩ := numbered_of_foldlM h
  refine ⟨hlisted, fun d hd => ?_, fun d => ?_, fun d => ?_⟩
  · obtain ⟨table, htable⟩ := Option.isSome_iff_exists.1 (hfilled.sorted d hd)
    simp only [hlisted, List.mem_filter, hd, htable, true_and, decide_eq_true_eq, Option.some.injEq]
    exact ⟨table, rfl, fun _ heq => heq.symm⟩
  · rw [hlisted]
    exact hlambdas.number_eq d
  · rw [hlisted]
    exact hobjects.number_eq d

end Locals

/-! ## §3. The tables and the replacements of a root. -/

/-- What is nested in a declaration comes before it. -/
theorem Program.Ends.sublist_postorder (h : p.Ends root) (hd : p.Below root (.decl d))
    (hnested : Relation.TransGen p.Follows (.decl d) (.decl d')) :
    [d', d].Sublist (p.postorder root) := by
  obtain ⟨content, hroot, hbounded⟩ := h
  obtain ⟨content', hroot', part, hpart, hreach⟩ := hd
  obtain rfl : content = content' := Option.mem_unique hroot hroot'
  have hpost :=
    List.sublist_flatten_of_mem (List.mem_map_of_mem (f := p.postorderUpTo p.depth) hpart)
  unfold postorder
  rw [hroot]
  exact (sublist_postorderUpTo (hbounded part hpart) hreach hnested).trans hpost

/-- Lowering answers with the replacements of the functions, then of the classes. -/
theorem Lowering.siblings_of_locals {l : Locals} {settings : Settings} {reports : List Event}
    {siblings : List DeclId} {w : Work} (hl : p.locals root = .ok l)
    (hlower : lowerRoot settings root ⟨p, reports⟩ = .ok (some siblings) w) :
    ∃ r, RelocatesBy settings root p r
      ∧ List.Forall₂ (fun d x => r.get? d = some x)
        (l.listed .functions ++ l.listed .classes) siblings := by
  obtain ⟨hnone, -⟩ | ⟨siblings', site, r, q, S, hsiblings, -, hlowered⟩ :=
    (lowerRoot_leaves settings root ⟨p, reports⟩).ok_of hlower
  · cases hnone
  · cases hsiblings
    obtain rfl : site.locals = l := Except.ok.inj (hlowered.builds.locals.symm.trans hl)
    exact ⟨r, ⟨site, q, hlowered.builds⟩, hlowered.siblings⟩

/-- **Collecting sorts one enumeration.**  Below a root of a closed program in which nothing is
nested in itself, take the declarations so that each comes after those nested in it, and let none
come twice.  Collecting fails exactly if one of them may not stand where it stands, and then with a
report.  Otherwise each is in exactly one table, every table is the enumeration without the rest,
the anonymous functions are numbered from zero in that order, the anonymous classes likewise, and
nobody else has a number.  So lowering answers with the replacements of the functions in that order,
then with those of the classes. -/
theorem locals_in_postorder (hclosed : p.Closed) (hacyclic : p.Acyclic)
    (hroot : p.decls.get? root = some content) (honce : (p.postorder root).Nodup) :
    (∀ d, d ∈ p.postorder root ↔ p.Below root (.decl d))
      ∧ (∀ d d', p.Below root (.decl d) → Relation.TransGen p.Follows (.decl d) (.decl d') →
          [d', d].Sublist (p.postorder root))
      ∧ ((∃ f, p.locals root = .error f) ↔ ∃ d, p.Below root (.decl d) ∧ p.Misplaced d)
      ∧ (∀ f, p.locals root = .error f → f.Reports)
      ∧ ∀ l, p.locals root = .ok l → l.Restricts p (p.postorder root)
        ∧ ∀ settings reports siblings w, Lowering.lowerRoot settings root ⟨p, reports⟩
          = .ok (some siblings) w →
          ∃ r, Lowering.RelocatesBy settings root p r
            ∧ List.Forall₂ (fun d x => r.get? d = some x)
              (l.listed .functions ++ l.listed .classes) siblings := by
  have hends := hacyclic.ends hclosed hroot
  have hfault : ∀ f, p.locals root = .error f →
      f.Reports ∧ ∃ d, p.Below root (.decl d) ∧ p.Misplaced d := by
    intro f hf
    obtain ⟨d, hd, t, hsort⟩ := hends.exists_sort_of_locals hf
    obtain ⟨label, hlabel⟩ := (hends.bounded hd).exists_label
    obtain ⟨content', hcontent, -⟩ := Option.map_eq_some_iff.1 hlabel
    obtain ⟨hreports, hmisplaced⟩ := hclosed.reports_of_sort hcontent hsort
    exact ⟨hreports, d, hd, hmisplaced⟩
  refine ⟨fun d => hends.mem_postorder, fun d d' => hends.sublist_postorder, ⟨?_, ?_⟩,
    fun f hf => (hfault f hf).1, fun l hl => ⟨?_, ?_⟩⟩
  · rintro ⟨f, hf⟩
    exact (hfault f hf).2
  · rintro ⟨d, hd, hmisplaced⟩
    cases hlocals : p.locals root with
    | error f => exact ⟨f, rfl⟩
    | ok l =>
      have hsome := (Program.locals_spec hlocals).2.sorts hd
      rw [hmisplaced.table?] at hsome
      cases hsome
  · obtain ⟨-, t, ht, rfl⟩ := Program.exists_foldlM_of_locals hl
    exact Locals.restricts_of_foldlM honce ht
  · exact fun settings reports siblings w hlower => Lowering.siblings_of_locals hl hlower

/-- A lambda in a method of an anonymous object, and a lambda beside the object.

    fun f() { val o = object { fun m() { { } } }; { } }
-/
def Sample.lambdasAround : Build Sample := do
  let f ← Build.function none (.ident "f") .unit
  let obj ← Build.object f
  let _ ← Build.constructor obj true
  let m ← Build.function (some obj) (.ident "m") .unit
  let inside ← Build.lambda m .unit
  Build.setBody m (← Build.block [← Build.addExpr (.decl inside)])
  let beside ← Build.lambda f .unit
  Build.setBody f (← Build.block [← Build.addExpr (.decl obj), ← Build.addExpr (.decl beside)])
  return ⟨f, [obj, inside, beside]⟩

/-- The lambda in the method comes first, and the object last among the replacements. -/
theorem locals_in_postorder_lambdasAround :
    (Sample.program Sample.lambdasAround).postorder ⟨0⟩ = [⟨2⟩, ⟨4⟩, ⟨3⟩, ⟨1⟩, ⟨5⟩]
      ∧ ∃ l siblings w r, (Sample.program Sample.lambdasAround).locals ⟨0⟩ = .ok l
        ∧ l.Restricts (Sample.program Sample.lambdasAround) [⟨2⟩, ⟨4⟩, ⟨3⟩, ⟨1⟩, ⟨5⟩]
        ∧ l.listed .functions = [⟨4⟩, ⟨5⟩] ∧ l.lambdaIndex? ⟨5⟩ = some 1
        ∧ l.objectIndex? ⟨1⟩ = some 0
        ∧ Lowering.lowerRoot {} ⟨0⟩ ⟨Sample.program Sample.lambdasAround, []⟩
          = .ok (some siblings) w
        ∧ Lowering.RelocatesBy {} ⟨0⟩ (Sample.program Sample.lambdasAround) r
        ∧ List.Forall₂ (fun d x => r.get? d = some x) [⟨4⟩, ⟨5⟩, ⟨1⟩] siblings := by
  have hclosed : (Sample.program Sample.lambdasAround).Closed := by decide +kernel
  have hacyclic : (Sample.program Sample.lambdasAround).Acyclic :=
    Program.acyclic_of_complete (by decide +kernel)
  have hroot : ((Sample.program Sample.lambdasAround).decls.get? ⟨0⟩).isSome
      = true := by decide +kernel
  have horder : (Sample.program Sample.lambdasAround).postorder ⟨0⟩
      = [⟨2⟩, ⟨4⟩, ⟨3⟩, ⟨1⟩, ⟨5⟩] := by decide +kernel
  have honce : ((Sample.program Sample.lambdasAround).postorder ⟨0⟩).Nodup := by decide +kernel
  have hlisted : ((Sample.program Sample.lambdasAround).locals ⟨0⟩).toOption.map
      (fun l => (l.listed .functions, l.listed .classes, l.lambdaIndex? ⟨5⟩, l.objectIndex? ⟨1⟩))
        = some ([⟨4⟩, ⟨5⟩], [⟨1⟩], some 1, some 0) := by decide +kernel
  have hlower : (Step.answer? (Lowering.lowerRoot {} ⟨0⟩)
      ⟨Sample.program Sample.lambdasAround, []⟩).map Option.isSome
      = some true := by decide +kernel
  obtain ⟨content, hcontent⟩ := Option.isSome_iff_exists.1 hroot
  obtain ⟨result, hanswer, hsome⟩ := Option.map_eq_some_iff.1 hlower
  obtain ⟨siblings, rfl⟩ := Option.isSome_iff_exists.1 hsome
  obtain ⟨w, hw⟩ := Step.answer?_eq_some.1 hanswer
  obtain ⟨l, hl, hviews⟩ := Option.map_eq_some_iff.1 hlisted
  have hlocals : (Sample.program Sample.lambdasAround).locals ⟨0⟩ = .ok l := by
    cases h : (Sample.program Sample.lambdasAround).locals ⟨0⟩ <;> simp_all [Except.toOption]
  obtain ⟨hfunctions, hclasses, hlambda, hobject⟩ :
      l.listed .functions = [⟨4⟩, ⟨5⟩] ∧ l.listed .classes = [⟨1⟩] ∧ l.lambdaIndex? ⟨5⟩ = some 1
        ∧ l.objectIndex? ⟨1⟩ = some 0 := by simpa using hviews
  obtain ⟨-, -, -, -, htables⟩ := locals_in_postorder hclosed hacyclic hcontent honce
  obtain ⟨hrestricts, hsiblings⟩ := htables l hlocals
  obtain ⟨r, hr, himages⟩ := hsiblings {} [] siblings w hw
  rw [hfunctions, hclasses] at himages
  rw [horder] at hrestricts
  exact ⟨horder, l, siblings, w, r, hlocals, hrestricts, hfunctions, hlambda,
    hobject, hw, hr, himages⟩

end LambdaLift
