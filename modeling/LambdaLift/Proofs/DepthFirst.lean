/-
  LambdaLift.Proofs.DepthFirst
  **LISTING ENDS ON EVERY GRAPH OF MEMBERS, AND COUNTS EXACTLY.**

  Members may be shared and may list each other in circles.  Depth first
  means: what is entered next is the first declaration not yet entered that
  the latest of the entered ones lists, or the one before it if that has
  none left, and so on down to the module (`Program.next?`).  This settles
  the whole order, and the order ends when nothing is left.

  Main results:
    * `Discovers.firstNew_eq_some`, `Discovers.firstNew_eq_none` — discovery
      enters what comes next, until nothing does;
    * `Discovers.count_again` — how often a declaration is met again;
    * `listing_depthFirst` — what listing gives on every program.
-/
import Mathlib
import LambdaLift.Proofs.Violations

namespace LambdaLift

variable {d : DeclId} {ds seen : List DeclId}

/-! ## §1. What comes next. -/

/-- The first of some declarations that was not seen. -/
def firstNew (seen ds : List DeclId) : Option DeclId := ds.find? fun d => !seen.contains d

theorem firstNew_append_of_some (h : firstNew seen ds = some d) (ds' : List DeclId) :
    firstNew seen (ds ++ ds') = some d := by
  unfold firstNew at h ⊢
  rw [List.find?_append, h, Option.some_or]

theorem firstNew_eq_none_iff : firstNew seen ds = none ↔ ∀ d ∈ ds, d ∈ seen := by
  simp [firstNew]

/-- What was seen does not come next, wherever it stands. -/
theorem firstNew_skip (h : ∀ d ∈ ds, d ∈ seen) (before behind : List DeclId) :
    firstNew seen (before ++ (ds ++ behind)) = firstNew seen (before ++ behind) := by
  have hnone := firstNew_eq_none_iff.2 h
  unfold firstNew at hnone ⊢
  simp only [List.find?_append, hnone, Option.none_or]

namespace Program

variable {p : Program} {seen ds found again : List DeclId}

/-- What some declarations list, the latest of them first. -/
def listedByAll (p : Program) (entered : List DeclId) : List DeclId :=
  entered.reverse.flatMap p.listedBy

/-- What depth-first discovery from the module enters after some declarations. -/
def next? (p : Program) (entered : List DeclId) : Option DeclId :=
  firstNew entered (p.listedByAll entered ++ p.top)

@[simp] theorem listedByAll_nil : p.listedByAll [] = [] := rfl

theorem listedByAll_cons (d : DeclId) (ds : List DeclId) :
    p.listedByAll (d :: ds) = p.listedByAll ds ++ p.listedBy d := by
  simp [listedByAll]

theorem listedByAll_append (ds ds' : List DeclId) :
    p.listedByAll (ds ++ ds') = p.listedByAll ds' ++ p.listedByAll ds := by
  simp [listedByAll]

theorem mem_listedByAll : d ∈ p.listedByAll ds ↔ ∃ e ∈ ds, d ∈ p.listedBy e := by
  simp [listedByAll]

theorem mem_listedBy {e : DeclId} :
    d ∈ p.listedBy e ↔ ∃ content, p.decls.get? e = some content ∧ d ∈ content.listed := by
  unfold listedBy
  cases p.decls.get? e <;> simp

namespace Discovers

/-- When discovery is through, nothing comes next. -/
theorem firstNew_eq_none (h : p.Discovers seen ds found again) :
    firstNew (seen ++ found) (p.listedByAll found ++ ds) = none := by
  rw [firstNew_eq_none_iff]
  intro x hx
  rcases List.mem_append.1 hx with hx | hx
  · obtain ⟨d, hd, hx⟩ := mem_listedByAll.1 hx
    obtain ⟨content, hcontent, hx⟩ := mem_listedBy.1 hx
    exact h.listed_mem hd hcontent hx
  · exact h.mem x hx

/-- **Discovery enters what comes next.** -/
theorem firstNew_eq_some (h : p.Discovers seen ds found again) :
    ∀ {pre post : List DeclId} {x : DeclId}, found = pre ++ x :: post →
      firstNew (seen ++ pre) (p.listedByAll pre ++ ds) = some x := by
  induction h with
  | done => simp
  | @again seen ds found again d hd _ ih =>
    intro pre post x hfound
    have hskip : ∀ e ∈ [d], e ∈ seen ++ pre := by simp [hd]
    exact (firstNew_skip hskip _ ds).trans (ih hfound)
  | @first seen ds found again found' again' d content hd hcontent hinner hbehind ih ih' =>
    intro pre post x hfound
    cases pre with
    | nil =>
      obtain ⟨rfl, -⟩ := List.cons.inj hfound
      simp [firstNew, hd]
    | cons e pre =>
      obtain ⟨rfl, hsplit⟩ := List.cons.inj hfound
      have hlisted : p.listedBy d = content.listed := by simp [listedBy, hcontent]
      rw [listedByAll_cons, hlisted, List.append_assoc]
      -- what the declaration brings is through before anything behind it is entered
      have behind {pre' : List DeclId} (hfound' : found' = pre' ++ x :: post) :
          firstNew (seen ++ d :: (found ++ pre'))
          (p.listedByAll (found ++ pre') ++ (content.listed ++ d :: ds))
            = some x := by
        have hskip : ∀ e ∈ p.listedByAll found ++ content.listed ++ [d],
            e ∈ seen ++ d :: (found ++ pre') := by
          intro e he
          rcases List.mem_append.1 he with he | he
          · have := firstNew_eq_none_iff.1 hinner.firstNew_eq_none e he
            simp only [List.mem_append, List.mem_cons, List.not_mem_nil, or_false] at this ⊢
            tauto
          · simp_all
        have hnext :=
          (firstNew_skip hskip (p.listedByAll pre') ds).trans (by simpa using ih' hfound')
        simpa [listedByAll_append] using hnext
      rcases List.append_eq_append_iff.1 hsplit with ⟨pre', rfl, hfound'⟩ | ⟨rest, hpre, hrest⟩
      · exact behind hfound'
      · cases rest with
        | nil =>
          obtain rfl : found = pre := by simpa using hpre
          simpa using @behind [] hrest.symm
        | cons y rest =>
          obtain ⟨rfl, -⟩ := List.cons.inj hrest
          simpa using firstNew_append_of_some (ih hpre) (d :: ds)

/-- How often a declaration is met again: once for each listing after its first. -/
theorem count_again (h : p.Discovers [] ds found again) (hnodup : found.Nodup) (hd : d ∈ found) :
    again.count d + 1 = ds.count d + (found.map fun e => (p.listedBy e).count d).sum := by
  have hperm := h.perm.count_eq d
  rw [List.count_append, List.count_append, List.count_flatMap, List.count_eq_one_of_mem hnodup hd]
    at hperm
  simp only [Function.comp_def] at hperm
  omega

end Discovers

end Program

/-- **Listing ends on every graph of members, and counts exactly.**  If what the module lists,
directly or through classes and properties, is there, then listing ends, however the members are
shared and whatever circles they form.  It enters what can be reached, each once and depth first,
and finds nothing but declarations that are listed again: each of them once for every listing, by
the module or by an entered declaration, after its first. -/
theorem listing_depthFirst {p : Program} (hp : ∀ d, p.Declared d → (p.decls.get? d).isSome) :
    ∃ l, p.listing = .ok l
      ∧ (∀ d, d ∈ l.declared ↔ p.Declared d)
      ∧ l.declared.toList.Nodup
      ∧ (∀ i ≤ l.declared.size, p.next? (l.declared.toList.take i) = l.declared.toList[i]?)
      ∧ (∀ f ∈ l.findings, ∃ d, p.Declared d ∧ f = .redeclared d)
      ∧ ∀ d, p.Declared d → l.findings.count (.redeclared d) + 1
          = p.top.count d + (l.declared.toList.map fun e => (p.listedBy e).count d).sum := by
  obtain ⟨l, again, hl, hdiscovers, hfindings⟩ :=
    Program.listing_discovers fun hd => (Arena.get?_isSome_iff _ _).1 (hp _ hd)
  have hreached := hdiscovers.mem_iff
  refine ⟨l, hl, hreached, l.declared.nodup, fun i hi => ?_, fun f hf => ?_, fun d hd => ?_⟩
  · rcases Nat.lt_or_eq_of_le hi with hi | rfl
    · have hsplit := List.take_append_drop i l.declared.toList
      rw [List.drop_eq_getElem_cons hi] at hsplit
      rw [List.getElem?_eq_getElem hi]
      exact hdiscovers.firstNew_eq_some hsplit.symm
    · rw [OrderedSet.size, List.take_length, List.getElem?_eq_none (le_refl _)]
      exact hdiscovers.firstNew_eq_none
  · rw [hfindings] at hf
    obtain ⟨d, hd, rfl⟩ := List.mem_map.1 hf
    have hlisted := hdiscovers.perm.mem_iff.2 (List.mem_append_right _ hd)
    refine ⟨d, ?_, rfl⟩
    rcases List.mem_append.1 hlisted with htop | hlisted
    · exact .top htop
    · obtain ⟨e, he, hd⟩ := List.mem_flatMap.1 hlisted
      obtain ⟨content, hcontent, hd⟩ := Program.mem_listedBy.1 hd
      exact .listed ((hreached e).1 he) hcontent hd
  · rw [hfindings, List.count_map_of_injective _ _ (fun _ _ h => Finding.redeclared.inj h)]
    exact hdiscovers.count_again l.declared.nodup ((hreached d).2 hd)

/-- A program whose classes list each other and themselves, and share a property.

    class A { A; val q: Int get(); B; B }; class B { A; q }
-/
def Program.circular : Program where
  decls := ⟨#[.cls { name := .ident "A", parent := none, kind := .plain, visibility := .everywhere,
                     this := ⟨0⟩, members := [⟨0⟩, ⟨1⟩, ⟨3⟩, ⟨3⟩] },
    .property { name := .ident "q", parent := some ⟨0⟩, visibility := .everywhere, isVar := false,
                ty := .int, getter := some ⟨2⟩ },
    .function { name := .ident "get", parent := some ⟨0⟩, visibility := .everywhere, ret := .int,
                accessorOf := some ⟨1⟩ },
    .cls { name := .ident "B", parent := none, kind := .plain, visibility := .everywhere,
           this := ⟨1⟩, members := [⟨0⟩, ⟨1⟩] }]⟩
  values := ⟨#[{ name := .this, ty := .cls ⟨0⟩, owner := ⟨0⟩, kind := .dispatchReceiver },
    { name := .this, ty := .cls ⟨3⟩, owner := ⟨3⟩, kind := .dispatchReceiver }]⟩
  top := [⟨0⟩, ⟨3⟩]

theorem listing_depthFirst_circular :
    ∃ l, Program.circular.listing = .ok l ∧ l.declared.toList = [⟨0⟩, ⟨1⟩, ⟨2⟩, ⟨3⟩]
      ∧ Program.circular.next? [⟨0⟩, ⟨1⟩, ⟨2⟩] = some ⟨3⟩
      ∧ l.findings.count (.redeclared ⟨3⟩) = 2 := by
  have hclosed : Program.circular.Closed := by decide +kernel
  obtain ⟨l, hl, -, -, horder, -, hcount⟩ := listing_depthFirst (p := .circular)
    fun d hd => Option.isSome_iff_exists.2 (hclosed.exists_listed hd)
  have hdeclared : (Program.circular.listing.map (·.declared.toList))
      = .ok [⟨0⟩, ⟨1⟩, ⟨2⟩, ⟨3⟩] := by decide +kernel
  rw [hl] at hdeclared
  have hlist : l.declared.toList = [⟨0⟩, ⟨1⟩, ⟨2⟩, ⟨3⟩] := Except.ok.inj hdeclared
  have hthird := horder 3 (by simp [OrderedSet.size, hlist])
  have htwice := hcount ⟨3⟩ (.top (by decide))
  rw [hlist] at hthird htwice
  exact ⟨l, hl, hlist, hthird, Nat.succ.inj (htwice.trans (by decide))⟩

end LambdaLift
