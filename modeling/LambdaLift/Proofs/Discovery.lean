/-
  LambdaLift.Proofs.Discovery
  **WHAT THE MODULE LISTS, IN THE ORDER OF DISCOVERY.**

  The module lists declarations, and some of these list others in turn.
  Lists may repeat and share entries and run in circles.  Listing goes
  depth first: a declaration that is met for the first time is entered
  and what it lists comes next, one that is met again is reported and not
  followed (`Discovers`).  So everything that can be reached is entered
  once, and each further listing is reported once.

  Main results:
    * `Discovers.mem_iff` — what is entered is what can be reached;
    * `Discovers.perm` — the listings are the entries and the reports;
    * `Program.listing_discovers` — listing ends, and discovers in that order.
-/
import Mathlib
import LambdaLift.WellFormed
import LambdaLift.Proofs.CaptureWalk

namespace LambdaLift

namespace Program

/-! ## §1. What can be reached, and in which order. -/

/-- A declaration is listed by the module, directly or through classes and properties. -/
inductive Declared (p : Program) : DeclId → Prop
  | top {d : DeclId} : d ∈ p.top → Declared p d
  | listed {d x : DeclId} {content : Declaration} : Declared p d → p.decls.get? d = some content →
      x ∈ content.listed → Declared p x

/-- What the declaration under a handle lists. -/
def listedBy (p : Program) (d : DeclId) : List DeclId :=
  match p.decls.get? d with
  | some content => content.listed
  | none => []

/-- Depth-first discovery from a list of declarations: which are found for the first time, and which
are met again, each in order. -/
inductive Discovers (p : Program) : (seen ds found again : List DeclId) → Prop
  | done {seen : List DeclId} : Discovers p seen [] [] []
  | again {seen ds found again : List DeclId} {d : DeclId} : d ∈ seen →
      Discovers p seen ds found again →
      Discovers p seen (d :: ds) found (d :: again)
  /-- what a new declaration lists comes before what stands behind it -/
  | first {seen ds found again found' again' : List DeclId} {d : DeclId}
      {content : Declaration} : d ∉ seen →
      p.decls.get? d = some content → Discovers p (seen ++ [d]) content.listed found again →
      Discovers p (seen ++ d :: found) ds found' again' →
      Discovers p seen (d :: ds) (d :: (found ++ found')) (again ++ again')

/-! ## §2. Everything is found once, and each further listing is met again. -/

namespace Discovers

variable {p : Program} {seen ds found again : List DeclId}

/-- Only what can be reached is found. -/
theorem declared (h : p.Discovers seen ds found again) (hds : ∀ d ∈ ds, p.Declared d) :
    ∀ d ∈ found, p.Declared d := by
  induction h with
  | done => simp
  | again _ _ ih => exact ih fun d hd => hds d (List.mem_cons_of_mem _ hd)
  | @first _ ds _ _ _ _ d content _ hd _ _ ih ih' =>
    have hhere : p.Declared d := hds d List.mem_cons_self
    intro x hx
    rcases List.mem_cons.1 hx with rfl | hx
    · exact hhere
    rcases List.mem_append.1 hx with hx | hx
    · exact ih (fun y hy => .listed hhere hd hy) x hx
    · exact ih' (fun y hy => hds y (List.mem_cons_of_mem _ hy)) x hx

/-- What was to be found has been seen by then. -/
theorem mem (h : p.Discovers seen ds found again) : ∀ d ∈ ds, d ∈ seen ++ found := by
  induction h with
  | done => simp
  | again hd _ ih =>
    intro x hx
    rcases List.mem_cons.1 hx with rfl | hx
    · exact List.mem_append_left _ hd
    · exact ih x hx
  | first _ _ _ _ _ ih' =>
    intro x hx
    rcases List.mem_cons.1 hx with rfl | hx
    · simp
    · simpa using ih' x hx

/-- What is listed by something found has been seen by then. -/
theorem listed_mem (h : p.Discovers seen ds found again) {d x : DeclId} {content : Declaration}
    (hd : d ∈ found) (hcontent : p.decls.get? d = some content) (hx : x ∈ content.listed) :
    x ∈ seen ++ found := by
  induction h with
  | done => cases hd
  | again _ _ ih => exact ih hd
  | first _ hnew hinner _ ih ih' =>
    rcases List.mem_cons.1 hd with rfl | hd
    · obtain rfl := Option.mem_unique hnew hcontent
      have := hinner.mem x hx
      simp only [List.mem_append, List.mem_cons, List.not_mem_nil, or_false] at this ⊢
      grind
    rcases List.mem_append.1 hd with hd | hd
    · have := ih hd
      simp only [List.mem_append, List.mem_cons, List.not_mem_nil, or_false] at this ⊢
      grind
    · simpa using ih' hd

/-- **What is found from the module is what can be reached.** -/
theorem mem_iff (h : p.Discovers [] p.top found again) (d : DeclId) : d ∈ found ↔ p.Declared d := by
  refine ⟨h.declared (fun _ => .top) d, fun hd => ?_⟩
  induction hd with
  | top hd => simpa using h.mem _ hd
  | listed _ hcontent hx ih => simpa using h.listed_mem ih hcontent hx

/-- **The listings are what is found and what is met again.** -/
theorem perm (h : p.Discovers seen ds found again) :
    (ds ++ found.flatMap p.listedBy).Perm (found ++ again) := by
  induction h with
  | done => simp
  | again _ _ ih => exact (ih.cons _).trans List.perm_middle.symm
  | @first _ ds found again found' again' d content _ hd _ _ ih ih' =>
    have hlisted : p.listedBy d = content.listed := by simp [listedBy, hd]
    rw [List.perm_iff_count] at ih ih' ⊢
    intro x
    have hinner := ih x
    have hbehind := ih' x
    simp only [List.cons_append, List.flatMap_cons, List.flatMap_append, List.count_append,
      List.count_cons, hlisted] at hinner hbehind ⊢
    omega

end Discovers

/-! ## §3. Listing discovers. -/

variable {p : Program}

/-- Listing some declarations with enough fuel.  Each level that goes on has entered one declaration
more, so the fuel and the number of entries together stay above the number of declarations. -/
theorem list_discovers (hall : ∀ {d}, p.Declared d → d.index < p.decls.size) (fuel : Nat) :
    ∀ (ds : List DeclId) (l : Listing), (∀ d ∈ ds, p.Declared d) →
      (∀ d ∈ l.declared, p.Declared d) →
      p.decls.size < fuel + l.declared.toList.length →
      ∃ l' found again, ds.foldlM (fun l d => p.list fuel d l) l = .ok l'
        ∧ p.Discovers l.declared.toList ds found again
        ∧ l'.declared.toList = l.declared.toList ++ found
        ∧ l'.findings = l.findings ++ again.map .redeclared := by
  induction fuel with
  | zero =>
    intro ds l _ hl hfuel
    have := Handle.length_le_of_nodup l.declared.nodup fun d hd => hall (hl d hd)
    omega
  | succ fuel ih =>
    intro ds
    induction ds with
    | nil => exact fun l _ _ _ => ⟨l, [], [], rfl, .done, by simp, by simp⟩
    | cons d ds ihds =>
      intro l hds hl hfuel
      have hd : p.Declared d := hds d List.mem_cons_self
      have hrest : ∀ x ∈ ds, p.Declared x := fun x hx => hds x (List.mem_cons_of_mem _ hx)
      by_cases hseen : d ∈ l.declared
      · obtain ⟨l', found, again, hl', hdisc, hdeclared, hfindings⟩ :=
          ihds { l with findings := l.findings ++ [.redeclared d] } hrest hl hfuel
        refine ⟨l', found, d :: again, ?_, .again hseen hdisc, hdeclared, by simp [hfindings]⟩
        rw [List.foldlM_cons, list, if_pos (OrderedSet.contains_iff.2 hseen)]
        exact hl'
      · obtain ⟨content, hcontent⟩ := Arena.exists_get?_of_lt (hall hd)
        have hinsert : (l.declared.insert d).toList = l.declared.toList ++ [d] := by
          rw [OrderedSet.toList_insert, if_neg hseen]
        -- first what the declaration lists, then what stands behind it
        obtain ⟨l₁, found, again, hl₁, hdisc₁, hdeclared₁, hfindings₁⟩ :=
          ih content.listed { l with declared := l.declared.insert d }
            (fun x hx => .listed hd hcontent hx)
            (fun x hx => by
              rcases OrderedSet.mem_insert.1 hx with hx | rfl
              · exact hl x hx
              · exact hd)
            (by simp only [hinsert, List.length_append, List.length_singleton]; omega)
        simp only [hinsert, List.append_assoc, List.singleton_append] at hdisc₁ hdeclared₁
        have hl₁' : ∀ x ∈ l₁.declared, p.Declared x := by
          intro x hx
          rw [← OrderedSet.mem_toList, hdeclared₁] at hx
          rcases List.mem_append.1 hx with hx | hx
          · exact hl x hx
          rcases List.mem_cons.1 hx with rfl | hx
          · exact hd
          · exact hdisc₁.declared (fun y hy => .listed hd hcontent hy) x hx
        obtain ⟨l₂, found', again', hl₂, hdisc₂, hdeclared₂, hfindings₂⟩ :=
          ihds l₁ hrest hl₁'
            (by simp only [hdeclared₁, List.length_append, List.length_cons]; omega)
        rw [hdeclared₁] at hdisc₂
        refine ⟨l₂, d :: (found ++ found'), again ++ again', ?_,
          .first hseen hcontent hdisc₁ hdisc₂, ?_, ?_⟩
        · rw [List.foldlM_cons, list, if_neg (fun h => hseen (OrderedSet.contains_iff.1 h)),
            decl_eq_ok.2 hcontent, Except.ok_bind, hl₁]
          exact hl₂
        · rw [hdeclared₂, hdeclared₁]
          simp
        · rw [hfindings₂, hfindings₁]
          simp

/-- **Listing ends, and it discovers what the module lists.** -/
theorem listing_discovers (hall : ∀ {d}, p.Declared d → d.index < p.decls.size) :
    ∃ l again, p.listing = .ok l ∧ p.Discovers [] p.top l.declared.toList again
      ∧ l.findings = again.map .redeclared := by
  obtain ⟨l, found, again, hl, hdisc, hdeclared, hfindings⟩ :=
    list_discovers hall (p.decls.size + 1) p.top {} (fun _ => .top)
      (fun d hd => absurd hd (by simp)) (by simp)
  refine ⟨l, again, hl, ?_, by simpa using hfindings⟩
  rw [show l.declared.toList = found by simpa using hdeclared]
  exact hdisc

end Program

end LambdaLift
