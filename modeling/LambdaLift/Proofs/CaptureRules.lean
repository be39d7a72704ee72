/-
  LambdaLift.Proofs.CaptureRules
  **THE RULES OF CAPTURE.**

  A value that is used under open scopes is captured by the innermost of
  them if it is external to it, and from there by one scope after the other
  outwards, up to the first that owns the value (`Reaches`).  A use of a
  local callable uses everything that the callable captures.  A family of
  closures obeys the rules if it holds all of that (`ObeysCapture`), and
  `Captured` is the least that does.

  Main results:
    * `captured_isLeast` — `Captured` is the least family that obeys the rules;
    * `Occurs.iff_mem` — occurrences below a root, read off its trees;
    * `Occurs.inside`, `Occurs.under` — what stands under a scope stands
      below its declaration, and the other way around.
-/
import Mathlib
import LambdaLift.Captures
import LambdaLift.Proofs.Closed

namespace LambdaLift

variable {d : DeclId} {ds outer rest : List DeclId} {content : Declaration} {label : Label}
  {ts : List Tree} {place : Place} {t : Tree}

/-! ## §1. Occurrences and the scopes open at them. -/

/-- Whether a declaration opens a scope. -/
def Declaration.opensScope : Declaration → Bool
  | .function _ | .constructor _ | .cls _ => true
  | .property _ | .field _ => false

/-- The declaration that opens a scope at a label. -/
def Label.opened? : Label → Option (DeclId × Declaration)
  | .expr _ _ => none
  | .decl d content | .backing d content => if content.opensScope then some (d, content) else none

/-- The scopes open inside a label, given those open around it; innermost first. -/
def Label.scopes (ds : List DeclId) (label : Label) : List DeclId :=
  (label.opened?.map (·.1)).toList ++ ds

theorem Label.scopes_append (label : Label) (ds outer : List DeclId) :
    label.scopes (ds ++ outer) = label.scopes ds ++ outer := by
  simp [Label.scopes]

/-- What opens a scope at a label is an entry of the program, and its parts are nested there. -/
theorem Program.opened_of_label {p : Program} (hlabel : p.label? place = some label)
    (hopened : label.opened? = some (d, content)) :
    p.decls.get? d = some content ∧ content.opensScope = true
      ∧ ∀ reach, label.places reach = content.parts := by
  cases label with
  | expr e node => cases hopened
  | decl d' content' =>
    obtain ⟨-, hget⟩ := label?_eq_decl.1 hlabel
    simp only [Label.opened?, Option.ite_none_right_eq_some, Option.some.injEq, Prod.mk.injEq]
      at hopened
    obtain ⟨hopens, rfl, rfl⟩ := hopened
    exact ⟨hget, hopens, fun _ => rfl⟩
  | backing d' content' =>
    obtain ⟨-, hget⟩ := label?_eq_backing.1 hlabel
    simp only [Label.opened?, Option.ite_none_right_eq_some, Option.some.injEq, Prod.mk.injEq]
      at hopened
    obtain ⟨hopens, rfl, rfl⟩ := hopened
    exact ⟨hget, hopens, fun _ => rfl⟩

/-- The value that a label uses. -/
def Label.used? : Label → Option ValueId
  | .expr _ node => node.used?
  | _ => none

/-- The callee that a label refers to. -/
def Label.callee? : Label → Option DeclId
  | .expr _ node => node.access?.map (·.callee)
  | _ => none

/-- A place stands below a root, with these scopes open around it, innermost first.  The root itself
opens none, and the accessors of delegated variables stand nowhere. -/
inductive Occurs (p : Program) (root : DeclId) : List DeclId → Place → Prop
  /-- a part of the root -/
  | part {content : Declaration} {place : Place} :
      p.decls.get? root = some content → place ∈ content.parts → Occurs p root [] place
  /-- a part of something that stands below the root -/
  | inner {ds : List DeclId} {outer place : Place} {label : Label} :
      Occurs p root ds outer → p.label? outer = some label → place ∈ label.places .nested →
      Occurs p root (label.scopes ds) place

/-- A declaration opens a scope below the root. -/
def Opens (p : Program) (root d : DeclId) : Prop :=
  ∃ ds place label content, Occurs p root ds place ∧ p.label? place = some label
    ∧ label.opened? = some (d, content)

/-! ## §2. The rules. -/

namespace Program

/-- The scope that a declaration opens. -/
def HasScope (p : Program) (d : DeclId) (s : Scope) : Prop :=
  ∃ content, p.decls.get? d = some content ∧ Scope.ofDeclaration? p d content = .ok (some s)

/-- A value is bound outside of the scope of a declaration. -/
def External (p : Program) (d : DeclId) (v : ValueId) : Prop :=
  ∃ s, p.HasScope d s ∧ s.isExternal p v = .ok true

/-- A declaration owns a value. -/
def Owns (p : Program) (d : DeclId) (v : ValueId) : Prop :=
  ∃ value, p.values.get? v = some value ∧ value.owner = d

/-- A declaration stands in a body: somewhere below a callable, and not directly in a class. -/
def StandsInBody (p : Program) (d : DeclId) : Prop :=
  p.isLocal d = .ok true ∧ ∃ content parent outer, p.decls.get? d = some content
    ∧ content.parent = some parent ∧ p.decls.get? parent = some outer ∧ outer.isClass = false

/-- A use of the callee needs what `d` captures: a function that stands in a body needs what it
captures itself, a constructor what its class captures if the class stands in a body. -/
inductive Draws (p : Program) : (callee d : DeclId) → Prop
  | function {callee : DeclId} {f : FunctionDecl} :
      p.decls.get? callee = some (.function f) → p.StandsInBody callee → Draws p callee callee
  | constructor {callee d : DeclId} {c : ConstructorDecl} :
      p.decls.get? callee = some (.constructor c) → c.parent = some d →
        p.StandsInBody d → Draws p callee d

end Program

/-- A value used under the scopes `ds` is captured by the first of `d :: outer`, a rest of `ds`: by
the innermost scope if it is external to it, then outwards up to the first scope that owns it. -/
inductive Reaches (p : Program) (v : ValueId) : (ds rest : List DeclId) → Prop
  | innermost {d : DeclId} {ds : List DeclId} : p.External d v → Reaches p v (d :: ds) (d :: ds)
  | outwards {ds : List DeclId} {d d' : DeclId} {outer : List DeclId} :
      Reaches p v ds (d :: d' :: outer) → ¬ p.Owns d' v → Reaches p v ds (d' :: outer)

/-- A declaration below the root captures a value. -/
inductive Captured (p : Program) (root : DeclId) : DeclId → ValueId → Prop
  /-- by a use inside it -/
  | use {ds : List DeclId} {place : Place} {label : Label} {v : ValueId} {d : DeclId}
      {outer : List DeclId} :
      Occurs p root ds place → p.label? place = some label → label.used? = some v →
      Reaches p v ds (d :: outer) → Captured p root d v
  /-- by a use of a callable that captures it -/
  | through {ds : List DeclId} {place : Place} {label : Label} {callee g : DeclId} {v : ValueId}
      {d : DeclId} {outer : List DeclId} :
      Occurs p root ds place → p.label? place = some label → label.callee? = some callee →
      p.Draws callee g → Captured p root g v → Reaches p v ds (d :: outer) → Captured p root d v

/-- A family of closures holds what the rules ask for. -/
structure ObeysCapture (p : Program) (root : DeclId) (C : DeclId → Set ValueId) : Prop where
  /-- every use passes the value -/
  use : ∀ {ds place label v d outer}, Occurs p root ds place → p.label? place = some label →
    label.used? = some v → Reaches p v ds (d :: outer) → v ∈ C d
  /-- every use of a callable passes what the callable needs -/
  through : ∀ {ds place label callee g v d outer}, Occurs p root ds place →
    p.label? place = some label →
    label.callee? = some callee → p.Draws callee g → v ∈ C g → Reaches p v ds (d :: outer) → v ∈ C d

/-- **What is captured is the least family that obeys the rules.** -/
theorem captured_isLeast (p : Program) (root : DeclId) :
    IsLeast {C | ObeysCapture p root C} fun d => {v | Captured p root d v} := by
  constructor
  · exact ⟨Captured.use, Captured.through⟩
  · intro C hC d v hv
    induction hv with
    | use hocc hlabel hused hreach => exact hC.use hocc hlabel hused hreach
    | through hocc hlabel hcallee hdraws _ hreach ih =>
      exact hC.through hocc hlabel hcallee hdraws ih hreach

/-! ## §3. How far a value is passed. -/

namespace Reaches

variable {p : Program} {v : ValueId}

theorem ne_nil (h : Reaches p v ds rest) : rest ≠ [] := by
  cases h <;> simp

/-- The scopes that a value is passed to are the last of those open. -/
theorem suffix (h : Reaches p v ds rest) : rest <:+ ds := by
  induction h with
  | innermost _ => exact List.suffix_rfl
  | outwards _ _ ih => exact (List.suffix_cons _ _).trans ih

/-- Passing does not depend on the scopes further out. -/
theorem append_iff (outer : List DeclId) (hrest : rest ≠ []) :
    Reaches p v (ds ++ outer) (rest ++ outer) ↔ Reaches p v ds rest := by
  constructor
  · intro h
    generalize hs : ds ++ outer = ss at h
    generalize hr : rest ++ outer = rr at h
    induction h generalizing ds rest with
    | @innermost d ss hext =>
      obtain rfl : ds = rest := List.append_cancel_right (hs.trans hr.symm)
      cases ds with
      | nil => exact absurd rfl hrest
      | cons a as =>
        obtain ⟨rfl, -⟩ := List.cons.inj hs
        exact .innermost hext
    | @outwards ss d d' far hreach howns ih =>
      cases rest with
      | nil => exact absurd rfl hrest
      | cons a as =>
        obtain ⟨rfl, rfl⟩ := List.cons.inj hr
        have hprev : d :: a :: as ≠ [] := by simp
        exact .outwards (ih hprev hs rfl) howns
  · intro h
    induction h with
    | innermost hext => exact .innermost hext
    | outwards _ howns ih => exact .outwards (ih (by simp)) howns

/-- A value leaves a scope for the next one out unless that one owns it. -/
theorem outwards_iff {d' : DeclId} (hds : d :: d' :: outer <:+ ds) :
    Reaches p v ds (d' :: outer) ↔ Reaches p v ds (d :: d' :: outer) ∧ ¬ p.Owns d' v := by
  constructor
  · intro h
    cases h with
    | innermost _ =>
      have hlen := hds.length_le
      simp at hlen
    | @outwards _ a _ _ hreach howns =>
      -- both are the same number of scopes at the end of `ds`
      have heq : d :: d' :: outer = a :: d' :: outer :=
        (List.suffix_of_suffix_length_le hds hreach.suffix (by simp)).eq_of_length (by simp)
      obtain rfl := (List.cons.inj heq).1
      exact ⟨hreach, howns⟩
  · rintro ⟨hreach, howns⟩
    exact .outwards hreach howns

/-- The innermost scope is reached exactly by what is external to it. -/
theorem innermost_iff : Reaches p v (d :: ds) (d :: ds) ↔ p.External d v := by
  constructor
  · intro h
    cases h with
    | innermost hext => exact hext
    | outwards hreach _ =>
      have hlen := hreach.suffix.length_le
      simp at hlen
  · exact .innermost

end Reaches

/-! ## §4. Occurrences in a tree. -/

namespace Tree

mutual
/-- The labels of a tree, each with the scopes open around it. -/
def occurrences (ds : List DeclId) : Tree → List (List DeclId × Label)
  | .missing => []
  | .endless => []
  | .node label below => (ds, label) :: occurrencesAll (label.scopes ds) below
/-- The labels of trees that stand under the same scopes. -/
def occurrencesAll (ds : List DeclId) : List Tree → List (List DeclId × Label)
  | [] => []
  | t :: ts => t.occurrences ds ++ occurrencesAll ds ts
end

theorem mem_occurrencesAll {x : List DeclId × Label} :
    x ∈ occurrencesAll ds ts ↔ ∃ t ∈ ts, x ∈ t.occurrences ds := by
  induction ts with
  | nil => simp [occurrencesAll]
  | cons t ts ih => simp [occurrencesAll, ih]

theorem occurrences_sublist (h : t ∈ ts) : (t.occurrences ds).Sublist (occurrencesAll ds ts) := by
  induction ts with
  | nil => cases h
  | cons u ts ih =>
    rcases List.mem_cons.1 h with rfl | h
    · exact List.sublist_append_left _ _
    · exact (ih h).trans (List.sublist_append_right _ _)

/-- Scopes further out are added to every occurrence. -/
theorem occurrences_append (t : Tree) (ds outer : List DeclId) :
    t.occurrences (ds ++ outer) = (t.occurrences ds).map fun x => (x.1 ++ outer, x.2) := by
  induction t using Tree.induct generalizing ds with
  | missing => rfl
  | endless => rfl
  | node label below ih =>
    have all : ∀ (ts : List Tree) (ds : List DeclId), (∀ t ∈ ts, t ∈ below) →
        occurrencesAll (ds ++ outer) ts = (occurrencesAll ds ts).map fun x =>
        (x.1 ++ outer, x.2) := by
      intro ts ds hts
      induction ts with
      | nil => rfl
      | cons t ts iht =>
        simp only [occurrencesAll, List.map_append]
        rw [ih t (hts t List.mem_cons_self) ds, iht fun u hu => hts u (List.mem_cons_of_mem _ hu)]
    simp only [occurrences, List.map_cons]
    rw [label.scopes_append, all below _ fun _ h => h]

theorem occurrencesAll_append (ts : List Tree) (ds outer : List DeclId) :
    occurrencesAll (ds ++ outer) ts = (occurrencesAll ds ts).map fun x => (x.1 ++ outer, x.2) := by
  induction ts with
  | nil => rfl
  | cons t ts ih => simp only [occurrencesAll, List.map_append, occurrences_append, ih]

/-- The scopes around a tree are open at all its occurrences. -/
theorem suffix_of_mem {x : List DeclId × Label} (hx : x ∈ occurrencesAll ds ts) : ds <:+ x.1 := by
  rw [← List.nil_append ds, occurrencesAll_append] at hx
  obtain ⟨y, -, rfl⟩ := List.mem_map.1 hx
  exact List.suffix_append _ _

end Tree

namespace Occurs

variable {p : Program} {root : DeclId} {content : Declaration} {ts : List Tree}

/-- With a place its whole tree occurs below the root. -/
theorem exists_tree (hroot : p.decls.get? root = some content)
    (hts : Tree.ReadsAll p .nested ts content.parts) (h : Occurs p root ds place) :
    ∃ t : Tree, t.Reads p .nested place
      ∧ (t.occurrences ds).Sublist (Tree.occurrencesAll [] ts) := by
  induction h with
  | part hroot' hplace =>
    obtain rfl := Option.mem_unique hroot hroot'
    obtain ⟨t, ht, hr⟩ := hts.exists_tree hplace
    exact ⟨t, hr, Tree.occurrences_sublist ht⟩
  | inner _ hlabel hplace ih =>
    obtain ⟨t, hr, hsub⟩ := ih
    obtain ⟨label', below, rfl, hlabel', hbelow⟩ := hr.exists_node
    obtain rfl := Option.mem_unique hlabel hlabel'
    obtain ⟨u, hu, hur⟩ := hbelow.exists_tree hplace
    exact ⟨u, hur, ((Tree.occurrences_sublist hu).cons _).trans hsub⟩

/-- What occurs below a root occurs in the trees of its parts. -/
theorem mem_occurrencesAll (hroot : p.decls.get? root = some content)
    (hts : Tree.ReadsAll p .nested ts content.parts) (h : Occurs p root ds place)
    (hlabel : p.label? place = some label) : (ds, label) ∈ Tree.occurrencesAll [] ts := by
  obtain ⟨t, hr, hsub⟩ := h.exists_tree hroot hts
  obtain ⟨label', below, rfl, hlabel', -⟩ := hr.exists_node
  obtain rfl := Option.mem_unique hlabel hlabel'
  exact hsub.subset (by simp [Tree.occurrences])

/-- What occurs in the tree of a place below a root occurs below the root. -/
theorem of_mem_occurrences : ∀ {ds : List DeclId} {place : Place}, Occurs p root ds place →
    t.Reads p .nested place → ∀ x ∈ t.occurrences ds,
    ∃ place', Occurs p root x.1 place' ∧ p.label? place' = some x.2 := by
  induction t using Tree.induct with
  | missing => intro ds place _ hr; exact absurd hr (by simp [Tree.Reads])
  | endless => intro ds place _ hr; exact absurd hr (by simp [Tree.Reads])
  | node label below ih =>
    intro ds place hocc hr x hx
    rcases List.mem_cons.1 hx with rfl | hx
    · exact ⟨place, hocc, hr.1⟩
    · obtain ⟨u, hu, hxu⟩ := Tree.mem_occurrencesAll.1 hx
      obtain ⟨q, hq, hur⟩ := Tree.ReadsAll.exists_place hr.2 hu
      exact ih u hu (.inner hocc hr.1 hq) hur x hxu

/-- **What occurs below a root is what occurs in the trees of its parts.** -/
theorem iff_mem (hroot : p.decls.get? root = some content)
    (hts : Tree.ReadsAll p .nested ts content.parts) :
    (∃ place, Occurs p root ds place ∧ p.label? place = some label)
      ↔ (ds, label) ∈ Tree.occurrencesAll [] ts := by
  constructor
  · rintro ⟨place, h, hlabel⟩
    exact h.mem_occurrencesAll hroot hts hlabel
  · intro h
    obtain ⟨t, ht, hx⟩ := Tree.mem_occurrencesAll.1 h
    obtain ⟨q, hq, hr⟩ := hts.exists_place ht
    exact of_mem_occurrences (.part hroot hq) hr _ hx

/-- The declarations that open scopes below a root, read off the trees of its parts. -/
theorem opens_iff (hroot : p.decls.get? root = some content)
    (hts : Tree.ReadsAll p .nested ts content.parts) :
    Opens p root d ↔ ∃ x ∈ Tree.occurrencesAll [] ts, ∃ content,
      x.2.opened? = some (d, content) := by
  constructor
  · rintro ⟨ds, place, label, content, hocc, hlabel, hopened⟩
    exact ⟨_, hocc.mem_occurrencesAll hroot hts hlabel, content, hopened⟩
  · rintro ⟨x, hx, content, hopened⟩
    obtain ⟨place, hocc, hlabel⟩ := (iff_mem hroot hts).2 hx
    exact ⟨x.1, place, x.2, content, hocc, hlabel, hopened⟩

/-- Whatever opens a scope below a root satisfies what all openings in its unfolding satisfy. -/
theorem forall_opens_of_complete {fuel : Nat} (hroot : p.decls.get? root = some content)
    (hcomplete : (p.unfoldUpTo .nested fuel (.decl root)).complete = true) {P : DeclId → Prop}
    (h : ∀ x ∈ Tree.occurrencesAll [] (p.unfoldUpTo .nested fuel (.decl root)).children,
      ∀ y ∈ x.2.opened?.toList, P y.1) :
    ∀ d, Opens p root d → P d := by
  intro d hopens
  have hts := Program.readsAll_parts (Program.reads_unfoldUpTo hcomplete) hroot
  obtain ⟨x, hx, content, hopened⟩ := (opens_iff hroot hts).1 hopens
  exact h x hx (d, content) (by simp [hopened])

/-- What stands under a scope stands below the declaration that opens it, and the declaration stands
under the scopes further out. -/
theorem inside (h : Occurs p root ds place) :
    ∀ {rel}, ds = rel ++ d :: outer → Occurs p d rel place ∧ Opens p root d := by
  induction h with
  | part _ _ => intro rel h; simp at h
  | @inner ds q place label hocc hlabel hplace ih =>
    intro rel hds
    cases hopened : label.opened? with
    | none =>
      have hscopes : ∀ l, label.scopes l = l := fun l => by simp [Label.scopes, hopened]
      obtain ⟨hin, hopens⟩ := ih ((hscopes ds).symm.trans hds)
      exact ⟨hscopes rel ▸ .inner hin hlabel hplace, hopens⟩
    | some x =>
      obtain ⟨d', content⟩ := x
      obtain ⟨hd', -, hparts⟩ := Program.opened_of_label hlabel hopened
      have hscopes : ∀ l, label.scopes l = d' :: l := fun l => by simp [Label.scopes, hopened]
      rw [hscopes] at hds
      cases rel with
      | nil =>
        obtain ⟨rfl, rfl⟩ := List.cons.inj hds
        exact ⟨.part hd' (hparts .nested ▸ hplace), ds, q, label, content, hocc, hlabel, hopened⟩
      | cons a as =>
        obtain ⟨rfl, hds'⟩ := List.cons.inj hds
        obtain ⟨hin, hopens⟩ := ih hds'
        exact ⟨hscopes as ▸ .inner hin hlabel hplace, hopens⟩

/-- Every scope open below the root is opened below it. -/
theorem opens (h : Occurs p root ds place) (hd : d ∈ ds) : Opens p root d := by
  obtain ⟨rel, outer, heq⟩ := List.append_of_mem hd
  exact (h.inside heq).2

/-- What stands below a declaration that opens a scope below the root stands below the root, under
that scope. -/
theorem under {rel : List DeclId} {content : Declaration} {outer : Place}
    (hocc : Occurs p root ds outer) (hlabel : p.label? outer = some label)
    (hopened : label.opened? = some (d, content)) (h : Occurs p d rel place) :
    Occurs p root (rel ++ d :: ds) place := by
  obtain ⟨hd, -, hparts⟩ := Program.opened_of_label hlabel hopened
  have hscopes : label.scopes ds = d :: ds := by simp [Label.scopes, hopened]
  induction h with
  | part hd' hplace =>
    obtain rfl := Option.mem_unique hd hd'
    exact hscopes ▸ .inner hocc hlabel (hparts .nested ▸ hplace)
  | inner _ hlabel' hplace ih => exact Label.scopes_append _ _ _ ▸ .inner ih hlabel' hplace

end Occurs

end LambdaLift
