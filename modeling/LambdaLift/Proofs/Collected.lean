/-
  LambdaLift.Proofs.Collected
  **WHAT IS SORTED INTO WHICH TABLE.**

  Collecting the declarations below a well-shaped root fails only on a
  class that stands in a class and is not inner.  Otherwise each table
  holds exactly the declarations of its kind: functions and classes that a
  statement places, constructors, and the other members and accessors.

  Main results:
    * `WellShaped.below_of_occurs` — collecting reaches everything below the root;
    * `WellShaped.collected` — the tables of a root.
-/
import Mathlib
import LambdaLift.Proofs.Below

namespace LambdaLift

variable {p : Program} {a d q root : DeclId} {ds : List DeclId} {content : Declaration}

/-- Where a computation ends: with an answer of which `ok` holds, or with an error that `err`
allows. -/
def Except.Ends {ε α : Type} (x : Except ε α) (ok : α → Prop) (err : ε → Prop) : Prop :=
  match x with
  | .ok a => ok a
  | .error e => err e

theorem Except.Ends.bind {ε α β : Type} {x : Except ε α} {f : α → Except ε β} {ok : β → Prop}
    {err : ε → Prop} (h : Except.Ends x (fun a => Except.Ends (f a) ok err) err) :
    Except.Ends (x >>= f) ok err := by
  cases x with
  | ok a => exact h
  | error e => exact h

theorem Except.Ends.mono {ε α : Type} {x : Except ε α} {ok ok' : α → Prop} {err err' : ε → Prop}
    (h : Except.Ends x ok err) (hok : ∀ a, ok a → ok' a) (herr : ∀ e, err e → err' e) :
    Except.Ends x ok' err' := by
  cases x with
  | ok a => exact hok a h
  | error e => exact herr e h

namespace Program

/-! ## §1. How declarations stand below a root. -/

/-- A statement below the root places the declaration. -/
def Placed (p : Program) (root d : DeclId) : Prop :=
  ∃ ds e, Occurs p root ds (.expr e) ∧ p.exprs.get? e = some (.decl d)

/-- A class below the root has a member. -/
def MemberBelow (p : Program) (root k m : DeclId) : Prop :=
  ∃ ds c, Occurs p root ds (.decl k) ∧ p.decls.get? k = some (.cls c) ∧ m ∈ c.members

/-- A property below the root has an accessor. -/
def AccessorBelow (p : Program) (root q a : DeclId) : Prop :=
  ∃ ds x, Occurs p root ds (.decl q) ∧ p.decls.get? q = some (.property x)
    ∧ a ∈ x.getter.toList ++ x.setter.toList

theorem Placed.occurs (hd : p.Placed root d) : ∃ ds, Occurs p root ds (.decl d) := by
  obtain ⟨ds, e, hocc, he⟩ := hd
  exact ⟨ds, .inner hocc (label?_eq_expr.2 ⟨rfl, he⟩) (by simp [Label.places])⟩

theorem MemberBelow.occurs {k m : DeclId} (hm : p.MemberBelow root k m) :
    ∃ ds, Occurs p root (k :: ds) (.decl m) := by
  obtain ⟨ds, c, hocc, hk, hm⟩ := hm
  exact ⟨ds,
    .inner hocc (label?_eq_decl.2 ⟨rfl, hk⟩) (by simp [Label.places, Declaration.parts, hm])⟩

theorem AccessorBelow.occurs (ha : p.AccessorBelow root q a) :
    ∃ ds, Occurs p root ds (.decl a) := by
  obtain ⟨ds, x, hocc, hq, ha⟩ := ha
  have hplace : Place.decl a ∈ (Label.decl q (.property x)).places .nested :=
    List.mem_append_left _ (List.mem_map_of_mem ha)
  exact ⟨ds, .inner hocc (label?_eq_decl.2 ⟨rfl, hq⟩) hplace⟩

/-- The tables hold the declarations below a root, each kind in its own. -/
structure Collected (p : Program) (root : DeclId) (l : Locals) : Prop where
  functions : ∀ d, d ∈ l.functions.keys ↔ p.Placed root d ∧ ∃ f, p.decls.get? d = some (.function f)
  classes : ∀ d, d ∈ l.classes.keys ↔ p.Placed root d ∧ ∃ c, p.decls.get? d = some (.cls c)
  constructors : ∀ d, d ∈ l.constructors ↔ ∃ k c, p.MemberBelow root k d
    ∧ p.decls.get? d = some (.constructor c)
  members : ∀ d, d ∈ l.members
    ↔ (∃ k content, p.MemberBelow root k d ∧ p.decls.get? d = some content
      ∧ ∀ c, content ≠ .constructor c) ∨ ∃ q, p.AccessorBelow root q d
  inner : ∀ k m c, p.MemberBelow root k m → p.decls.get? m = some (.cls c) → c.isInner = true

namespace WellShaped

variable {p : Program} {root : DeclId} (h : p.WellShaped root)
include h

/-- Declarations below a root are placed by a statement, or are members or accessors. -/
theorem decl_cases (hocc : Occurs p root ds (.decl d)) :
    (p.Placed root d ∧ p.isMember d = .ok false)
      ∨ (((∃ k, p.MemberBelow root k d) ∨ ∃ q, p.AccessorBelow root q d)
          ∧ p.isMember d = .ok true) := by
  cases h.standing hocc with
  | placed hocc' he => exact .inl ⟨⟨_, _, hocc', he⟩, h.isMember_placed hocc' he⟩
  | member hocc' hk hm => exact .inr ⟨.inl ⟨_, _, _, hocc', hk, hm⟩, h.isMember_member hocc' hk hm⟩
  | accessor hocc' hq ha =>
    exact .inr ⟨.inr ⟨_, _, _, hocc', hq, ha⟩, h.isMember_accessor hocc' hq ha⟩

/-- A statement places functions and classes. -/
theorem placed_kind (hd : p.Placed root d) :
    (∃ f, p.decls.get? d = some (.function f)) ∨ ∃ c, p.decls.get? d = some (.cls c) := by
  obtain ⟨ds, e, hocc, he⟩ := hd
  obtain ⟨content, hd, hplaced⟩ := h.placedIn hocc he
  cases content with
  | function f => exact .inl ⟨f, hd⟩
  | cls c => exact .inr ⟨c, hd⟩
  | constructor c => cases hplaced
  | property q => cases hplaced
  | field f => cases hplaced

/-- Accessors are functions. -/
theorem accessor_kind (ha : p.AccessorBelow root q a) :
    ∃ f, p.decls.get? a = some (.function f) ∧ f.accessorOf = some q := by
  obtain ⟨ds, x, hocc, hq, ha⟩ := ha
  obtain ⟨k, c, -, -, haccessors, -⟩ := h.property_cls hocc hq
  obtain ⟨content, hd, f, hf, -, -, haccessor⟩ := haccessors a ha
  cases content with
  | function g =>
    cases hf
    exact ⟨_, hd, haccessor⟩
  | _ => cases hf

theorem placed_of_isMember (hocc : Occurs p root ds (.decl d))
    (hmember : p.isMember d = .ok false) : p.Placed root d := by
  rcases h.decl_cases hocc with ⟨hplaced, -⟩ | ⟨-, hnot⟩
  · exact hplaced
  · rw [hnot] at hmember
    cases hmember

/-- Constructors are members of classes. -/
theorem memberBelow_of_constructor {c : ConstructorDecl} (hocc : Occurs p root ds (.decl d))
    (hd : p.decls.get? d = some (.constructor c)) : ∃ k, p.MemberBelow root k d := by
  rcases h.decl_cases hocc with ⟨hplaced, -⟩ | ⟨hk | ⟨q, hq⟩, -⟩
  · rcases h.placed_kind hplaced with ⟨f, hf⟩ | ⟨c', hc'⟩
    · cases hd.symm.trans hf
    · cases hd.symm.trans hc'
  · exact hk
  · obtain ⟨f, hf, -⟩ := h.accessor_kind hq
    cases hd.symm.trans hf

/-! ## §2. The tables of a root. -/

/-- **Collecting reaches everything below the root.** -/
theorem below_of_occurs (hocc : Occurs p root ds place) : p.Below root place := by
  induction hocc with
  | part hroot hplace => exact ⟨_, hroot, _, hplace, .refl⟩
  | @inner _ _ _ label hocc hlabel hplace ih =>
    refine ih.tail ⟨label, hlabel, ?_⟩
    cases label with
    | backing b content =>
      have hfield : content.field?.isSome = true := h.wellPlaced hocc hlabel
      cases content with
      | field f => exact hplace
      | _ => cases hfield
    | _ => exact hplace

theorem ends : p.Ends root := by
  obtain ⟨content, hroot, -, hts⟩ := h.exists_root
  refine ⟨content, hroot, fun part hpart => ?_⟩
  obtain ⟨t, -, ht⟩ := hts.exists_tree hpart
  exact bounded_of_reads ht (height_le_depth ht)

/-- A declaration that cannot be sorted is a class in a class and not inner. -/
theorem fault_of_sort {t : Locals.Partial} {f : Fault} (hocc : Occurs p root ds (.decl d))
    (hsort : t.sort p d = .error f) :
    ∃ k m c, p.MemberBelow root k m ∧ p.decls.get? m = some (.cls c)
      ∧ f = .violation .nestedNotInner m := by
  obtain ⟨content, hd, -⟩ := h.exists_kept hocc
  rw [t.sort_eq hd] at hsort
  unfold Locals.Partial.add at hsort
  rcases h.decl_cases hocc with ⟨hplaced, hmember⟩ | ⟨hstands, hmember⟩
  · rw [hmember, Except.ok_bind] at hsort
    rcases h.placed_kind hplaced with ⟨f, hf⟩ | ⟨c, hc⟩
    · obtain rfl := Option.mem_unique hd hf
      cases hsort
    · obtain rfl := Option.mem_unique hd hc
      cases hsort
  · rw [hmember, Except.ok_bind] at hsort
    cases content with
    | cls c =>
      rcases hstands with ⟨k, hk⟩ | ⟨q, hq⟩
      · cases hinner : c.isInner with
        | true =>
          simp only [hinner] at hsort
          cases hsort
        | false =>
          simp only [hinner] at hsort
          cases hsort
          exact ⟨k, d, c, hk, hd, rfl⟩
      · obtain ⟨f, hf, -⟩ := h.accessor_kind hq
        cases hd.symm.trans hf
    | _ => cases hsort

/-- **The tables of a well-shaped root.**  Collecting fails only on a class in a class that is not
inner. -/
theorem collected : Except.Ends (p.locals root) (p.Collected root)
    (fun f => ∃ k m c, p.MemberBelow root k m ∧ p.decls.get? m = some (.cls c)
      ∧ f = .violation .nestedNotInner m) := by
  cases hl : p.locals root with
  | error f =>
    obtain ⟨d, hbelow, t, hsort⟩ := h.ends.exists_sort_of_locals hl
    obtain ⟨ds, hocc⟩ := hbelow.occurs
    exact h.fault_of_sort hocc hsort
  | ok l =>
    obtain ⟨hsorted, hcollects⟩ := locals_spec hl
    refine ⟨fun d => ?_, fun d => ?_, fun d => ?_, fun d => ?_, fun k m c hm hc => ?_⟩
    · rw [hsorted.functions]
      constructor
      · rintro ⟨hbelow, hmember, hf⟩
        obtain ⟨ds, hocc⟩ := hbelow.occurs
        exact ⟨h.placed_of_isMember hocc hmember, hf⟩
      · rintro ⟨hplaced, hf⟩
        obtain ⟨ds, hocc⟩ := hplaced.occurs
        obtain ⟨ds', e, hocc', he⟩ := hplaced
        exact ⟨h.below_of_occurs hocc, h.isMember_placed hocc' he, hf⟩
    · rw [hsorted.classes]
      constructor
      · rintro ⟨hbelow, hmember, hc⟩
        obtain ⟨ds, hocc⟩ := hbelow.occurs
        exact ⟨h.placed_of_isMember hocc hmember, hc⟩
      · rintro ⟨hplaced, hc⟩
        obtain ⟨ds, hocc⟩ := hplaced.occurs
        obtain ⟨ds', e, hocc', he⟩ := hplaced
        exact ⟨h.below_of_occurs hocc, h.isMember_placed hocc' he, hc⟩
    · rw [hsorted.constructors]
      constructor
      · rintro ⟨hbelow, c, hd⟩
        obtain ⟨ds, hocc⟩ := hbelow.occurs
        obtain ⟨k, hk⟩ := h.memberBelow_of_constructor hocc hd
        exact ⟨k, c, hk, hd⟩
      · rintro ⟨k, c, hm, hd⟩
        obtain ⟨ds, hocc⟩ := hm.occurs
        exact ⟨h.below_of_occurs hocc, c, hd⟩
    · rw [hsorted.members]
      constructor
      · rintro ⟨hbelow, hmember, content, hd, hkind⟩
        obtain ⟨ds, hocc⟩ := hbelow.occurs
        rcases h.decl_cases hocc with ⟨-, hnot⟩ | ⟨⟨k, hk⟩ | hq, -⟩
        · rw [hnot] at hmember
          cases hmember
        · exact .inl ⟨k, content, hk, hd, hkind⟩
        · exact .inr hq
      · rintro (⟨k, content, hm, hd, hkind⟩ | ⟨q, hq⟩)
        · obtain ⟨ds, hocc⟩ := hm.occurs
          obtain ⟨ds', c, hocc', hk, hm⟩ := hm
          exact ⟨h.below_of_occurs hocc, h.isMember_member hocc' hk hm, content, hd, hkind⟩
        · obtain ⟨ds, hocc⟩ := hq.occurs
          obtain ⟨f, hd, -⟩ := h.accessor_kind hq
          obtain ⟨ds', x, hocc', hx, ha⟩ := hq
          exact ⟨h.below_of_occurs hocc, h.isMember_accessor hocc' hx ha, .function f, hd, by simp⟩
    · obtain ⟨ds, hocc⟩ := hm.occurs
      obtain ⟨ds', c', hocc', hk, hm⟩ := hm
      have hsome := hcollects.sorts (h.below_of_occurs hocc)
      rw [table?_eq hc (h.isMember_member hocc' hk hm)] at hsome
      simpa [Declaration.table?] using hsome

end WellShaped

end Program

end LambdaLift
