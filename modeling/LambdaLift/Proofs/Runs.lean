/-
  LambdaLift.Proofs.Runs
  **WHAT A RUN HAS LISTED SO FAR.**

  While a run goes on, the list of a container is the list it had, with
  blocks of siblings behind some entries: the last block that was added
  behind an entry stands first.  Each root that was lowered has one block,
  in one container, and neither the root nor its siblings are lowered
  again, because they are bare from then on.

  Main results:
    * `Run.step` — one root more;
    * `Lowering.lower_runs` — a whole run.
-/
import Mathlib
import LambdaLift.Proofs.Bare

namespace LambdaLift

variable {p : Program} {child d root : DeclId} {ds rs : List DeclId} {container : Option DeclId}
  {content : Declaration}

/-! ## §1. Lists with blocks in them. -/

/-- An entry of a list, with the blocks behind it: roots with their siblings. -/
structure Slot where
  entry : DeclId
  blocks : List (DeclId × List DeclId) := []

namespace Slot

/-- All blocks of a list. -/
def blocksOf (ss : List Slot) : List (DeclId × List DeclId) := ss.flatMap (·.blocks)

/-- The list as it stands. -/
def flat (ss : List Slot) : List DeclId := ss.flatMap fun s => s.entry :: s.blocks.flatMap (·.2)

/-- Adds a block right behind the first occurrence of an entry. -/
def add (anchor : DeclId) (block : DeclId × List DeclId) : List Slot → List Slot
  | [] => []
  | s :: ss =>
    if s.entry = anchor then { s with blocks := block :: s.blocks } :: ss
      else s :: add anchor block ss

variable {anchor : DeclId} {new : List DeclId} {block : DeclId × List DeclId} {ss : List Slot}

theorem entries_add : (add anchor block ss).map (·.entry) = ss.map (·.entry) := by
  induction ss with
  | nil => rfl
  | cons s ss ih =>
    unfold add
    split
    · rfl
    · simp [ih]

theorem insertAfter_append {before rest : List DeclId} (h : anchor ∉ before) :
    insertAfter anchor new (before ++ rest) = (insertAfter anchor new rest).map (before ++ ·) := by
  induction before with
  | nil => simp
  | cons d before ih =>
    have hd : d ≠ anchor := fun heq => h (heq ▸ List.mem_cons_self)
    have hrest : anchor ∉ before := fun hmem => h (List.mem_cons_of_mem _ hmem)
    simp only [List.cons_append, insertAfter, hd, if_false, ih hrest, Option.map_map]
    rfl

/-- **Inserting after an entry adds a block behind it**, if no block holds the entry. -/
theorem insertAfter_flat (root : DeclId) (hblocks : ∀ b ∈ blocksOf ss, anchor ∉ b.2)
    (h : insertAfter anchor new (flat ss) = some ds) :
    ds = flat (add anchor (root, new) ss)
      ∧ (blocksOf (add anchor (root, new) ss)).Perm ((root, new) :: blocksOf ss)
      ∧ ∀ s ∈ add anchor (root, new) ss, ∀ b ∈ s.blocks, (b = (root, new) ∧ s.entry = anchor)
        ∨ ∃ s' ∈ ss, s'.entry = s.entry ∧ b ∈ s'.blocks := by
  induction ss generalizing ds with
  | nil => cases h
  | cons s ss ih =>
    have hflat : flat (s :: ss) = s.entry :: (s.blocks.flatMap (·.2) ++ flat ss) := by simp [flat]
    rw [hflat] at h
    by_cases hs : s.entry = anchor
    · simp only [insertAfter, hs, if_true] at h
      cases h
      refine ⟨by simp [flat, add, hs], by simp [blocksOf, add, hs], fun s' hs' b hb => ?_⟩
      simp only [add, hs, if_true, List.mem_cons] at hs'
      rcases hs' with rfl | hs'
      · rcases List.mem_cons.1 hb with rfl | hb
        · exact .inl ⟨rfl, rfl⟩
        · exact .inr ⟨s, List.mem_cons_self, hs, hb⟩
      · exact .inr ⟨s', List.mem_cons_of_mem _ hs', rfl, hb⟩
    · have hnot : anchor ∉ s.blocks.flatMap (·.2) := by
        intro hmem
        obtain ⟨b, hb, hanchor⟩ := List.mem_flatMap.1 hmem
        exact hblocks b (by simp [blocksOf, hb]) hanchor
      simp only [insertAfter, hs, if_false, insertAfter_append hnot, Option.map_map] at h
      obtain ⟨rest, hrest, rfl⟩ := Option.map_eq_some_iff.1 h
      have hblocks' : ∀ b ∈ blocksOf ss, anchor ∉ b.2 := fun b hb =>
        hblocks b
          (by simp only [blocksOf, List.flatMap_cons, List.mem_append] at hb ⊢; exact .inr hb)
      obtain ⟨rfl, hperm, hslots⟩ := ih hblocks' hrest
      refine ⟨by simp [flat, add, hs], ?_, fun s' hs' b hb => ?_⟩
      · simp only [blocksOf, add, hs, if_false, List.flatMap_cons] at hperm ⊢
        exact (List.Perm.append_left _ hperm).trans List.perm_middle
      · simp only [add, hs, if_false, List.mem_cons] at hs'
        rcases hs' with rfl | hs'
        · exact .inr ⟨s', List.mem_cons_self, rfl, hb⟩
        · rcases hslots s' hs' b hb with hnew | ⟨s'', hs'', hentry, hb'⟩
          · exact .inl hnew
          · exact .inr ⟨s'', List.mem_cons_of_mem _ hs'', hentry, hb'⟩

theorem mem_flat : d ∈ flat ss ↔ d ∈ ss.map (·.entry) ∨ ∃ b ∈ blocksOf ss, d ∈ b.2 := by
  simp only [flat, blocksOf, List.mem_flatMap, List.mem_cons, List.mem_map]
  constructor
  · rintro ⟨s, hs, rfl | ⟨b, hb, hd⟩⟩
    · exact .inl ⟨s, hs, rfl⟩
    · exact .inr ⟨b, ⟨s, hs, hb⟩, hd⟩
  · rintro (⟨s, hs, rfl⟩ | ⟨b, ⟨s, hs, hb⟩, hd⟩)
    · exact ⟨s, hs, .inl rfl⟩
    · exact ⟨s, hs, .inr ⟨b, hb, hd⟩⟩

/-- The blocks of lists of which one has got a block more. -/
theorem mem_blocksOf_update {slots : Option DeclId → List Slot} {c container : Option DeclId}
    {b : DeclId × List DeclId} (hperm : (blocksOf ss).Perm (block :: blocksOf (slots container))) :
    b ∈ blocksOf (Function.update slots container ss c) ↔ b ∈ blocksOf (slots c)
      ∨ c = container ∧ b = block := by
  by_cases hc : c = container
  · subst hc
    rw [Function.update_self, hperm.mem_iff, List.mem_cons]
    simp [or_comm]
  · rw [Function.update_of_ne hc]
    simp [hc]

end Slot

/-! ## §2. What a run has done so far. -/

/-- The accessors of a property. -/
def Declaration.accessors : Declaration → List DeclId
  | .property q => q.getter.toList ++ q.setter.toList
  | _ => []

namespace Except

variable {ε α β : Type}

theorem forall₂_of_mapM {f : α → Except ε β} {as : List α} {bs : List β} (h : as.mapM f = .ok bs) :
    List.Forall₂ (fun a b => f a = .ok b) as bs := by
  induction as generalizing bs with
  | nil =>
    cases h
    exact .nil
  | cons a as ih =>
    rw [List.mapM_cons] at h
    obtain ⟨b, hb, h⟩ := bind_eq_ok.1 h
    obtain ⟨bs', hbs, h⟩ := bind_eq_ok.1 h
    cases h
    exact .cons hb (ih hbs)

end Except

namespace Program

/-- Getters and setters are functions. -/
def AccessorsAreFunctions (p : Program) : Prop :=
  ∀ content ∈ p.decls.entries.toList, ∀ a ∈ content.accessors,
    ((p.decls.get? a).bind (·.function?)).isSome = true

instance (p : Program) : Decidable p.AccessorsAreFunctions := by
  unfold AccessorsAreFunctions
  infer_instance

variable {p p' : Program}

theorem AccessorsAreFunctions.function (h : p.AccessorsAreFunctions) {d a : DeclId}
    {q : PropertyDecl} (hd : p.decls.get? d = some (.property q))
    (ha : a ∈ q.getter.toList ++ q.setter.toList) : ∃ f, p.decls.get? a = some (.function f) := by
  have hsome := h _ (Arena.mem_entries_of_get? hd) a ha
  cases hcontent : p.decls.get? a with
  | none => simp [hcontent] at hsome
  | some content =>
    cases content with
    | function f => exact ⟨f, rfl⟩
    | _ => simp [hcontent, Declaration.function?] at hsome

/-- The declaration is a callable of the program. -/
def Callable (p : Program) (d : DeclId) : Prop :=
  ∃ content, p.decls.get? d = some content ∧ content.isCallable = true

/-- The declaration is no class, and nothing is left to lift below it. -/
def Done (p : Program) (d : DeclId) : Prop := p.Bare d ∧ ∀ c, p.decls.get? d ≠ some (.cls c)

/-- What a container lists is there. -/
theorem Closed.exists_child (hclosed : p.Closed) (h : p.children container = .ok ds) (hd : d ∈ ds) :
    ∃ content, p.decls.get? d = some content := by
  cases container with
  | none =>
    cases h
    exact Arena.exists_get?_of_lt (hclosed.2.2.2 d hd)
  | some k =>
    obtain ⟨c, hc, rfl⟩ := children_some h hd
    exact hclosed.exists_decl hc (by simp [Declaration.namedDecls, hd])

theorem Relists.trans {p'' : Program} (h : p.Relists p') (h' : p'.Relists p'') : p.Relists p'' := by
  intro d content hd
  obtain ⟨content', hd', rfl | ⟨c, ms, rfl, rfl⟩⟩ := h d content hd
  · exact h' d content' hd'
  · obtain ⟨content'', hd'', rfl | ⟨c', ms', hc', rfl⟩⟩ := h' _ _ hd'
    · exact ⟨_, hd'', .inr ⟨c, ms, rfl, rfl⟩⟩
    · cases hc'
      exact ⟨_, hd'', .inr ⟨c, ms', rfl, rfl⟩⟩

/-- Everything but classes is kept as it is. -/
theorem Relists.get? (h : p.Relists p') (hd : p.decls.get? d = some content)
    (hclass : ∀ c, content ≠ .cls c) : p'.decls.get? d = some content := by
  obtain ⟨content', hd', rfl | ⟨c, ms, rfl, rfl⟩⟩ := h d content hd
  · exact hd'
  · exact absurd rfl (hclass c)

theorem Relists.size_le (h : p.Relists p') : p.decls.size ≤ p'.decls.size := by
  rcases Nat.eq_zero_or_pos p.decls.size with h0 | hpos
  · omega
  · obtain ⟨x, hx⟩ := Arena.exists_get?_of_lt (a := p.decls) (h := ⟨p.decls.size - 1⟩)
      (by show p.decls.size - 1 < p.decls.size; omega)
    obtain ⟨x', hx', -⟩ := h _ _ hx
    have hlt := Arena.lt_size_of_get? hx'
    simp only at hlt
    omega

theorem Callable.not_class (h : p.Callable d) (hr : p.Relists p') :
    ∀ c, p'.decls.get? d ≠ some (.cls c) := by
  obtain ⟨content, hd, hcallable⟩ := h
  have hclass : ∀ c, content ≠ .cls c := by
    rintro c rfl
    cases hcallable
  intro c hc
  exact hclass c (Option.some.inj ((hr.get? hd hclass).symm.trans hc))

/-- What is no class becomes none. -/
theorem Relists.not_class (h : p.Relists p') (hd : p.decls.get? d = some content)
    (hclass : ∀ c, p.decls.get? d ≠ some (.cls c)) : ∀ c, p'.decls.get? d ≠ some (.cls c) := by
  intro c hc
  refine hclass c (hd.trans ?_)
  rw [← hc, h.get? hd fun c' heq => hclass c' (heq ▸ hd)]

/-- A child brings the same roots if lists change. -/
theorem Relists.rootsOf (h : p.Relists p') (hrs : p.rootsOf child = .ok rs) :
    p'.rootsOf child = .ok rs := by
  cases hchild : p.decls.get? child with
  | none =>
    simp only [Program.rootsOf, decl, Arena.lookup, hchild] at hrs
    cases hrs
  | some content =>
    obtain ⟨content', hchild', rfl | ⟨c, ms, rfl, rfl⟩⟩ := h _ _ hchild
    · rw [← hrs]
      simp only [Program.rootsOf, decl, Arena.lookup, hchild, hchild']
    · simp only [Program.rootsOf, decl, Arena.lookup, hchild] at hrs
      cases hrs
      simp only [Program.rootsOf, decl, Arena.lookup, hchild']
      rfl

theorem exists_rootsOf (h : p.decls.get? child = some content) :
    ∃ rs, p.rootsOf child = .ok rs := by
  simp only [Program.rootsOf, decl, Arena.lookup, h]
  cases content <;> exact ⟨_, rfl⟩

/-- A root is a callable. -/
theorem RootIn.callable (haccessors : p.AccessorsAreFunctions) (h : p.RootIn container root) :
    p.Callable root := by
  obtain ⟨ds, child, rs, hds, hchild, hrs, hroot⟩ := h
  obtain ⟨content, hcontent, ⟨rfl, hcallable⟩ | ⟨q, rfl, haccessor⟩⟩ := rootsOf_spec hrs hroot
  · exact ⟨content, hcontent, hcallable⟩
  · obtain ⟨f, hf⟩ := haccessors.function hcontent haccessor
    exact ⟨_, hf, rfl⟩

/-- The roots of a container are those that its children bring. -/
theorem mem_roots (h : p.roots container = .ok rs) : root ∈ rs ↔ p.RootIn container root := by
  obtain ⟨ds, hds, h⟩ := Except.bind_eq_ok.1 h
  obtain ⟨rss, hrss, h⟩ := Except.bind_eq_ok.1 h
  cases h
  have hall := Except.forall₂_of_mapM hrss
  rw [List.mem_flatten]
  constructor
  · rintro ⟨rs, hrs, hroot⟩
    obtain ⟨child, hchild, hroots⟩ := forall₂_left hall hrs
    exact ⟨ds, child, rs, hds, hchild, hroots, hroot⟩
  · rintro ⟨ds', child, rs, hds', hchild, hroots, hroot⟩
    cases hds.symm.trans hds'
    obtain ⟨rs', hrs', hroots'⟩ := forall₂_right hall hchild
    cases hroots.symm.trans hroots'
    exact ⟨rs, hrs', hroot⟩

end Program

namespace Lowering.Listed

open Program

variable {container : Option DeclId} {root : DeclId} {siblings : List DeclId} {p p' : Program}

theorem relists (h : Listed container root siblings p p') : p.Relists p' := by
  rcases h.cases with ⟨-, ds, rfl⟩ | ⟨k, -, hsets⟩
  · exact fun d content hd => ⟨content, hd, .inl rfl⟩
  · exact hsets.relists

theorem size (h : Listed container root siblings p p') : p'.decls.size = p.decls.size := by
  rcases h.cases with ⟨-, ds, rfl⟩ | ⟨k, -, hsets⟩
  · rfl
  · exact hsets.size

/-- Only the container can have changed. -/
theorem get?_of_ne (h : Listed container root siblings p p') (hd : container ≠ some d) :
    p'.decls.get? d = p.decls.get? d := by
  rcases h.cases with ⟨-, ds, rfl⟩ | ⟨k, rfl, hsets⟩
  · rfl
  · exact hsets.others d fun heq => hd (heq ▸ rfl)

theorem children_of_ne (h : Listed container root siblings p p') {c : Option DeclId}
    (hc : c ≠ container) : p'.children c = p.children c := by
  cases c with
  | none =>
    rcases h.cases with ⟨rfl, -⟩ | ⟨k, rfl, hsets⟩
    · exact absurd rfl hc
    · exact congrArg Except.ok hsets.top
  | some d => simp only [children, decl, Arena.lookup, h.get?_of_ne (Ne.symm hc)]

/-- The container lists the siblings after their anchor. -/
theorem children (h : Listed container root siblings p p') :
    ∃ content children children', p.decls.get? root = some content
      ∧ p.children container = .ok children
      ∧ insertAfter (anchorOf root content) siblings children = some children'
      ∧ p'.children container = .ok children' := by
  have hcases := h.cases
  obtain ⟨-, content, children, children', hroot, hchildren, hinsert, hset⟩ := h
  refine ⟨content, children, children', hroot, hchildren, hinsert, ?_⟩
  cases container with
  | none =>
    cases hset
    rfl
  | some k =>
    obtain ⟨heq, -⟩ | ⟨k', hk', hsets⟩ := hcases
    · cases heq
    · cases hk'
      obtain ⟨c, ms, hc, -⟩ := hsets.cls
      simp only [setChildren, modifyDecl, decl, Arena.lookup, hc] at hset
      cases hset
      have hget : (p.decls.set k (.cls { c with members := children' })).get? k
          = some (.cls { c with members := children' }) := by
        rw [Arena.get?_set, if_pos ⟨rfl, Arena.lt_size_of_get? hc⟩]
      have hdecl : (p.setDecl k (.cls { c with members := children' })).decl k
          = .ok (.cls { c with members := children' }) := decl_eq_ok.2 hget
      show (p.setDecl k (.cls { c with members := children' })).children (some k) = _
      simp only [Program.children, hdecl]
      rfl

end Lowering.Listed

open Slot in
/-- A run that started at `P` has come to `p`: lists are as they were up to the blocks in them, each
root in the table has one block, and there is nothing more to lift below the roots in the table and
their siblings. -/
structure Run (P : Program) (slots : Option DeclId → List Slot) (table : Lifted)
    (p : Program) : Prop where
  relists : P.Relists p
  entries : ∀ {c ds}, P.children c = .ok ds → (slots c).map (·.entry) = ds
    ∧ p.children c = .ok (flat (slots c))
  tabled : ∀ {c b}, b ∈ blocksOf (slots c) → b ∈ table.entries
  placed : ∀ {c s b}, s ∈ slots c → b ∈ s.blocks → (∃ ds, P.children c = .ok ds) ∧ P.Callable b.1
    ∧ ∃ content, P.decls.get? b.1 = some content ∧ Lowering.anchorOf b.1 content = s.entry
  listed : ∀ b ∈ table.entries, ∃ c, b ∈ blocksOf (slots c)
  nodup : ∀ c, (blocksOf (slots c)).Nodup
  once : ∀ {c c' b}, b ∈ blocksOf (slots c) → b ∈ blocksOf (slots c') → c = c'
  bare : ∀ b ∈ table.entries, p.Bare b.1
  siblings : ∀ b ∈ table.entries, ∀ s ∈ b.2, P.decls.size ≤ s.index ∧ ∃ d content,
    P.decls.get? d = some content
    ∧ p.SiblingWith p.Bare content.parent s
  distinct : (table.entries.flatMap (·.2)).Nodup
  nonempty : ∀ b ∈ table.entries, b.2 ≠ []

namespace Run

open Program Slot Lowering

variable {P p p₁ p₂ q : Program} {slots : Option DeclId → List Slot} {table : Lifted}
  {settings : Settings} {container : Option DeclId} {root : DeclId} {siblings : List DeclId}
  {site : Site} {r : Relocation} {S : Set ExprId}

/-- The slots of a program whose run starts. -/
def startSlots (P : Program) (c : Option DeclId) : List Slot :=
  match P.children c with
  | .ok ds => ds.map fun d => { entry := d }
  | .error _ => []

theorem start (P : Program) : Run P (startSlots P) .empty P := by
  have hblocks : ∀ c, blocksOf (startSlots P c) = [] := by
    intro c
    unfold startSlots
    cases P.children c with
    | ok ds => simp [blocksOf, List.flatMap_map]
    | error f => rfl
  refine ⟨fun d content hd => ⟨content, hd, .inl rfl⟩, fun {c ds} hds => ?_, fun {c b} hb => ?_,
    fun {c s b} hs hb => ?_, by simp [OrderedMap.empty], fun c => by
    rw [hblocks]; exact .nil, fun {c c' b} hb => ?_, by simp [OrderedMap.empty], by
    simp [OrderedMap.empty], by simp [OrderedMap.empty], by simp [OrderedMap.empty]⟩
  · unfold startSlots
    rw [hds]
    simp [flat, List.flatMap_map, Function.comp_def]
  · rw [hblocks] at hb
    cases hb
  · have : b ∈ blocksOf (startSlots P c) := List.mem_flatMap.2 ⟨s, hs, hb⟩
    rw [hblocks] at this
    cases this
  · rw [hblocks] at hb
    cases hb

/-- What a container lists was there, or is a sibling. -/
theorem mem_children (h : Run P slots table p) {ds' : List DeclId}
    (hds : P.children container = .ok ds) (hds' : p.children container = .ok ds') (hd : d ∈ ds') :
    d ∈ ds ∨ ∃ b ∈ table.entries, d ∈ b.2 := by
  obtain ⟨hentries, hflat⟩ := h.entries hds
  obtain rfl : flat (slots container) = ds' := Except.ok.inj (hflat.symm.trans hds')
  rcases mem_flat.1 hd with hd | ⟨b, hb, hd⟩
  · exact .inl (hentries ▸ hd)
  · exact .inr ⟨b, h.tabled hb, hd⟩

/-- A root that the program had from the start is still one. -/
theorem rootIn (h : Run P slots table p) (hin : P.RootIn container root) :
    p.RootIn container root := by
  obtain ⟨ds, child, rs, hds, hchild, hrs, hroot⟩ := hin
  obtain ⟨hentries, hflat⟩ := h.entries hds
  exact ⟨_, child, rs, hflat, mem_flat.2 (.inl (hentries ▸ hchild)), h.relists.rootsOf hrs, hroot⟩

/-- A root is one that the program had from the start, or nothing is left to lift below it. -/
theorem rootIn_cases (h : Run P slots table p) (hclosed : P.Closed)
    (haccessors : P.AccessorsAreFunctions) (hds : P.children container = .ok ds)
    (hin : p.RootIn container root) : P.RootIn container root ∧ P.Callable root ∨ p.Done root := by
  obtain ⟨children, child, rs, hchildren, hchild, hrs, hroot⟩ := hin
  rcases h.mem_children hds hchildren hchild with hold | ⟨b, hb, hsibling⟩
  · obtain ⟨content, hcontent⟩ := hclosed.exists_child hds hold
    obtain ⟨rs', hrs'⟩ := exists_rootsOf hcontent
    obtain rfl : rs' = rs := Except.ok.inj ((h.relists.rootsOf hrs').symm.trans hrs)
    have hin : P.RootIn container root := ⟨ds, child, rs', hds, hold, hrs', hroot⟩
    exact .inl ⟨hin, hin.callable haccessors⟩
  · obtain ⟨content, hcontent, hbrings⟩ := rootsOf_spec hrs hroot
    obtain ⟨-, d, contentD, -, ⟨f, hf, hbare⟩ | ⟨c, hc, -, -⟩⟩ := h.siblings b hb child hsibling
    · obtain rfl : content = .function f := Option.mem_unique hcontent hf
      rcases hbrings with ⟨rfl, -⟩ | ⟨q, heq, -⟩
      · refine .inr ⟨hbare, fun c hc => ?_⟩
        cases hf.symm.trans hc
      · cases heq
    · obtain rfl : content = .cls c := Option.mem_unique hcontent hc
      rcases hbrings with ⟨-, hcallable⟩ | ⟨q, heq, -⟩
      · cases hcallable
      · cases heq

/-- What siblings are listed after was there from the start. -/
theorem exists_anchor (hclosed : P.Closed) (hroot : P.decls.get? root = some content) :
    ∃ outer, P.decls.get? (anchorOf root content) = some outer := by
  cases content with
  | function f =>
    cases haccessor : f.accessorOf with
    | none => exact ⟨_, by simpa [anchorOf, Declaration.function?, haccessor] using hroot⟩
    | some property =>
      obtain ⟨outer, houter⟩ :=
        hclosed.exists_decl hroot (x := property) (by simp [Declaration.namedDecls, haccessor])
      exact ⟨outer, by simpa [anchorOf, Declaration.function?, haccessor] using houter⟩
  | _ => exact ⟨_, by simpa [anchorOf, Declaration.function?] using hroot⟩

/-- A root that has something to lift is not in the table. -/
theorem not_mem_keys (h : Run P slots table p) (hroot : ¬ p.Bare root) : root ∉ table.keys := by
  intro hmem
  obtain ⟨b, hb, rfl⟩ := List.mem_map.1 hmem
  exact hroot (h.bare b hb)

theorem mem_entries_insert (h : Run P slots table p) (hroot : ¬ p.Bare root)
    {b : DeclId × List DeclId} :
    b ∈ (table.insert root siblings).entries ↔ b ∈ table.entries ∨ b = (root, siblings) := by
  rw [OrderedMap.entries_insert (h.not_mem_keys hroot), List.mem_append, List.mem_singleton]

section Step

variable (h : Run P slots table p) (hlowered : Lowered settings root p siblings site r q S p₁)
  (hlisted : Listed container root siblings p₁ p₂)
include h hlowered hlisted

omit h in
/-- Where nothing was left to lift, nothing is. -/
theorem done_of_done (hin : p.RootIn container root) (hroot : ¬ p.Bare root)
    {x : DeclId} (hx : p.Done x) : p₂.Done x := by
  obtain ⟨hbare, hclass⟩ := hx
  refine ⟨hlowered.bare_listed hroot hin hlisted hbare hclass, ?_⟩
  obtain ⟨content, hx, -⟩ := hbare
  exact ((relists_of_keeps hlowered.confined.decls).trans hlisted.relists).not_class hx hclass

/-- Nothing is left to lift in the root. -/
theorem done_root (hcallable : P.Callable root) : p₂.Done root := by
  have hrelists : P.Relists p₁ := h.relists.trans (relists_of_keeps hlowered.confined.decls)
  refine ⟨hlisted.bare_of_plain (hlowered.plain_root ?_) (hcallable.not_class hrelists),
    hcallable.not_class (hrelists.trans hlisted.relists)⟩
  obtain ⟨content, hcontent, hcall⟩ := hcallable
  exact ⟨content, h.relists.get? hcontent (by rintro c rfl; cases hcall), hcall⟩

/-- **The list of the container gets a block** behind the anchor of the root, and no other block. -/
theorem add_block (hclosed : P.Closed) (hds : P.children container = .ok ds)
    (hcontent : P.decls.get? root = some content) (hcall : content.isCallable = true) :
    ∃ ss, ss.map (·.entry) = (slots container).map (·.entry) ∧ p₂.children container = .ok (flat ss)
      ∧ (blocksOf ss).Perm ((root, siblings) :: blocksOf (slots container))
      ∧ ∀ s ∈ ss, ∀ b ∈ s.blocks, (b = (root, siblings) ∧ s.entry = anchorOf root content)
          ∨ ∃ s' ∈ slots container, s'.entry = s.entry ∧ b ∈ s'.blocks := by
  -- siblings are new, and the anchor is not
  have hblocks : ∀ b ∈ blocksOf (slots container), anchorOf root content ∉ b.2 := by
    intro b hb hanchor
    obtain ⟨outer, houter⟩ := exists_anchor hclosed hcontent
    have := (h.siblings b (h.tabled hb) _ hanchor).1
    have := Arena.lt_size_of_get? houter
    omega
  have hroot : p₁.decls.get? root = some content :=
    (h.relists.trans (relists_of_keeps hlowered.confined.decls)).get? hcontent
      (by rintro c rfl; cases hcall)
  obtain ⟨content₁, children, children', hroot₁, hchildren, hinsert, hchildren'⟩ := hlisted.children
  obtain rfl : content = content₁ := Option.mem_unique hroot hroot₁
  obtain rfl : flat (slots container) = children :=
    Except.ok.inj <|
      (keepsLists_of_confined hlowered.confined _ _ (h.entries hds).2).symm.trans hchildren
  obtain ⟨rfl, hperm, hslots⟩ := insertAfter_flat root hblocks hinsert
  exact ⟨_, entries_add, hchildren', hperm, hslots⟩

/-- Siblings have nothing more to lift in them, those from before and those of the root. -/
theorem siblings_insert (hds : P.children container = .ok ds) (hcallable : P.Callable root)
    (hin : p.RootIn container root) (hroot : ¬ p.Bare root) :
    ∀ b ∈ (table.insert root siblings).entries, ∀ s ∈ b.2, P.decls.size ≤ s.index
      ∧ ∃ d content, P.decls.get? d = some content ∧ p₂.SiblingWith p₂.Bare content.parent s := by
  -- the container was there from the start, so no sibling is it
  have hsame : ∀ {s content'}, P.decls.size ≤ s.index → p₁.decls.get? s = some content' →
      p₂.decls.get? s = some content' := by
    intro s content' hlow hs
    rwa [hlisted.get?_of_ne]
    rintro rfl
    obtain ⟨outer, hs, -⟩ := Except.bind_eq_ok.1 hds
    have := Arena.lt_size_of_get? (decl_eq_ok.1 hs)
    omega
  intro b hb s hs
  rcases (h.mem_entries_insert hroot).1 hb with hold | rfl
  · obtain ⟨hlow, d, content, hd, hsibling⟩ := h.siblings b hold s hs
    refine ⟨hlow, d, content, hd,
      hsibling.transfer (fun content' hs' => ?_) (fun x content' hx hclass => ?_)
      fun x hx hxbare => hlowered.bare_listed hroot hin hlisted hxbare hx⟩
    · exact hsame hlow (hlowered.confined.decls _ _ hs')
    · exact ((relists_of_keeps hlowered.confined.decls).trans hlisted.relists).get? hx hclass
  · obtain ⟨content, hcontent, hcall⟩ := hcallable
    obtain ⟨hlow, hsibling⟩ := hlowered.plain_sibling hs
    have hlow' : P.decls.size ≤ s.index := h.relists.size_le.trans hlow
    rw [h.relists.get? hcontent (by rintro c rfl; cases hcall)] at hsibling
    exact ⟨hlow', root, content, hcontent, hsibling.transfer (fun content' => hsame hlow')
      (fun x content' hx hclass => hlisted.relists.get? hx hclass) fun x hx hxplain =>
      hlisted.bare_of_plain hxplain hx⟩

omit hlisted in
/-- The siblings of the root are no siblings from before. -/
theorem distinct_insert (hroot : ¬ p.Bare root) :
    ((table.insert root siblings).entries.flatMap (·.2)).Nodup := by
  rw [OrderedMap.entries_insert (h.not_mem_keys hroot), List.flatMap_append, List.nodup_append]
  refine ⟨h.distinct, by simpa using hlowered.siblings_nodup, ?_⟩
  rintro s hs _ hs' rfl
  obtain ⟨b, hb, hsb⟩ := List.mem_flatMap.1 hs
  have hnew := (hlowered.plain_sibling (by simpa using hs')).1
  -- earlier siblings have entries before the root is lowered
  obtain ⟨-, d, content, -, ⟨f, hf, -⟩ | ⟨c, hc, -⟩⟩ := h.siblings b hb s hsb
  · have := Arena.lt_size_of_get? hf
    omega
  · have := Arena.lt_size_of_get? hc
    omega

/-- **One root more**: its siblings are a new block behind its anchor, and it is bare with them from
then on. -/
theorem step (hclosed : P.Closed) (hds : P.children container = .ok ds)
    (hcallable : P.Callable root) (hin : p.RootIn container root) (hroot : ¬ p.Bare root) :
    (∃ slots', Run P slots' (table.insert root siblings) p₂) ∧ p₂.Done root
      ∧ ∀ x, p.Done x → p₂.Done x := by
  have hdone : p₂.Done root := h.done_root hlowered hlisted hcallable
  have hstill : ∀ x, p.Done x → p₂.Done x := fun x => done_of_done hlowered hlisted hin hroot
  refine ⟨?_, hdone, hstill⟩
  obtain ⟨content, hcontent, hcall⟩ := hcallable
  obtain ⟨ss, hentries, hchildren, hperm, hslots⟩ :=
    h.add_block hlowered hlisted hclosed hds hcontent hcall
  have hfresh : ∀ c, (root, siblings) ∉ blocksOf (slots c) := fun c hb =>
    h.not_mem_keys hroot (List.mem_map_of_mem (h.tabled hb))
  -- only the slots of the container change, by one block that no slot had
  refine ⟨Function.update slots container ss, ?_⟩
  exact {
    relists := (h.relists.trans (relists_of_keeps hlowered.confined.decls)).trans hlisted.relists
    entries := by
      intro c ds' hds'
      obtain ⟨hold, hflat⟩ := h.entries hds'
      by_cases hc : c = container
      · subst hc
        rw [Function.update_self, hentries]
        exact ⟨hold, hchildren⟩
      · rw [Function.update_of_ne hc, hlisted.children_of_ne hc]
        exact ⟨hold, keepsLists_of_confined hlowered.confined _ _ hflat⟩
    tabled := fun {c b} hb => (h.mem_entries_insert hroot).2 <|
      ((mem_blocksOf_update hperm).1 hb).imp h.tabled And.right
    placed := by
      intro c s b hs hb
      by_cases hc : c = container
      · subst hc
        rw [Function.update_self] at hs
        rcases hslots s hs b hb with ⟨rfl, hentry⟩ | ⟨s', hs', hentry, hb'⟩
        · exact ⟨⟨ds, hds⟩, ⟨content, hcontent, hcall⟩, content, hcontent, hentry.symm⟩
        · exact hentry ▸ h.placed hs' hb'
      · rw [Function.update_of_ne hc] at hs
        exact h.placed hs hb
    listed := by
      intro b hb
      rcases (h.mem_entries_insert hroot).1 hb with hold | rfl
      · obtain ⟨c, hc⟩ := h.listed b hold
        exact ⟨c, (mem_blocksOf_update hperm).2 (.inl hc)⟩
      · exact ⟨container, (mem_blocksOf_update hperm).2 (.inr ⟨rfl, rfl⟩)⟩
    nodup := by
      intro c
      by_cases hc : c = container
      · subst hc
        rw [Function.update_self]
        exact hperm.nodup_iff.2 (List.nodup_cons.2 ⟨hfresh c, h.nodup c⟩)
      · rw [Function.update_of_ne hc]
        exact h.nodup c
    once := by
      intro c c' b hb hb'
      rcases (mem_blocksOf_update hperm).1 hb with hold | ⟨rfl, rfl⟩
      · rcases (mem_blocksOf_update hperm).1 hb' with hold' | ⟨rfl, rfl⟩
        · exact h.once hold hold'
        · exact absurd hold (hfresh c)
      · rcases (mem_blocksOf_update hperm).1 hb' with hold' | ⟨rfl, -⟩
        · exact absurd hold' (hfresh c')
        · rfl
    bare := by
      intro b hb
      rcases (h.mem_entries_insert hroot).1 hb with hold | rfl
      · obtain ⟨c, hc⟩ := h.listed b hold
        obtain ⟨s, hs, hbs⟩ := List.mem_flatMap.1 hc
        exact (hstill b.1 ⟨h.bare b hold, (h.placed hs hbs).2.1.not_class h.relists⟩).1
      · exact hdone.1
    siblings := h.siblings_insert hlowered hlisted hds ⟨content, hcontent, hcall⟩ hin hroot
    distinct := h.distinct_insert hlowered hroot
    nonempty := by
      intro b hb
      rcases (h.mem_entries_insert hroot).1 hb with hold | rfl
      · exact h.nonempty b hold
      · exact hlowered.siblings_ne_nil hroot }

end Step

end Run

/-! ## §3. A whole run. -/

namespace Program

/-- The classes in a declaration are classes, and have what passes on from a class to its
members. -/
theorem of_classesUpTo {Q : DeclId → Prop}
    (hQ : ∀ {k c m}, Q k → p.decls.get? k = some (.cls c) → m ∈ c.members → Q m) {fuel : Nat}
    {ks : List DeclId} (h : p.classesUpTo fuel d = .ok ks) (hd : Q d) :
    ∀ k ∈ ks, Q k ∧ ∃ c, p.decls.get? k = some (.cls c) := by
  induction fuel generalizing d ks with
  | zero => cases h
  | succ fuel ih =>
    obtain ⟨content, hcontent, h⟩ := Except.bind_eq_ok.1 h
    rw [decl_eq_ok] at hcontent
    cases content with
    | cls c =>
      obtain ⟨kss, hkss, h⟩ := Except.bind_eq_ok.1 h
      cases h
      intro k hk
      rcases List.mem_append.1 hk with hk | hk
      · obtain ⟨ks, hks, hk⟩ := List.mem_flatten.1 hk
        obtain ⟨m, hm, hkm⟩ := forall₂_left (Except.forall₂_of_mapM hkss) hks
        exact ih hkm (hQ hd hcontent hm) k hk
      · cases List.mem_singleton.1 hk
        exact ⟨hd, c, hcontent⟩
    | _ =>
      cases h
      rintro k ⟨⟩

/-- A container is the module, or a class with what passes on from a class to its members. -/
theorem of_mem_containers {Q : DeclId → Prop} (htop : ∀ d ∈ p.top, Q d)
    (hQ : ∀ {k c m}, Q k → p.decls.get? k = some (.cls c) → m ∈ c.members → Q m)
    {cs : List (Option DeclId)} (h : p.containers = .ok cs) (hmem : container ∈ cs) :
    container = none ∨ ∃ k c, container = some k ∧ Q k ∧ p.decls.get? k = some (.cls c) := by
  obtain ⟨kss, hkss, h⟩ := Except.bind_eq_ok.1 h
  cases h
  rcases List.mem_append.1 hmem with hmem | hmem
  · obtain ⟨k, hk, rfl⟩ := List.mem_map.1 hmem
    obtain ⟨ks, hks, hk⟩ := List.mem_flatten.1 hk
    obtain ⟨d, hd, hkd⟩ := forall₂_left (Except.forall₂_of_mapM hkss) hks
    obtain ⟨hk, c, hc⟩ := of_classesUpTo hQ hkd (htop d hd) k hk
    exact .inr ⟨k, c, rfl, hk, hc⟩
  · exact .inl (List.mem_singleton.1 hmem)

theorem mem_containers {cs : List (Option DeclId)} (h : p.containers = .ok cs)
    (hmem : container ∈ cs) :
    container = none ∨ ∃ k c, container = some k ∧ p.decls.get? k = some (.cls c) := by
  simpa using of_mem_containers (Q := fun _ => True) (fun _ _ => trivial)
    (fun _ _ _ => trivial) h hmem

theorem exists_children_of_mem {cs : List (Option DeclId)} (h : p.containers = .ok cs)
    (hmem : container ∈ cs) : ∃ ds, p.children container = .ok ds := by
  obtain rfl | ⟨k, c, rfl, hc⟩ := mem_containers h hmem
  · exact ⟨p.top, rfl⟩
  · exact ⟨c.members, by simp only [children, decl, Arena.lookup, hc]; rfl⟩

/-- A container of `P` is settled in a later program: it stood in a body, or nothing is left to lift
below its roots. -/
def Settled (P : Program) (container : Option DeclId) (p : Program) : Prop :=
  (∃ q, P.Relists q ∧ Lowering.isNested q container = .ok true)
    ∨ ∀ root, P.RootIn container root → p.Done root

theorem Settled.mono {P p' : Program} (h : P.Settled container p)
    (hdone : ∀ x, p.Done x → p'.Done x) : P.Settled container p' :=
  h.imp id fun hroots root hin => hdone root (hroots root hin)

end Program

namespace Lowering

open Program

variable {P : Program} {settings : Settings} {container : Option DeclId} {root : DeclId}
  {lifted : Lifted} {w : Work}

/-- A root is lowered and listed; what was done stays done. -/
theorem lowerListed_runs (hrun : ∃ slots, Run P slots lifted w.program) (hclosed : P.Closed)
    (hroot : P.RootIn container root ∧ P.Callable root ∨ w.program.Done root) :
    (lowerListed settings container lifted root).Leaves w (fun lifted' w' =>
      (∃ slots, Run P slots lifted' w'.program) ∧ w'.program.Done root
        ∧ ∀ x, w.program.Done x → w'.program.Done x) fun _ => True := by
  obtain ⟨slots, hrun⟩ := hrun
  refine (lowerListed_leaves settings container lifted root w).mono ?_
  rintro _ w' (⟨rfl, rfl, hempty⟩ | ⟨siblings, site, r, q, S, p₁, rfl, hfull, hlowered, hlisted⟩)
  · have hbare : w'.program.Bare root := bare_iff_locals.2 hempty
    exact ⟨⟨slots, hrun⟩,
      hroot.elim (fun hold => ⟨hbare, hold.2.not_class hrun.relists⟩) id, fun _ => id⟩
  · have hbare := hlowered.not_bare hfull
    obtain ⟨hin, hcallable⟩ := hroot.resolve_right fun hdone => hbare hdone.1
    have hstart := hrun.rootIn hin
    obtain ⟨ds, child, rs, hds, -⟩ := hin
    exact hrun.step hlowered hlisted hclosed hds hcallable hstart hbare

/-- A container is settled; what was done stays done. -/
theorem lowerContainer_runs (hrun : ∃ slots, Run P slots lifted w.program) (hclosed : P.Closed)
    (haccessors : P.AccessorsAreFunctions) (hds : P.children container = .ok ds) :
    (lowerContainer settings lifted container).Leaves w (fun lifted' w' =>
      (∃ slots, Run P slots lifted' w'.program) ∧ P.Settled container w'.program
        ∧ ∀ x, w.program.Done x → w'.program.Done x) fun _ => True := by
  obtain ⟨slots, hstart⟩ := hrun
  refine .bind (.program (.bind (.ask (fun nested hnested => ?_) trivial)))
  split
  · next htrue =>
    subst htrue
    exact .pure ⟨⟨slots, hstart⟩, .inl ⟨w.program, hstart.relists, hnested⟩, fun _ => id⟩
  · refine .bind (.program (.bind (.ask (fun roots hroots => ?_) trivial)))
    refine (Step.Yields.foldlM (fun done lifted' w' => (∃ slots, Run P slots lifted' w'.program)
      ∧ (∀ root ∈ done, w'.program.Done root) ∧ ∀ x, w.program.Done x → w'.program.Done x) ?_
      ⟨⟨slots, hstart⟩, by simp, fun _ => id⟩).mono ?_
    · rintro done root rest lifted' w' hlist ⟨hrun, hdone, hstill⟩
      have hmem : root ∈ roots := hlist ▸ List.mem_append_right _ List.mem_cons_self
      have hcases := hstart.rootIn_cases hclosed haccessors hds ((mem_roots hroots).1 hmem)
      refine (lowerListed_runs hrun hclosed (hcases.imp id (hstill root))).mono ?_
      rintro lifted'' w'' ⟨hrun', hroot, hstill'⟩
      refine ⟨hrun', fun x hx => ?_, fun x hx => hstill' x (hstill x hx)⟩
      rcases List.mem_append.1 hx with hx | hx
      · exact hstill' x (hdone x hx)
      · cases List.mem_singleton.1 hx
        exact hroot
    · rintro lifted' w' ⟨hrun, hdone, hstill⟩
      exact ⟨hrun,
        .inr fun root hin => hdone root ((mem_roots hroots).2 (hstart.rootIn hin)), hstill⟩

/-- **A whole run.** -/
theorem lower_runs (settings : Settings) (hclosed : w.program.Closed)
    (haccessors : w.program.AccessorsAreFunctions) :
    (lower settings).Leaves w (fun table w' => (∃ slots, Run w.program slots table w'.program)
      ∧ (∃ cs, w.program.containers = .ok cs ∧ ∀ container ∈ cs,
        w.program.Settled container w'.program)
      ∧ (settings.validate = true → w'.program.check = .ok ())) fun _ => True := by
  refine .bind (.program (.bind (.ask (fun cs hcs => ?_) trivial)))
  refine .bind (Step.Leaves.mono (Step.Yields.foldlM (fun done lifted w' =>
    (∃ slots, Run w.program slots lifted w'.program) ∧ ∀ container ∈ done,
      w.program.Settled container w'.program)
    ?_ ⟨⟨_, .start _⟩, by simp⟩) ?_)
  · rintro done container rest lifted w' hlist ⟨hrun, hsettled⟩
    obtain ⟨ds, hds⟩ :=
      exists_children_of_mem hcs (hlist ▸ List.mem_append_right _ List.mem_cons_self)
    refine (lowerContainer_runs hrun hclosed haccessors hds).mono ?_
    rintro lifted' w'' ⟨hrun', hcontainer, hstill⟩
    refine ⟨hrun', fun c hc => ?_⟩
    rcases List.mem_append.1 hc with hc | hc
    · exact (hsettled c hc).mono hstill
    · cases List.mem_singleton.1 hc
      exact hcontainer
  · rintro lifted w' ⟨hrun, hsettled⟩
    split
    · refine .bind (.program
        (.bind (.ask (fun _ hcheck => .pure ⟨hrun, ⟨cs, hcs, hsettled⟩, fun _ => ?_⟩) trivial)))
      exact hcheck
    · next hoff => exact .pure ⟨hrun, ⟨cs, hcs, hsettled⟩, fun hon => absurd hon hoff⟩

end Lowering

/-! ## §4. A small program. -/

/-- What a step answers, if it does. -/
def Step.answer? {α : Type} (x : Step α) (w : Work) : Option α :=
  match x w with
  | .ok a _ => some a
  | .error _ _ => none

theorem Step.answer?_eq_some {α : Type} {x : Step α} {w : Work} {a : α} :
    x.answer? w = some a ↔ ∃ w', x w = .ok a w' := by
  unfold answer?
  cases x w with
  | ok b w' => simp
  | error f w' => simp

/-- A local function reads a parameter of the function around it, which calls it.

    fun f(n: Int) { fun g() { n }; g() }
-/
def Program.capturing : Program where
  decls := ⟨#[.function { name := .ident "f", parent := none, visibility := .everywhere,
                          params := [⟨0⟩], ret := .unit, body := some ⟨3⟩ },
    .function { name := .ident "g", parent := some ⟨0⟩, visibility := .inBody, ret := .unit,
                body := some ⟨0⟩ }]⟩
  values := ⟨#[{ name := .ident "n", ty := .int, owner := ⟨0⟩, kind := .param 0 }]⟩
  exprs := ⟨#[.get ⟨0⟩, .decl ⟨1⟩, .access .call { callee := ⟨1⟩ }, .block [⟨1⟩, ⟨2⟩]]⟩
  top := [⟨0⟩]

end LambdaLift
