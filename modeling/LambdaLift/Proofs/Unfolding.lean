/-
  LambdaLift.Proofs.Unfolding
  **PROGRAMS AND THE TREES THEY UNFOLD INTO.**

  A walk follows handles to a bounded depth.  When nothing is missing and
  nothing is nested in itself, what stands at a place is a finite tree, the
  bound is never met, and every walk is a plain recursion over that tree.

  Main results:
    * `Tree.height_le_of_reads` — a tree is no higher than its program has
      entries, because no entry stands below itself;
    * `Program.visit_of_reads` — visiting a place is visiting its tree;
    * `Program.exists_reads` — a place below which nothing is missing and
      nothing is nested in itself has a tree.
-/
import Mathlib
import LambdaLift.IR.Tree

namespace LambdaLift

variable {d : DeclId} {content : Declaration} {places : List Place} {ts : List Tree} {fuel : Nat}
  {a b place start : Place} {t : Tree}

/-! ## §1. Lists that correspond. -/

section

variable {α β : Type} {R S : α → β → Prop} {as : List α} {bs : List β}

theorem forall₂_imp_mem (h : List.Forall₂ R as bs) (hRS : ∀ a ∈ as, ∀ b, R a b → S a b) :
    List.Forall₂ S as bs := by
  induction h with
  | nil => exact .nil
  | cons h _ ih =>
    exact .cons (hRS _ List.mem_cons_self _ h) (ih fun a ha => hRS a (List.mem_cons_of_mem _ ha))

theorem forall₂_left (h : List.Forall₂ R as bs) {b : β} (hb : b ∈ bs) : ∃ a ∈ as, R a b := by
  obtain ⟨i, hi, rfl⟩ := List.mem_iff_getElem.1 hb
  have hi' : i < as.length := by rw [h.length_eq]; exact hi
  exact ⟨as[i], List.getElem_mem hi', h.get hi' hi⟩

theorem forall₂_right (h : List.Forall₂ R as bs) {a : α} (ha : a ∈ as) : ∃ b ∈ bs, R a b :=
  forall₂_left h.flip ha

end

/-! ## §2. The tree that stands at a place. -/

namespace Tree

mutual
/-- The tree is what stands at a place, followed to the end. -/
def Reads (p : Program) (reach : Reach) : Tree → Place → Prop
  | .missing, _ => False
  | .endless, _ => False
  | .node label below, place =>
    p.label? place = some label ∧ ReadsAll p reach below (label.places reach)
/-- The trees are what stands at the places, one for one. -/
def ReadsAll (p : Program) (reach : Reach) : List Tree → List Place → Prop
  | [], [] => True
  | t :: ts, place :: places => t.Reads p reach place ∧ ReadsAll p reach ts places
  | [], _ :: _ => False
  | _ :: _, [] => False
end

/-- The trees directly below the root of a tree. -/
def children : Tree → List Tree
  | .node _ below => below
  | _ => []

mutual
/-- Whether nothing is missing in a tree and its nesting ends. -/
def complete : Tree → Bool
  | .missing => false
  | .endless => false
  | .node _ below => completeAll below
/-- Whether nothing is missing in trees. -/
def completeAll : List Tree → Bool
  | [] => true
  | t :: ts => t.complete && completeAll ts
end

mutual
/-- How many entries are nested in each other at most. -/
def height : Tree → Nat
  | .missing => 0
  | .endless => 0
  | .node _ below => heightAll below + 1
/-- The height of the highest tree. -/
def heightAll : List Tree → Nat
  | [] => 0
  | t :: ts => max t.height (heightAll ts)
end

mutual
/-- The number of nodes. -/
def size : Tree → Nat
  | .missing => 1
  | .endless => 1
  | .node _ below => sizeAll below + 1
/-- The number of nodes of all trees. -/
def sizeAll : List Tree → Nat
  | [] => 0
  | t :: ts => t.size + sizeAll ts
end

/-- Induction over trees: what holds of a node when it holds of everything below it holds of every
tree. -/
theorem induct {motive : Tree → Prop} (missing : motive .missing) (endless : motive .endless)
    (node : ∀ label below, (∀ t ∈ below, motive t) → motive (.node label below)) (t : Tree) :
    motive t := by
  refine @Tree.rec motive (fun ts => ∀ t ∈ ts, motive t)
    missing endless node ?_ ?_ t
  · intro u hu
    cases hu
  · intro t ts ht hts u hu
    rcases List.mem_cons.1 hu with rfl | hu
    · exact ht
    · exact hts u hu

variable {p : Program} {reach : Reach}

/-- What is read at a place is a node. -/
theorem Reads.exists_node (h : t.Reads p reach place) :
    ∃ label below, t = .node label below ∧ p.label? place = some label
      ∧ ReadsAll p reach below (label.places reach) := by
  cases t with
  | missing => exact absurd h (by simp [Reads])
  | endless => exact absurd h (by simp [Reads])
  | node label below => exact ⟨label, below, rfl, h.1, h.2⟩

/-- Each of the trees is read at one of the places. -/
theorem ReadsAll.exists_place (h : ReadsAll p reach ts places) (ht : t ∈ ts) :
    ∃ place ∈ places, t.Reads p reach place := by
  induction ts generalizing places with
  | nil => cases ht
  | cons t' ts ih =>
    cases places with
    | nil => exact absurd h (by simp [ReadsAll])
    | cons place places =>
      rcases List.mem_cons.1 ht with rfl | ht
      · exact ⟨place, List.mem_cons_self, h.1⟩
      · obtain ⟨q, hq, hr⟩ := ih h.2 ht
        exact ⟨q, List.mem_cons_of_mem _ hq, hr⟩

/-- At each of the places one of the trees is read. -/
theorem ReadsAll.exists_tree (h : ReadsAll p reach ts places) (hplace : place ∈ places) :
    ∃ t ∈ ts, t.Reads p reach place := by
  induction ts generalizing places with
  | nil =>
    cases places with
    | nil => cases hplace
    | cons q places => exact absurd h (by simp [ReadsAll])
  | cons t ts ih =>
    cases places with
    | nil => cases hplace
    | cons q places =>
      rcases List.mem_cons.1 hplace with rfl | hplace
      · exact ⟨t, List.mem_cons_self, h.1⟩
      · obtain ⟨t', ht', hr⟩ := ih h.2 hplace
        exact ⟨t', List.mem_cons_of_mem _ ht', hr⟩

mutual
/-- A place has at most one tree. -/
theorem Reads.unique : ∀ {t u : Tree} {place : Place},
    t.Reads p reach place → u.Reads p reach place → t = u
  | .node label below, u, place, ht, hu => by
    obtain ⟨label', below', rfl, hlabel, hbelow⟩ := hu.exists_node
    have hl : label = label' := Option.mem_unique ht.1 hlabel
    subst hl
    rw [ReadsAll.unique ht.2 hbelow]
  | .missing, _, _, ht, _ => absurd ht (by simp [Reads])
  | .endless, _, _, ht, _ => absurd ht (by simp [Reads])
/-- Places have at most one list of trees. -/
theorem ReadsAll.unique : ∀ {ts us : List Tree} {places : List Place},
    ReadsAll p reach ts places → ReadsAll p reach us places → ts = us
  | [], us, places, hts, hus => by
    cases places with
    | nil =>
      cases us with
      | nil => rfl
      | cons _ _ => exact absurd hus (by simp [ReadsAll])
    | cons _ _ => exact absurd hts (by simp [ReadsAll])
  | t :: ts, us, places, hts, hus => by
    cases places with
    | nil => exact absurd hts (by simp [ReadsAll])
    | cons place places =>
      cases us with
      | nil => exact absurd hus (by simp [ReadsAll])
      | cons u us => rw [Reads.unique hts.1 hus.1, ReadsAll.unique hts.2 hus.2]
end

theorem size_le_sizeAll (h : t ∈ ts) : t.size ≤ sizeAll ts := by
  induction ts with
  | nil => cases h
  | cons u ts ih =>
    rcases List.mem_cons.1 h with rfl | h
    · simp [sizeAll]
    · have := ih h
      simp only [sizeAll]
      omega

theorem height_le_heightAll (h : t ∈ ts) : t.height ≤ heightAll ts := by
  induction ts with
  | nil => cases h
  | cons u ts ih =>
    rcases List.mem_cons.1 h with rfl | h
    · exact le_max_left _ _
    · exact (ih h).trans (le_max_right _ _)

theorem exists_height_eq (h : 0 < heightAll ts) : ∃ t ∈ ts, t.height = heightAll ts := by
  induction ts with
  | nil => simp [heightAll] at h
  | cons t ts ih =>
    rcases le_total (heightAll ts) t.height with hle | hle
    · exact ⟨t, List.mem_cons_self, by simp [heightAll, hle]⟩
    · rcases Nat.eq_zero_or_pos (heightAll ts) with h0 | hpos
      · exact ⟨t, List.mem_cons_self, by simp only [heightAll] at h ⊢; omega⟩
      · obtain ⟨u, hu, heq⟩ := ih hpos
        exact ⟨u, List.mem_cons_of_mem _ hu, by simp [heightAll, heq, hle]⟩

end Tree

/-! ## §3. No tree is higher than its program has entries. -/

/-- The entry that a place leads to.  A declaration is the same entry in whatever part it stands. -/
def Place.entry : Place → ExprId ⊕ DeclId
  | .expr e => .inl e
  | .decl d => .inr d
  | .backing d => .inr d

/-- Whether the entry of a place is there. -/
def Program.HasEntry (p : Program) : ExprId ⊕ DeclId → Prop
  | .inl e => e.index < p.exprs.size
  | .inr d => d.index < p.decls.size

namespace Program

variable {p : Program} {reach : Reach}

theorem label?_eq_expr {e : ExprId} {node : Expr} :
    p.label? place = some (.expr e node) ↔ place = .expr e ∧ p.exprs.get? e = some node := by
  cases place <;> simp only [label?, Option.map_eq_some_iff] <;> grind

theorem label?_eq_decl :
    p.label? place = some (.decl d content) ↔ place = .decl d ∧ p.decls.get? d = some content := by
  cases place <;> simp only [label?, Option.map_eq_some_iff] <;> grind

theorem label?_eq_backing :
    p.label? place = some (.backing d content)
      ↔ place = .backing d ∧ p.decls.get? d = some content := by
  cases place <;> simp only [label?, Option.map_eq_some_iff] <;> grind

theorem hasEntry_of_label {label : Label} (h : p.label? place = some label) :
    p.HasEntry place.entry := by
  cases place with
  | expr e =>
    obtain ⟨node, hnode, -⟩ := Option.map_eq_some_iff.1 h
    exact (p.exprs.get?_isSome_iff e).1 (by simp [hnode])
  | decl d =>
    obtain ⟨content, hcontent, -⟩ := Option.map_eq_some_iff.1 h
    exact (p.decls.get?_isSome_iff d).1 (by simp [hcontent])
  | backing d =>
    obtain ⟨content, hcontent, -⟩ := Option.map_eq_some_iff.1 h
    exact (p.decls.get?_isSome_iff d).1 (by simp [hcontent])

/-- Places with the same entry have the same places nested in them. -/
theorem places_eq_of_entry_eq {la lb : Label} (hentry : a.entry = b.entry)
    (ha : p.label? a = some la) (hb : p.label? b = some lb) :
    la.places reach = lb.places reach := by
  cases a <;> cases b
    <;> simp only [Place.entry, reduceCtorEq, Sum.inl.injEq, Sum.inr.injEq] at hentry <;>
    subst hentry <;>
    obtain ⟨x, hx, rfl⟩ := Option.map_eq_some_iff.1 ha <;>
    obtain ⟨y, hy, rfl⟩ := Option.map_eq_some_iff.1 hb <;>
    obtain rfl : x = y := Option.mem_unique hx hy <;>
    rfl

/-- A list of entries that are there, none twice, is no longer than the two arenas together. -/
theorem length_le_of_nodup {entries : List (ExprId ⊕ DeclId)} (hnodup : entries.Nodup)
    (hentries : ∀ x ∈ entries, p.HasEntry x) : entries.length ≤ p.decls.size + p.exprs.size := by
  -- number the expressions first and the declarations after them
  let number : ExprId ⊕ DeclId → Nat := Sum.elim (·.index) (p.exprs.size + ·.index)
  have hinj : ∀ x ∈ entries, ∀ y ∈ entries, number x = number y → x = y := by
    intro x hx y hy heq
    have hx' := hentries x hx
    have hy' := hentries y hy
    rcases x with ⟨⟨i⟩⟩ | ⟨⟨i⟩⟩ <;> rcases y with ⟨⟨j⟩⟩ | ⟨⟨j⟩⟩ <;>
      simp only [number, Sum.elim_inl, Sum.elim_inr, HasEntry] at heq hx' hy' <;>
      simp only [reduceCtorEq, Sum.inl.injEq, Sum.inr.injEq, Handle.mk.injEq] <;> omega
  have hmap : (entries.map number).Nodup := hnodup.map_on hinj
  have hsub : entries.map number ⊆ List.range (p.decls.size + p.exprs.size) := by
    intro n hn
    obtain ⟨x, hx, rfl⟩ := List.mem_map.1 hn
    have hx' := hentries x hx
    rw [List.mem_range]
    rcases x with ⟨i⟩ | ⟨i⟩
      <;> simp only [number, Sum.elim_inl, Sum.elim_inr, HasEntry] at hx' ⊢ <;> omega
  simpa using (hmap.subperm hsub).length_le

end Program

namespace Tree

variable {p : Program} {reach : Reach}

/-- Trees of the same entry have the same size. -/
theorem Reads.size_eq {u : Tree} (ht : t.Reads p reach a) (hu : u.Reads p reach b)
    (hentry : a.entry = b.entry) : t.size = u.size := by
  obtain ⟨la, ts, rfl, hla, hts⟩ := ht.exists_node
  obtain ⟨lb, us, rfl, hlb, hus⟩ := hu.exists_node
  rw [Program.places_eq_of_entry_eq hentry hla hlb] at hts
  simp only [size, hts.unique hus]

/-- **No tree is higher than its program has entries.**  Down a branch the trees get smaller, and
trees of one entry have one size, so no entry stands twice on it. -/
theorem height_le_of_reads (h : t.Reads p reach place) :
    t.height ≤ p.decls.size + p.exprs.size := by
  -- the entries of a highest branch, each with a tree no larger than the whole
  have branch : ∀ t : Tree, ∀ place, t.Reads p reach place →
      ∃ entries : List (ExprId ⊕ DeclId), entries.length = t.height ∧ entries.Nodup
        ∧ (∀ x ∈ entries, p.HasEntry x)
        ∧ ∀ x ∈ entries, ∃ u q, Reads p reach u q ∧ q.entry = x ∧ u.size ≤ t.size := by
    intro t
    induction t using Tree.induct with
    | missing => intro place h; exact absurd h (by simp [Reads])
    | endless => intro place h; exact absurd h (by simp [Reads])
    | node label below ih =>
      intro place h
      have here : p.HasEntry place.entry := Program.hasEntry_of_label h.1
      rcases Nat.eq_zero_or_pos (heightAll below) with h0 | hpos
      · refine ⟨[place.entry], by simp [height, h0], by simp, by simpa using here, ?_⟩
        intro x hx
        obtain rfl := List.mem_singleton.1 hx
        exact ⟨_, place, h, rfl, le_rfl⟩
      · obtain ⟨u, hu, hheight⟩ := exists_height_eq hpos
        obtain ⟨q, -, hq⟩ := ReadsAll.exists_place h.2 hu
        obtain ⟨entries, hlen, hnodup, hthere, hsmall⟩ := ih u hu q hq
        have hlt : ∀ x ∈ entries, ∃ v r, Reads p reach v r ∧ r.entry = x
            ∧ v.size < (Tree.node label below).size := by
          intro x hx
          obtain ⟨v, r, hv, hr, hle⟩ := hsmall x hx
          have := size_le_sizeAll hu
          exact ⟨v, r, hv, hr, by simp only [size]; omega⟩
        have hnew : place.entry ∉ entries := by
          intro hmem
          obtain ⟨v, r, hv, hr, hsize⟩ := hlt _ hmem
          exact absurd (hv.size_eq h hr) (by omega)
        refine ⟨place.entry :: entries, by simp [height, hlen, hheight],
          List.nodup_cons.2 ⟨hnew, hnodup⟩, ?_, ?_⟩
        · intro x hx
          rcases List.mem_cons.1 hx with rfl | hx
          · exact here
          · exact hthere x hx
        · intro x hx
          rcases List.mem_cons.1 hx with rfl | hx
          · exact ⟨_, place, h, rfl, le_rfl⟩
          · obtain ⟨v, r, hv, hr, hsize⟩ := hlt x hx
            exact ⟨v, r, hv, hr, hsize.le⟩
  obtain ⟨entries, hlen, hnodup, hthere, -⟩ := branch t place h
  rw [← hlen]
  exact Program.length_le_of_nodup hnodup hthere

end Tree

/-! ## §4. Visiting a place is visiting its tree. -/

namespace Program

variable {p : Program} {reach : Reach}

/-- Unfolding to the height of the tree or further gives the tree. -/
theorem unfoldUpTo_of_reads (h : t.Reads p reach place) (hfuel : t.height ≤ fuel) :
    p.unfoldUpTo reach fuel place = t := by
  induction t using Tree.induct generalizing place fuel with
  | missing => exact absurd h (by simp [Tree.Reads])
  | endless => exact absurd h (by simp [Tree.Reads])
  | node label below ih =>
    obtain ⟨fuel, rfl⟩ : ∃ n, fuel = n + 1 := ⟨fuel - 1, by simp only [Tree.height] at hfuel; omega⟩
    have hbelow : Tree.heightAll below ≤ fuel := by
      simp only [Tree.height] at hfuel
      omega
    have all : ∀ (ts : List Tree) (places : List Place), (∀ t ∈ ts, t ∈ below) →
        Tree.ReadsAll p reach ts places → places.map (p.unfoldUpTo reach fuel) = ts := by
      intro ts
      induction ts with
      | nil =>
        intro places _ hts
        cases places with
        | nil => rfl
        | cons _ _ => exact absurd hts (by simp [Tree.ReadsAll])
      | cons t ts ihts =>
        intro places hmem hts
        cases places with
        | nil => exact absurd hts (by simp [Tree.ReadsAll])
        | cons q places =>
          have ht := hmem t List.mem_cons_self
          rw [List.map_cons, ih t ht hts.1 ((Tree.height_le_heightAll ht).trans hbelow),
            ihts places (fun u hu => hmem u (List.mem_cons_of_mem _ hu)) hts.2]
    rw [unfoldUpTo, h.1]
    show Tree.node label _ = _
    rw [all below _ (fun _ ht => ht) h.2]

/-- A tree that unfolding has completed is what stands at the place. -/
theorem reads_unfoldUpTo (h : (p.unfoldUpTo reach fuel place).complete = true) :
    (p.unfoldUpTo reach fuel place).Reads p reach place := by
  induction fuel generalizing place with
  | zero => cases h
  | succ fuel ih =>
    have all : ∀ places : List Place,
        Tree.completeAll (places.map (p.unfoldUpTo reach fuel)) = true →
        Tree.ReadsAll p reach (places.map (p.unfoldUpTo reach fuel)) places := by
      intro places
      induction places with
      | nil => intro _; trivial
      | cons q places ihp =>
        intro hall
        simp only [List.map_cons, Tree.completeAll, Bool.and_eq_true] at hall
        exact ⟨ih hall.1, ihp hall.2⟩
    unfold unfoldUpTo at h ⊢
    split
    · rename_i hnone
      simp [hnone, Tree.complete] at h
    · rename_i label hsome
      simp only [hsome, Tree.complete] at h
      exact ⟨hsome, all _ h⟩

/-- Below the tree of a declaration stand those of its parts. -/
theorem readsAll_parts (h : t.Reads p reach (.decl d)) (hd : p.decls.get? d = some content) :
    Tree.ReadsAll p reach t.children content.parts := by
  obtain ⟨label, below, rfl, hlabel, hbelow⟩ := h.exists_node
  obtain rfl := Option.some.inj ((label?_eq_decl.2 ⟨rfl, hd⟩).symm.trans hlabel)
  exact hbelow

/-- Visiting to the height of the tree or further is visiting the tree. -/
theorem visitUpTo_of_reads {σ : Type} (f : Visitor σ) (h : t.Reads p reach place)
    (hfuel : t.height ≤ fuel) : p.visitUpTo reach f fuel place = t.visit f := by
  rw [visitUpTo_eq, unfoldUpTo_of_reads h hfuel]

theorem height_le_depth (h : t.Reads p reach place) : t.height ≤ p.depth := by
  have := Tree.height_le_of_reads h
  unfold depth
  omega

/-- Unfolding a place gives its tree. -/
theorem unfold_of_reads (h : t.Reads p reach place) : p.unfold reach place = t :=
  unfoldUpTo_of_reads h (height_le_depth h)

/-- **Visiting a place is visiting its tree.** -/
theorem visit_of_reads {σ : Type} (f : Visitor σ) (h : t.Reads p reach place) :
    p.visit reach f place = t.visit f :=
  visitUpTo_of_reads f h (height_le_depth h)

/-- Visiting the parts of a declaration is visiting their trees. -/
theorem visitBelow_of_reads {σ : Type} (f : Visitor σ) (hd : p.decls.get? d = some content)
    (h : Tree.ReadsAll p .nested ts content.parts) (s : σ) :
    p.visitBelow f d s = Tree.visitAll f ts s := by
  have parts : ∀ (ts : List Tree) (places : List Place), Tree.ReadsAll p .nested ts places →
      ∀ s : σ, places.foldlM (fun s part => p.visit .nested f part s) s = Tree.visitAll f ts s := by
    intro ts
    induction ts with
    | nil =>
      intro places hts s
      cases places with
      | nil => rfl
      | cons _ _ => exact absurd hts (by simp [Tree.ReadsAll])
    | cons t ts ih =>
      intro places hts s
      cases places with
      | nil => exact absurd hts (by simp [Tree.ReadsAll])
      | cons q places =>
        rw [List.foldlM_cons, visit_of_reads f hts.1, Tree.visitAll]
        congr 1
        exact funext (ih places hts.2)
  rw [← parts ts content.parts h s]
  simp only [visitBelow, decl, Arena.lookup, hd]
  rfl

/-! ## §5. When a place has a tree. -/

/-- A place is nested directly in another. -/
def Encloses (p : Program) (reach : Reach) (outer inner : Place) : Prop :=
  ∃ label, p.label? outer = some label ∧ inner ∈ label.places reach

/-- Everything nested at a place, however deep, is there. -/
def CompleteAt (p : Program) (reach : Reach) (start : Place) : Prop :=
  ∀ place, Relation.ReflTransGen (p.Encloses reach) start place →
    ∃ label, p.label? place = some label

/-- Nothing nested at a place is nested in itself. -/
def AcyclicAt (p : Program) (reach : Reach) (start : Place) : Prop :=
  ∀ place, Relation.ReflTransGen (p.Encloses reach) start place →
    ¬ Relation.TransGen (p.Encloses reach) place place

/-- The places whose entries are there are finitely many. -/
theorem finite_places (p : Program) :
    Finite {place : Place // ∃ label, p.label? place = some label} := by
  -- a place is one of three forms of a position below a bound
  let code : {place : Place // ∃ label, p.label? place = some label} →
      (Fin p.exprs.size ⊕ Fin p.decls.size) ⊕ Fin p.decls.size := fun x =>
    match x with
    | ⟨.expr e, h⟩ => .inl (.inl ⟨e.index, hasEntry_of_label h.choose_spec⟩)
    | ⟨.decl d, h⟩ => .inl (.inr ⟨d.index, hasEntry_of_label h.choose_spec⟩)
    | ⟨.backing d, h⟩ => .inr ⟨d.index, hasEntry_of_label h.choose_spec⟩
  refine Finite.of_injective code ?_
  rintro ⟨a, ha⟩ ⟨b, hb⟩ heq
  cases a with
  | expr e =>
    cases b with
    | expr e' =>
      obtain ⟨i⟩ := e
      obtain ⟨j⟩ := e'
      simpa [code, Fin.ext_iff] using heq
    | decl _ => simp [code] at heq
    | backing _ => simp [code] at heq
  | decl d =>
    cases b with
    | expr _ => simp [code] at heq
    | decl d' =>
      obtain ⟨i⟩ := d
      obtain ⟨j⟩ := d'
      simpa [code, Fin.ext_iff] using heq
    | backing _ => simp [code] at heq
  | backing d =>
    cases b with
    | expr _ => simp [code] at heq
    | decl _ => simp [code] at heq
    | backing d' =>
      obtain ⟨i⟩ := d
      obtain ⟨j⟩ := d'
      simpa [code, Fin.ext_iff] using heq

/-- **A place below which nothing is missing and nothing is nested in itself has a tree.** -/
theorem exists_reads (hcomplete : p.CompleteAt reach start) (hacyclic : p.AcyclicAt reach start) :
    ∃ t : Tree, t.Reads p reach start := by
  -- among the places below the start, being nested is well-founded
  let Below := {place : Place // Relation.ReflTransGen (p.Encloses reach) start place}
  have hfinite : Finite Below := by
    have := finite_places p
    refine Finite.of_injective
      (fun x : Below =>
        (⟨x.1, hcomplete x.1 x.2⟩ : {place // ∃ label, p.label? place = some label})) ?_
    intro a b heq
    exact Subtype.ext (Subtype.mk.inj heq)
  let nested : Below → Below → Prop := fun a b => Relation.TransGen (p.Encloses reach) b.1 a.1
  have htrans : IsTrans Below nested := ⟨fun _ _ _ hab hbc => hbc.trans hab⟩
  have hirrefl : Std.Irrefl nested := ⟨fun a => hacyclic a.1 a.2⟩
  have hwf : WellFounded nested := Finite.wellFounded_of_trans_of_irrefl nested
  suffices h : ∀ x : Below, ∃ t : Tree, t.Reads p reach x.1 from h ⟨start, .refl⟩
  intro x
  induction x using hwf.induction with
  | _ x ih =>
    obtain ⟨label, hlabel⟩ := hcomplete x.1 x.2
    have all : ∀ places : List Place, (∀ q ∈ places, q ∈ label.places reach) →
        ∃ ts, Tree.ReadsAll p reach ts places := by
      intro places
      induction places with
      | nil => exact fun _ => ⟨[], trivial⟩
      | cons q places ihq =>
        intro hmem
        have hstep : p.Encloses reach x.1 q := ⟨label, hlabel, hmem q List.mem_cons_self⟩
        obtain ⟨t, ht⟩ := ih ⟨q, x.2.tail hstep⟩ (.single hstep)
        obtain ⟨ts, hts⟩ := ihq fun r hr => hmem r (List.mem_cons_of_mem _ hr)
        exact ⟨t :: ts, ht, hts⟩
    obtain ⟨below, hbelow⟩ := all (label.places reach) fun _ h => h
    exact ⟨.node label below, hlabel, hbelow⟩

/-- What is nested in what is read has a smaller tree. -/
theorem exists_smaller_of_transGen (h : t.Reads p reach a)
    (hab : Relation.TransGen (p.Encloses reach) a b) :
    ∃ u : Tree, u.Reads p reach b ∧ u.size < t.size := by
  have step : ∀ {t : Tree} {a b : Place}, t.Reads p reach a → p.Encloses reach a b →
      ∃ u : Tree, u.Reads p reach b ∧ u.size < t.size := by
    rintro t a b ht ⟨label, hlabel, hmem⟩
    obtain ⟨label', below, rfl, hlabel', hbelow⟩ := ht.exists_node
    obtain rfl : label = label' := Option.mem_unique hlabel hlabel'
    obtain ⟨u, hu, hr⟩ := hbelow.exists_tree hmem
    have := Tree.size_le_sizeAll hu
    exact ⟨u, hr, by simp only [Tree.size]; omega⟩
  induction hab with
  | single hstep => exact step h hstep
  | tail _ hstep ih =>
    obtain ⟨u, hu, hlt⟩ := ih
    obtain ⟨v, hv, hlt'⟩ := step hu hstep
    exact ⟨v, hv, hlt'.trans hlt⟩

/-- What is read is not nested in itself. -/
theorem acyclicAt_of_reads (h : t.Reads p reach start) : p.AcyclicAt reach start := by
  intro place hplace hcycle
  have hread : ∃ u : Tree, u.Reads p reach place := by
    rcases Relation.reflTransGen_iff_eq_or_transGen.1 hplace with rfl | htrans
    · exact ⟨t, h⟩
    · obtain ⟨u, hu, -⟩ := exists_smaller_of_transGen h htrans
      exact ⟨u, hu⟩
  obtain ⟨u, hu⟩ := hread
  obtain ⟨v, hv, hlt⟩ := exists_smaller_of_transGen hu hcycle
  rw [hv.unique hu] at hlt
  exact absurd hlt (lt_irrefl _)

/-- Unfolding that comes to an end shows that nothing is nested in itself. -/
theorem acyclicAt_of_complete (h : (p.unfoldUpTo reach fuel start).complete = true) :
    p.AcyclicAt reach start :=
  acyclicAt_of_reads (reads_unfoldUpTo h)

end Program

end LambdaLift
