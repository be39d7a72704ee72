/-
  LambdaLift.Proofs.Listings
  **LISTING SIBLINGS NEITHER LOSES, REPEATS NOR REORDERS DECLARATIONS.**

  Lists are edited while a list of roots taken beforehand is walked, the
  accessors of one property share an anchor, and a root or a container may
  be listed more than once.  A list nevertheless stays what it was up to
  whole blocks in it, and each root of the table has one block.

  Main results:
    * `Run.filter_children` — without what is new, a list is what it was;
    * `Run.count_children` — a sibling is listed once;
    * `lower_lists_blocks` — where each block stands.
-/
import Mathlib
import LambdaLift.Proofs.Runs

namespace LambdaLift

variable {s : DeclId}

namespace Slot

variable {ss : List Slot} {n : Nat}

/-- A list holds its entries and its blocks. -/
theorem flat_perm : (flat ss).Perm (ss.map (·.entry) ++ (blocksOf ss).flatMap (·.2)) := by
  induction ss with
  | nil => exact .refl _
  | cons s ss ih =>
    have hflat : flat (s :: ss) = s.entry :: (s.blocks.flatMap (·.2) ++ flat ss) := by simp [flat]
    have hblocks : (blocksOf (s :: ss)).flatMap (·.2) = s.blocks.flatMap (·.2)
        ++ (blocksOf ss).flatMap (·.2) := by
      simp [blocksOf]
    rw [hflat, hblocks, List.map_cons, List.cons_append]
    refine .cons _ ((List.Perm.append_left _ ih).trans ?_)
    rw [← List.append_assoc, ← List.append_assoc]
    exact List.Perm.append_right _ List.perm_append_comm

theorem filter_flat (hentries : ∀ d ∈ ss.map (·.entry), d.index < n)
    (hblocks : ∀ b ∈ blocksOf ss, ∀ d ∈ b.2, n ≤ d.index) :
    (flat ss).filter (fun d => d.index < n) = ss.map (·.entry) := by
  induction ss with
  | nil => rfl
  | cons s ss ih =>
    have hflat : flat (s :: ss) = s.entry :: (s.blocks.flatMap (·.2) ++ flat ss) := by simp [flat]
    have hnone : (s.blocks.flatMap (·.2)).filter (fun d => d.index < n) = [] := by
      refine List.filter_eq_nil_iff.2 fun d hd => ?_
      obtain ⟨b, hb, hd⟩ := List.mem_flatMap.1 hd
      have := hblocks b (List.mem_flatMap.2 ⟨s, List.mem_cons_self, hb⟩) d hd
      simpa using this
    have hrest := ih (fun d hd => hentries d (List.mem_cons_of_mem _ hd)) fun b hb => by
      obtain ⟨s', hs', hb⟩ := List.mem_flatMap.1 hb
      exact hblocks b (List.mem_flatMap.2 ⟨s', List.mem_cons_of_mem _ hs', hb⟩)
    have hentry := hentries s.entry List.mem_cons_self
    rw [hflat, List.filter_cons_of_pos (by simpa using hentry), List.filter_append, hnone, hrest]
    rfl

end Slot

namespace Lowering

/-- The list holds the siblings of a root in one piece behind their anchor, with nothing but blocks
of other roots in between. -/
def BlockAfter (table : Lifted) (root anchor : DeclId) (siblings ds : List DeclId) : Prop :=
  ∃ (front : List DeclId) (between : List (DeclId × List DeclId)) (back : List DeclId),
    (∀ b ∈ between, b ∈ table.entries ∧ b.1 ≠ root)
    ∧ ds = front ++ anchor :: (between.flatMap (·.2) ++ siblings ++ back)

end Lowering

namespace Run

open Program Slot Lowering

variable {P p : Program} {slots : Option DeclId → List Slot} {table : Lifted}
  {container : Option DeclId} {ds ds' : List DeclId} {b : DeclId × List DeclId}

/-- A sibling belongs to one root. -/
theorem block_unique (h : Run P slots table p) {b' : DeclId × List DeclId} (hb : b ∈ table.entries)
    (hb' : b' ∈ table.entries) (hs : s ∈ b.2) (hs' : s ∈ b'.2) : b = b' := by
  by_contra hne
  have hdisjoint := (List.nodup_flatMap.1 h.distinct).2
  have : Std.Symm (Function.onFun List.Disjoint fun b : DeclId × List DeclId => b.2) :=
    ⟨fun _ _ hab => hab.symm⟩
  exact hdisjoint.forall hb hb' hne hs hs'

/-- A container that lists a sibling has its block. -/
theorem mem_blocksOf (h : Run P slots table p) (hclosed : P.Closed)
    (hds : P.children container = .ok ds) (hds' : p.children container = .ok ds')
    (hb : b ∈ table.entries) (hs : s ∈ b.2) (hmem : s ∈ ds') : b ∈ blocksOf (slots container) := by
  obtain ⟨hentries, hflat⟩ := h.entries hds
  cases hflat.symm.trans hds'
  rcases mem_flat.1 hmem with hold | ⟨b', hb', hs'⟩
  · obtain ⟨content, hcontent⟩ := hclosed.exists_child hds (hentries ▸ hold)
    have hlt := Arena.lt_size_of_get? hcontent
    have hle := (h.siblings b hb s hs).1
    omega
  · exact h.block_unique hb (h.tabled hb') hs hs' ▸ hb'

/-- **Without what is new, a list is what it was.** -/
theorem filter_children (h : Run P slots table p) (hclosed : P.Closed)
    (hds : P.children container = .ok ds) (hds' : p.children container = .ok ds') :
    ds'.filter (fun d => d.index < P.decls.size) = ds := by
  obtain ⟨rfl, hflat⟩ := h.entries hds
  cases hflat.symm.trans hds'
  refine filter_flat (fun d hd => ?_) fun b hb s hs => (h.siblings b (h.tabled hb) s hs).1
  obtain ⟨content, hcontent⟩ := hclosed.exists_child hds hd
  exact Arena.lt_size_of_get? hcontent

/-- **A sibling is listed once** where its block is. -/
theorem count_children (h : Run P slots table p) (hclosed : P.Closed)
    (hds : P.children container = .ok ds) (hds' : p.children container = .ok ds')
    (hb : b ∈ blocksOf (slots container)) (hs : s ∈ b.2) : ds'.count s = 1 := by
  obtain ⟨rfl, hflat⟩ := h.entries hds
  cases hflat.symm.trans hds'
  have hblocks : ((blocksOf (slots container)).flatMap (·.2)).Nodup := by
    refine List.nodup_flatMap.2
      ⟨fun b hb => (List.nodup_flatMap.1 h.distinct).1 b (h.tabled hb), ?_⟩
    refine (h.nodup container).pairwise_of_forall_ne fun b hb b' hb' hne s hs hs' => hne ?_
    exact h.block_unique (h.tabled hb) (h.tabled hb') hs hs'
  have hold : s ∉ (slots container).map (·.entry) := by
    intro hold
    obtain ⟨content, hcontent⟩ := hclosed.exists_child hds hold
    have hlt := Arena.lt_size_of_get? hcontent
    have hle := (h.siblings b (h.tabled hb) s hs).1
    omega
  rw [flat_perm.count_eq, List.count_append, List.count_eq_zero_of_not_mem hold,
    List.count_eq_one_of_mem hblocks (List.mem_flatMap.2 ⟨b, hb, hs⟩)]

/-- A block stands behind its anchor. -/
theorem blockAfter (h : Run P slots table p) (hds : P.children container = .ok ds)
    (hds' : p.children container = .ok ds') (hb : b ∈ blocksOf (slots container)) :
    ∃ content, P.decls.get? b.1 = some content
      ∧ BlockAfter table b.1 (anchorOf b.1 content) b.2 ds' := by
  obtain ⟨-, hflat⟩ := h.entries hds
  cases hflat.symm.trans hds'
  obtain ⟨s, hs, hbs⟩ := List.mem_flatMap.1 hb
  obtain ⟨-, -, content, hcontent, hanchor⟩ := h.placed hs hbs
  refine ⟨content, hcontent, ?_⟩
  obtain ⟨front, back, hslots⟩ := List.append_of_mem hs
  obtain ⟨between, behind, hblocks⟩ := List.append_of_mem hbs
  refine ⟨flat front, between, behind.flatMap (·.2) ++ flat back, fun b' hb' => ?_, ?_⟩
  · have hmem : b' ∈ blocksOf (slots container) :=
      List.mem_flatMap.2 ⟨s, hs, hblocks ▸ List.mem_append_left _ hb'⟩
    refine ⟨h.tabled hmem, fun hroot => ?_⟩
    -- no root has two blocks
    have heq : b' = b := by
      have hget := OrderedMap.get?_eq_some_iff.2 (h.tabled hmem)
      have hget' := OrderedMap.get?_eq_some_iff.2 (h.tabled hb)
      rw [hroot, hget'] at hget
      exact Prod.ext hroot (Option.some.inj hget).symm
    have hnodup : s.blocks.Nodup := by
      have hall := h.nodup container
      rw [hslots] at hall
      simp only [blocksOf, List.flatMap_append, List.flatMap_cons] at hall
      exact (List.nodup_append.1 (List.nodup_append.1 hall).2.1).1
    rw [hblocks] at hnodup
    exact (List.nodup_append.1 hnodup).2.2 b (heq ▸ hb') b List.mem_cons_self rfl
  · rw [hslots]
    simp [flat, hblocks, hanchor]

end Run

open Lowering

/-- **Listing neither loses, repeats nor reorders declarations.**  Without the declarations that a
run added, each list of the program is what it was.  Each root of the table has its siblings in one
piece, in the list of exactly one container, behind the root (or its property, if it is an accessor)
with only other blocks in between.  Each sibling is listed once, by one container, no two roots
share a sibling, and nothing else that is new is listed. -/
theorem lower_lists_blocks (settings : Settings) {P : Program} {events : List Event}
    {table : Lifted} {w : Work} (hclosed : P.Closed) (haccessors : P.AccessorsAreFunctions)
    (hlower : lower settings ⟨P, events⟩ = .ok table w) :
    (∀ container ds, P.children container = .ok ds → ∃ ds', w.program.children container = .ok ds'
        ∧ ds'.filter (fun d => d.index < P.decls.size) = ds
        ∧ ∀ d ∈ ds', P.decls.size ≤ d.index → d ∈ table.values.flatten)
      ∧ (∀ root siblings, table.get? root = some siblings →
        ∃ content, P.decls.get? root = some content ∧ ∃! container, ∃ ds ds',
          P.children container = .ok ds ∧ w.program.children container = .ok ds'
            ∧ BlockAfter table root (anchorOf root content) siblings ds')
      ∧ (∀ s ∈ table.values.flatten, P.decls.size ≤ s.index ∧ ∃ container ds ds',
        P.children container = .ok ds ∧ w.program.children container = .ok ds' ∧ ds'.count s = 1
          ∧ ∀ other dsO dsO', P.children other = .ok dsO → w.program.children other = .ok dsO' →
            s ∈ dsO' → other = container)
      ∧ table.values.Pairwise List.Disjoint := by
  obtain ⟨⟨slots, hrun⟩, -⟩ : (∃ slots, Run P slots table w.program) ∧ True := by
    have hleaves := lower_runs (w := ⟨P, events⟩) settings hclosed haccessors
    unfold Step.Leaves Step.Yields at hleaves
    rw [hlower] at hleaves
    exact ⟨hleaves.1, trivial⟩
  have hvalues : ∀ {s}, s ∈ table.values.flatten ↔ ∃ b ∈ table.entries, s ∈ b.2 := by
    intro s
    simp only [OrderedMap.values, List.mem_flatten, List.mem_map]
    constructor
    · rintro ⟨_, ⟨b, hb, rfl⟩, hs⟩
      exact ⟨b, hb, hs⟩
    · rintro ⟨b, hb, hs⟩
      exact ⟨b.2, ⟨b, hb, rfl⟩, hs⟩
  -- where a block stands, and that it stands nowhere else
  have hblock : ∀ b ∈ table.entries, ∃ container ds, b ∈ Slot.blocksOf (slots container)
      ∧ P.children container = .ok ds
      ∧ w.program.children container = .ok (Slot.flat (slots container))
      ∧ ∀ s ∈ b.2, ∀ other dsO dsO', P.children other = .ok dsO →
      w.program.children other = .ok dsO' → s ∈ dsO' →
        other = container := by
    intro b hb
    obtain ⟨container, hmem⟩ := hrun.listed b hb
    obtain ⟨slot, hslot, hbs⟩ := List.mem_flatMap.1 hmem
    obtain ⟨⟨ds, hds⟩, -⟩ := hrun.placed hslot hbs
    refine ⟨container, ds, hmem, hds, (hrun.entries hds).2,
      fun s hs other dsO dsO' hdsO hdsO' hsO => ?_⟩
    exact hrun.once (hrun.mem_blocksOf hclosed hdsO hdsO' hb hs hsO) hmem
  refine ⟨fun container ds hds => ?_, fun root siblings hroot => ?_, fun s hs => ?_, ?_⟩
  · refine ⟨_, (hrun.entries hds).2, hrun.filter_children hclosed hds (hrun.entries hds).2,
      fun d hd hlow => ?_⟩
    rcases hrun.mem_children hds (hrun.entries hds).2 hd with hold | hsibling
    · obtain ⟨content, hcontent⟩ := hclosed.exists_child hds hold
      have := Arena.lt_size_of_get? hcontent
      omega
    · exact hvalues.2 hsibling
  · have hb := OrderedMap.get?_eq_some_iff.1 hroot
    obtain ⟨container, ds, hmem, hds, hds', honly⟩ := hblock _ hb
    obtain ⟨content, hcontent, hafter⟩ := hrun.blockAfter hds hds' hmem
    refine ⟨content, hcontent, container, ⟨ds, _, hds, hds', hafter⟩, ?_⟩
    rintro other ⟨dsO, dsO', hdsO, hdsO', front, between, back, -, rfl⟩
    obtain ⟨s, hs⟩ := List.exists_mem_of_ne_nil _ (hrun.nonempty _ hb)
    exact honly s hs other dsO _ hdsO hdsO' (by simp [hs])
  · obtain ⟨b, hb, hsb⟩ := hvalues.1 hs
    obtain ⟨container, ds, hmem, hds, hds', honly⟩ := hblock b hb
    exact ⟨(hrun.siblings b hb s hsb).1, container, ds, _, hds, hds',
      hrun.count_children hclosed hds hds' hmem hsb, honly s hsb⟩
  · exact List.pairwise_map.2 (List.nodup_flatMap.1 hrun.distinct).2

/-- The local function of a small program is listed behind the function around it. -/
theorem lower_lists_blocks_capturing : ∃ table w, lower {} ⟨.capturing, []⟩ = .ok table w
    ∧ table.get? ⟨0⟩ = some [⟨2⟩] ∧ ∃! container, ∃ ds ds',
      Program.capturing.children container = .ok ds
      ∧ w.program.children container = .ok ds' ∧ BlockAfter table ⟨0⟩ ⟨0⟩ [⟨2⟩] ds' := by
  have hlower : (Step.answer? (lower {}) ⟨.capturing, []⟩).map (·.get? ⟨0⟩)
      = some (some [⟨2⟩]) := by decide +kernel
  obtain ⟨table, hanswer, htable⟩ := Option.map_eq_some_iff.1 hlower
  obtain ⟨w, hw⟩ := Step.answer?_eq_some.1 hanswer
  obtain ⟨-, hblocks, -⟩ := lower_lists_blocks {} (by decide +kernel) (by decide +kernel) hw
  obtain ⟨content, hcontent, hblock⟩ := hblocks _ _ htable
  refine ⟨table, w, hw, htable, ?_⟩
  cases hcontent
  exact hblock

end LambdaLift
