/-
  LambdaLift.Proofs.Visibility
  **WHERE A VARIABLE CAN BE SEEN.**

  A walk over code keeps the visible values in one list: a variable joins
  it at the end of its own node, and a block cuts the list back to what it
  was.  So a variable that is bound in a condition, an argument or an
  initializer outlives its node.  Seen from a position in the code, the
  rule is another: a variable is visible if the node that binds it is
  finished, and every block around that node is around the position too.

  The nodes of a body are its spots, each with the way to it.  The walk
  judges every spot by the values that are visible there, and reports what
  is wrong from left to right.

  Main results:
    * `Tree.visibleAt_operand` — what is visible in an operand: what earlier
      operands let out, and what the operand itself has bound so far;
    * `Tree.visit_code` — the walk in closed form;
    * `Tree.found_reports` — it reports the violations, spot by spot.
-/
import Mathlib
import LambdaLift.WellFormed
import LambdaLift.Proofs.CaptureWalk

namespace LambdaLift

variable {k : Nat} {t : Tree}

/-! ## §1. Spots. -/

/-- Whether a node is a block. -/
def Expr.isBlock : Expr → Bool
  | .block _ => true
  | _ => false

/-- A node of a body, with the way to it: the position of the operand to take at each step. -/
structure Spot where
  path : List Nat
  node : Expr

/-- The same node, seen from a node that it stands in operand `i` of. -/
def Spot.under (i : Nat) (s : Spot) : Spot := { s with path := i :: s.path }

/-- Where two ways part, the first takes an earlier operand.  So the node at its end is finished
before the node at the end of the second is entered. -/
def Earlier : (a b : List Nat) → Prop
  | i :: a, j :: b => i < j ∨ i = j ∧ Earlier a b
  | _, _ => False

namespace Tree

mutual
/-- The nodes of code from left to right, each before its operands. -/
def spots : Tree → List Spot
  | .node (.expr _ x) below => ⟨[], x⟩ :: spotsFrom 0 below
  | _ => []
/-- The nodes of operands, the first of which has position `i`. -/
def spotsFrom (i : Nat) : List Tree → List Spot
  | [] => []
  | t :: ts => t.spots.map (Spot.under i) ++ spotsFrom (i + 1) ts
end

/-- **A variable is visible at a path** if a node that binds it is finished by then, and every block
around that node is around the path. -/
def VisibleAt (t : Tree) (path : List Nat) (v : ValueId) : Prop :=
  ∃ s ∈ t.spots, s.node.bound? = some v ∧ Earlier s.path path
    ∧ ∀ b ∈ t.spots, b.node.isBlock = true → b.path <+: s.path → b.path <+: path

/-- A variable is bound in the code and in no block of it. -/
def Exports (t : Tree) (v : ValueId) : Prop :=
  ∃ s ∈ t.spots, s.node.bound? = some v ∧ ∀ b ∈ t.spots, b.node.isBlock = true → ¬ b.path <+: s.path

theorem mem_spotsFrom {i : Nat} {ts : List Tree} {s : Spot} :
    s ∈ spotsFrom i ts ↔ ∃ (k : Nat) (t : Tree) (x : Spot), ts[k]? = some t ∧ x ∈ t.spots
      ∧ s = x.under (i + k) := by
  induction ts generalizing i with
  | nil => simp [spotsFrom]
  | cons t ts ih =>
    simp only [spotsFrom, List.mem_append, List.mem_map, ih]
    constructor
    · rintro (⟨x, hx, rfl⟩ | ⟨k, u, x, hu, hx, rfl⟩)
      · exact ⟨0, t, x, rfl, hx, rfl⟩
      · exact ⟨k + 1, u, x, hu, hx, by rw [show i + 1 + k = i + (k + 1) by omega]⟩
    · rintro ⟨k, u, x, hu, hx, rfl⟩
      cases k with
      | zero =>
        obtain rfl : t = u := by simpa using hu
        exact .inl ⟨x, hx, rfl⟩
      | succ k =>
        exact .inr ⟨k, u, x, by simpa using hu, hx, by rw [show i + 1 + k = i + (k + 1) by omega]⟩

variable {e : ExprId} {node : Expr} {below : List Tree} {v : ValueId}

/-- The spots of a node are the node and the spots of its operands. -/
theorem mem_spots_node {s : Spot} :
    s ∈ (Tree.node (.expr e node) below).spots ↔
      s = ⟨[], node⟩ ∨ ∃ (k : Nat) (t : Tree) (x : Spot), below[k]? = some t ∧ x ∈ t.spots
        ∧ s = x.under k := by
  simp [spots, mem_spotsFrom]

theorem mem_spots_operand {x : Spot} (ht : below[k]? = some t) (hx : x ∈ t.spots) :
    x.under k ∈ (Tree.node (.expr e node) below).spots :=
  mem_spots_node.2 (.inr ⟨k, t, x, ht, hx, rfl⟩)

/-! ## §2. What an operand lets out, and what is visible in it. -/

/-- A block lets nothing out. -/
theorem not_exports_block (hblock : node.isBlock = true) :
    ¬ (Tree.node (.expr e node) below).Exports v := by
  rintro ⟨s, -, -, hblocks⟩
  exact hblocks ⟨[], node⟩ (mem_spots_node.2 (.inl rfl)) hblock s.path.nil_prefix

/-- Any other node lets out what its operands let out, and what it binds itself. -/
theorem exports_node (hblock : node.isBlock = false) :
    (Tree.node (.expr e node) below).Exports v ↔ (∃ t ∈ below, t.Exports v)
      ∨ node.bound? = some v := by
  constructor
  · rintro ⟨s, hs, hbound, hblocks⟩
    rcases mem_spots_node.1 hs with rfl | ⟨k, t, x, ht, hx, rfl⟩
    · exact .inr hbound
    · refine .inl ⟨t, List.mem_of_getElem? ht, x, hx, hbound, fun b hb hb' hpre => ?_⟩
      exact hblocks (b.under k) (mem_spots_operand ht hb) hb' (List.cons_prefix_cons.2 ⟨rfl, hpre⟩)
  · rintro (⟨t, ht, x, hx, hbound, hblocks⟩ | hbound)
    · obtain ⟨k, hk⟩ := List.mem_iff_getElem?.1 ht
      refine ⟨x.under k, mem_spots_operand hk hx, hbound, fun b hb hb' hpre => ?_⟩
      rcases mem_spots_node.1 hb with rfl | ⟨j, u, y, hu, hy, rfl⟩
      · simp [hblock] at hb'
      · obtain ⟨rfl, hinner⟩ := List.cons_prefix_cons.1 hpre
        obtain rfl := Option.mem_unique hk hu
        exact hblocks y hy hb' hinner
    · refine ⟨⟨[], node⟩, mem_spots_node.2 (.inl rfl), hbound, fun b hb hb' hpre => ?_⟩
      rcases mem_spots_node.1 hb with rfl | ⟨j, u, y, hu, hy, rfl⟩
      · simp [hblock] at hb'
      · cases List.prefix_nil.1 hpre

/-- Where code begins, it has bound nothing. -/
theorem not_visibleAt_nil : ¬ t.VisibleAt [] v := by
  rintro ⟨s, -, -, hearlier, -⟩
  cases h : s.path <;> simp [h, Earlier] at hearlier

/-- **In an operand, what earlier operands let out is visible**, and what the operand itself has
bound so far. -/
theorem visibleAt_operand {path : List Nat} (ht : below[k]? = some t) :
    (Tree.node (.expr e node) below).VisibleAt (k :: path) v ↔
      (∃ j < k, ∃ u, below[j]? = some u ∧ u.Exports v) ∨ t.VisibleAt path v := by
  constructor
  · rintro ⟨s, hs, hbound, hearlier, hblocks⟩
    rcases mem_spots_node.1 hs with rfl | ⟨j, u, x, hu, hx, rfl⟩
    · exact absurd hearlier (by simp [Earlier])
    rcases hearlier with hlt | ⟨rfl, hearlier⟩
    · refine .inl ⟨j, hlt, u, hu, x, hx, hbound, fun b hb hb' hpre => ?_⟩
      -- a block of the earlier operand is not around the path
      have :=
        hblocks (b.under j) (mem_spots_operand hu hb) hb' (List.cons_prefix_cons.2 ⟨rfl, hpre⟩)
      exact hlt.ne (List.cons_prefix_cons.1 this).1
    · obtain rfl := Option.mem_unique ht hu
      refine .inr ⟨x, hx, hbound, hearlier, fun b hb hb' hpre => ?_⟩
      have :=
        hblocks (b.under j) (mem_spots_operand hu hb) hb' (List.cons_prefix_cons.2 ⟨rfl, hpre⟩)
      exact (List.cons_prefix_cons.1 this).2
  · rintro (⟨j, hlt, u, hu, x, hx, hbound, hblocks⟩ | ⟨x, hx, hbound, hearlier, hblocks⟩)
    · refine ⟨x.under j, mem_spots_operand hu hx, hbound, .inl hlt, fun b hb hb' hpre => ?_⟩
      rcases mem_spots_node.1 hb with rfl | ⟨i, w, y, hw, hy, rfl⟩
      · exact List.nil_prefix
      · obtain ⟨rfl, hinner⟩ := List.cons_prefix_cons.1 hpre
        obtain rfl := Option.mem_unique hu hw
        exact absurd hinner (hblocks y hy hb')
    · refine ⟨x.under k, mem_spots_operand ht hx, hbound, .inr ⟨rfl, hearlier⟩,
        fun b hb hb' hpre => ?_⟩
      rcases mem_spots_node.1 hb with rfl | ⟨i, w, y, hw, hy, rfl⟩
      · exact List.nil_prefix
      · obtain ⟨rfl, hinner⟩ := List.cons_prefix_cons.1 hpre
        obtain rfl := Option.mem_unique ht hw
        exact List.cons_prefix_cons.2 ⟨rfl, hblocks y hy hb' hinner⟩

end Tree

/-! ## §3. The walk in closed form. -/

namespace Tree

mutual
/-- Whether a tree is made of expressions only, and nothing is missing in it. -/
def isCode : Tree → Bool
  | .node (.expr _ _) below => isCodeAll below
  | _ => false
/-- Whether trees are made of expressions only. -/
def isCodeAll : List Tree → Bool
  | [] => true
  | t :: ts => t.isCode && isCodeAll ts
end

mutual
/-- The values that code adds to the visible ones, in order. -/
def exported : Tree → List ValueId
  | .node (.expr _ x) below => if x.isBlock then [] else exportedAll below ++ x.bound?.toList
  | _ => []
/-- The values that operands add to the visible ones. -/
def exportedAll : List Tree → List ValueId
  | [] => []
  | t :: ts => t.exported ++ exportedAll ts
end

mutual
/-- What is wrong with code, where these values are visible. -/
def found (declared : OrderedSet DeclId) (source : DeclId)
    (scope : List ValueId) : Tree → List Finding
  | .node (.expr _ x) below =>
    Walk.findingsAt declared source scope x ++ foundAll declared source scope below
  | _ => []
/-- What is wrong with operands.  What one adds is visible in the next. -/
def foundAll (declared : OrderedSet DeclId) (source : DeclId) (scope : List ValueId) :
    List Tree → List Finding
  | [] => []
  | t :: ts => t.found declared source scope ++ foundAll declared source (scope ++ t.exported) ts
end

/-- What is read in a body is code. -/
theorem isCode_of_reads {p : Program} {e : ExprId} (h : t.Reads p .body (.expr e)) :
    t.isCode = true := by
  induction t using Tree.induct generalizing e with
  | missing => exact absurd h (by simp [Reads])
  | endless => exact absurd h (by simp [Reads])
  | node label below ih =>
    obtain ⟨node, -, rfl⟩ := Option.map_eq_some_iff.1 h.1
    have hplaces : ∃ es : List ExprId, Label.places .body (.expr e node) = es.map .expr := by
      cases node with
      | decl d => exact ⟨[], rfl⟩
      | _ => exact ⟨_, rfl⟩
    obtain ⟨es, hes⟩ := hplaces
    have hbelow := hes ▸ h.2
    have all : ∀ (ts : List Tree) (es : List ExprId), (∀ t ∈ ts, t ∈ below) →
        ReadsAll p .body ts (es.map .expr) → isCodeAll ts = true := by
      intro ts
      induction ts with
      | nil => exact fun _ _ _ => rfl
      | cons t ts ihts =>
        intro es hmem hts
        cases es with
        | nil => exact absurd hts (by simp [ReadsAll])
        | cons x es =>
          simp only [isCodeAll, Bool.and_eq_true]
          exact ⟨ih t (hmem t List.mem_cons_self) hts.1,
            ihts es (fun u hu => hmem u (List.mem_cons_of_mem _ hu)) hts.2⟩
    exact all below es (fun _ ht => ht) hbelow

mutual
/-- **The walk over code in closed form.**  Whatever a block has added to the visible values is
behind what was there before, so cutting the list back drops exactly that. -/
theorem visit_code (declared : OrderedSet DeclId) (source : DeclId) :
    ∀ {t : Tree}, t.isCode = true → ∀ w : Walk, t.visit (Walk.visitor declared source) w
      = .ok ⟨w.scope ++ t.exported, w.findings ++ t.found declared source w.scope⟩
  | .node (.expr _ x) below, h, w => by
    have hbelow : ∀ w, _ := visitAll_code declared source h
    simp only [visit, Walk.visitor, hbelow, Except.ok_bind, exported, found, List.append_assoc]
    cases x <;> simp [Walk.scopeAfter, Expr.isBlock] <;> rfl
  | .node (.decl _ _) _, h, _ | .node (.backing _ _) _, h, _ => by cases h
  | .missing, h, _ | .endless, h, _ => by cases h
/-- The walk over operands in closed form. -/
theorem visitAll_code (declared : OrderedSet DeclId) (source : DeclId) :
    ∀ {ts : List Tree}, isCodeAll ts = true → ∀ w : Walk,
      visitAll (Walk.visitor declared source) ts w
      = .ok ⟨w.scope ++ exportedAll ts, w.findings ++ foundAll declared source w.scope ts⟩
  | [], _, w => by simp [visitAll, exportedAll, foundAll]
  | t :: ts, h, w => by
    simp only [isCodeAll, Bool.and_eq_true] at h
    rw [visitAll, visit_code declared source h.1 w, Except.ok_bind,
      visitAll_code declared source h.2]
    simp [exportedAll, foundAll]
end

mutual
/-- What code adds to the visible values is what it lets out. -/
theorem mem_exported {v : ValueId} : ∀ {t : Tree}, t.isCode = true → (v ∈ t.exported ↔ t.Exports v)
  | .node (.expr _ x) below, h => by
    have hbelow := mem_exportedAll (v := v) h
    cases hblock : x.isBlock with
    | true => simp [exported, hblock, not_exports_block hblock]
    | false => simp [exported, hblock, exports_node hblock, hbelow]
  | .node (.decl _ _) _, h | .node (.backing _ _) _, h => by cases h
  | .missing, h | .endless, h => by cases h
theorem mem_exportedAll {v : ValueId} :
    ∀ {ts : List Tree}, isCodeAll ts = true → (v ∈ exportedAll ts ↔ ∃ t ∈ ts, t.Exports v)
  | [], _ => by simp [exportedAll]
  | t :: ts, h => by
    simp only [isCodeAll, Bool.and_eq_true] at h
    simp [exportedAll, mem_exported h.1, mem_exportedAll h.2]
end

end Tree

/-! ## §4. Violations, spot by spot. -/

/-- **What a node may violate**, given which declarations may be referred to and which values are
visible. -/
inductive Violates (declared : DeclId → Prop) (visible : ValueId → Prop)
    (source : DeclId) (node : Expr) : Finding → Prop
  | outOfScope {v : ValueId} : node.used? = some v → ¬ visible v →
      Violates declared visible source node (.outOfScope v source)
  | undeclared {d : DeclId} : node.referent? = some d → ¬ declared d →
      Violates declared visible source node (.undeclared d source)
  | residual {d : DeclId} : node = .decl d →
      Violates declared visible source node (.residual d source)

/-- Findings that are the violations at some spots, in their order.  There is at most one at a
spot. -/
def Reports (violates : Spot → Finding → Prop) (spots : List Spot) (fs : List Finding) : Prop :=
  ∃ found : List (Option Finding),
    List.Forall₂ (fun s f? => ∀ f, f? = some f ↔ violates s f) spots found
    ∧ fs = found.reduceOption

namespace Reports

variable {violates : Spot → Finding → Prop} {spots spots' : List Spot} {fs fs' : List Finding}

theorem nil : Reports violates [] [] := ⟨[], .nil, rfl⟩

theorem cons {s : Spot} {f? : Option Finding} (hs : ∀ f, f? = some f ↔ violates s f)
    (h : Reports violates spots fs) : Reports violates (s :: spots) (f?.toList ++ fs) := by
  obtain ⟨found, hfound, rfl⟩ := h
  refine ⟨f? :: found, .cons hs hfound, ?_⟩
  cases f? <;> simp

theorem append (h : Reports violates spots fs) (h' : Reports violates spots' fs') :
    Reports violates (spots ++ spots') (fs ++ fs') := by
  obtain ⟨found, hfound, rfl⟩ := h
  obtain ⟨found', hfound', rfl⟩ := h'
  exact ⟨found ++ found', List.rel_append hfound hfound', by simp [List.reduceOption_append]⟩

/-- The same findings at spots that are seen from further out. -/
theorem map {violates' : Spot → Finding → Prop} {g : Spot → Spot} (h : Reports violates spots fs)
    (hg : ∀ s ∈ spots, ∀ f, violates s f ↔ violates' (g s) f) :
    Reports violates' (spots.map g) fs := by
  obtain ⟨found, hfound, rfl⟩ := h
  refine ⟨found, List.forall₂_map_left_iff.2 (forall₂_imp_mem hfound fun s hs f? hf? f => ?_), rfl⟩
  rw [hf? f, hg s hs f]

/-- A finding is reported iff it is a violation somewhere. -/
theorem mem_iff (h : Reports violates spots fs) (f : Finding) :
    f ∈ fs ↔ ∃ s ∈ spots, violates s f := by
  obtain ⟨found, hfound, rfl⟩ := h
  rw [List.reduceOption_mem_iff]
  constructor
  · intro hf
    obtain ⟨s, hs, hsf⟩ := forall₂_left hfound hf
    exact ⟨s, hs, (hsf f).1 rfl⟩
  · rintro ⟨s, hs, hsf⟩
    obtain ⟨f?, hf?, hiff⟩ := forall₂_right hfound hs
    rwa [← (hiff f).2 hsf]

end Reports

section

variable {declared : OrderedSet DeclId} {isDeclared : DeclId → Prop}

/-- A node is judged by the rules. -/
theorem Walk.findingsAt_eq (hdeclared : ∀ d, d ∈ declared ↔ isDeclared d) (source : DeclId)
    {scope : List ValueId} {visible : ValueId → Prop}
    (hscope : ∀ v, v ∈ scope ↔ visible v) (node : Expr) :
    ∃ f? : Option Finding, Walk.findingsAt declared source scope node = f?.toList
      ∧ ∀ f, f? = some f ↔ Violates isDeclared visible source node f := by
  -- a node uses a value, refers to a declaration, places one, or does none of that
  have hused : ∀ {v}, node.used? = some v → node.referent? = none ∧ ∀ d, node ≠ .decl d := by
    cases node <;> simp [Expr.used?, Expr.referent?]
  have hreferent : ∀ {x}, node.referent? = some x → node.used? = none ∧ ∀ d, node ≠ .decl d := by
    cases node <;> simp [Expr.used?, Expr.referent?]
  cases hu : node.used? with
  | some v =>
    obtain ⟨hnone, hdecl⟩ := hused hu
    refine ⟨if v ∈ scope then none else some (.outOfScope v source), ?_, fun f => ?_⟩
    · by_cases hv : v ∈ scope <;> cases node <;> simp_all [Walk.findingsAt, Expr.referent?]
    · constructor
      · intro hf
        by_cases hv : v ∈ scope
        · simp [hv] at hf
        · obtain rfl : Finding.outOfScope v source = f := by simpa [hv] using hf
          exact .outOfScope hu fun h => hv ((hscope v).2 h)
      · rintro (⟨h, hv⟩ | ⟨h, -⟩ | ⟨h⟩)
        · obtain rfl := Option.mem_unique hu h
          rw [if_neg fun h => hv ((hscope v).1 h)]
        · simp [hnone] at h
        · exact absurd h (hdecl _)
  | none =>
    cases hr : node.referent? with
    | some x =>
      obtain ⟨-, hdecl⟩ := hreferent hr
      refine ⟨if x ∈ declared then none else some (.undeclared x source), ?_, fun f => ?_⟩
      · by_cases hx : x ∈ declared <;> cases node
          <;> simp_all [Walk.findingsAt, Expr.referent?, Expr.used?, OrderedSet.contains]
      · constructor
        · intro hf
          by_cases hx : x ∈ declared
          · simp [hx] at hf
          · obtain rfl : Finding.undeclared x source = f := by simpa [hx] using hf
            exact .undeclared hr fun h => hx ((hdeclared x).2 h)
        · rintro (⟨h, -⟩ | ⟨h, hx⟩ | ⟨h⟩)
          · simp [hu] at h
          · obtain rfl := Option.mem_unique hr h
            rw [if_neg fun h => hx ((hdeclared x).1 h)]
          · exact absurd h (hdecl _)
    | none =>
      by_cases hplaced : ∃ d, node = .decl d
      · obtain ⟨d, rfl⟩ := hplaced
        refine ⟨some (.residual d source),
          by simp [Walk.findingsAt, Expr.used?, Expr.referent?], fun f => ?_⟩
        constructor
        · rintro ⟨⟩
          exact .residual rfl
        · rintro (⟨h, -⟩ | ⟨h, -⟩ | ⟨h⟩)
          · cases h
          · cases h
          · cases h
            rfl
      · refine ⟨none, ?_, fun f => ⟨by rintro ⟨⟩, ?_⟩⟩
        · cases node <;> simp_all [Walk.findingsAt, Expr.used?, Expr.referent?]
        · rintro (⟨h, -⟩ | ⟨h, -⟩ | ⟨h⟩)
          · simp [hu] at h
          · simp [hr] at h
          · exact absurd ⟨_, h⟩ hplaced

namespace Tree

mutual
/-- **What is wrong with code is what is violated at its spots**, from left to right. -/
theorem found_reports (hdeclared : ∀ d, d ∈ declared ↔ isDeclared d)
    (source : DeclId) : ∀ {t : Tree}, t.isCode = true →
      ∀ {scope : List ValueId} {visible : ValueId → Prop}, (∀ v, v ∈ scope ↔ visible v) →
    Reports (fun s => Violates isDeclared (fun v => visible v ∨ t.VisibleAt s.path v) source s.node)
      t.spots (t.found declared source scope)
  | .node (.expr e x) below, h, scope, visible, hscope => by
    obtain ⟨f?, hf?, hviolates⟩ := Walk.findingsAt_eq hdeclared source hscope x
    simp only [spots, found, hf?]
    refine .cons (fun f => ?_) ?_
    · rw [hviolates f]
      simp only [not_visibleAt_nil, or_false]
    · exact foundAll_reports hdeclared source e x [] h (by simpa using hscope)
  | .node (.decl _ _) _, h, _, _, _ | .node (.backing _ _) _, h, _, _, _ => by cases h
  | .missing, h, _, _, _ | .endless, h, _, _, _ => by cases h
/-- The operands behind some that are done. -/
theorem foundAll_reports (hdeclared : ∀ d, d ∈ declared ↔ isDeclared d) (source : DeclId)
    (e : ExprId) (x : Expr) :
    ∀ {ts : List Tree} (before : List Tree), isCodeAll ts = true →
      ∀ {scope : List ValueId} {visible : ValueId → Prop},
    (∀ v, v ∈ scope ↔ visible v ∨ ∃ t ∈ before, t.Exports v) →
    Reports (fun s => Violates isDeclared (fun v => visible v
        ∨ (Tree.node (.expr e x) (before ++ ts)).VisibleAt s.path v) source s.node)
      (spotsFrom before.length ts) (foundAll declared source scope ts)
  | [], before, _, scope, visible, _ => by
    simp only [spotsFrom, foundAll]
    exact .nil
  | t :: ts, before, h, scope, visible, hscope => by
    simp only [isCodeAll, Bool.and_eq_true] at h
    have hat : (before ++ t :: ts)[before.length]? = some t := by simp
    simp only [spotsFrom, foundAll]
    refine .append ((found_reports hdeclared source h.1 hscope).map fun s _ f => ?_) ?_
    · -- what was let out before this operand is what is visible where it begins
      have hiff : ∀ v, ((visible v ∨ ∃ u ∈ before, u.Exports v) ∨ t.VisibleAt s.path v)
          ↔ visible v ∨ (Tree.node (.expr e x) (before ++ t :: ts)).VisibleAt
          (s.under before.length).path v := by
        intro v
        rw [show (s.under before.length).path = before.length :: s.path from rfl,
          visibleAt_operand hat, or_assoc]
        refine or_congr_right (or_congr_left ⟨?_, ?_⟩)
        · rintro ⟨u, hu, hex⟩
          obtain ⟨j, hj⟩ := List.mem_iff_getElem?.1 hu
          have hlt : j < before.length := (List.getElem?_eq_some_iff.1 hj).1
          exact ⟨j, hlt, u, by rw [List.getElem?_append_left hlt]; exact hj, hex⟩
        · rintro ⟨j, hlt, u, hu, hex⟩
          rw [List.getElem?_append_left hlt] at hu
          exact ⟨u, List.mem_of_getElem? hu, hex⟩
      simp only [hiff]
      rfl
    · have hscope' : ∀ v, v ∈ scope ++ t.exported
          ↔ visible v ∨ ∃ u ∈ before ++ [t], u.Exports v := by
        intro v
        simp only [List.mem_append, hscope, mem_exported h.1, List.mem_singleton, or_assoc]
        refine or_congr_right ⟨?_, ?_⟩
        · rintro (⟨u, hu, hex⟩ | hex)
          · exact ⟨u, .inl hu, hex⟩
          · exact ⟨t, .inr rfl, hex⟩
        · rintro ⟨u, hu | rfl, hex⟩
          · exact .inl ⟨u, hu, hex⟩
          · exact .inr hex
      simpa using foundAll_reports hdeclared source e x (before ++ [t]) h.2 hscope'
end

end Tree

end

end LambdaLift
