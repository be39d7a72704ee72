/-
  LambdaLift.Proofs.LeastClosures
  **CLOSURE ANALYSIS COMPUTES THE LEAST FAMILY THAT OBEYS THE RULES.**

  A round passes the closures of callees along references.  Two things
  carry the argument: nothing is ever added that the rules do not ask for
  (`Sound`), and a round that reports nothing has changed nothing, so what
  it would have added is there already (`Settled`).  Each report is one
  more value in one closure, which bounds the number of rounds.

  Main results:
    * `Captures.saturateUpTo_eq` — rounds end, in a settled family;
    * `Program.closures_spec` — a value is in a closure iff it is captured;
    * `closures_isLeast` — the closures are the least family that obeys the
      rules of capture.
-/
import Mathlib
import LambdaLift.Sample
import LambdaLift.Proofs.CaptureWalk

namespace LambdaLift

variable {callee d : DeclId} {all ds : List DeclId} {v : ValueId} {c : Closure} {cl : Closures}
  {s : Scope} {value : Value}

/-- A closure holds a value. -/
def Closures.Holds (cl : Closures) (d : DeclId) (v : ValueId) : Prop :=
  ∃ c, cl.get? d = some c ∧ v ∈ c

/-- How many values the closures hold together. -/
def Closures.weight (cl : Closures) : Nat := (cl.values.map OrderedSet.size).sum

namespace Captures

/-! ## §1. Growth. -/

/-- Closures have grown: nothing is lost, and every report is one more value. -/
structure Grown (g g' : Growth) : Prop where
  keys : g'.closures.keys = g.closures.keys
  kept : ∀ {d v}, g.closures.Holds d v → g'.closures.Holds d v
  reported : g.events.length ≤ g'.events.length
  weight : g'.closures.weight + g.events.length = g.closures.weight + g'.events.length
  unchanged : g'.events.length = g.events.length → g'.closures = g.closures

namespace Grown

variable {g g' g'' : Growth}

theorem refl (g : Growth) : Grown g g := ⟨rfl, id, le_rfl, rfl, fun _ => rfl⟩

theorem trans (h : Grown g g') (h' : Grown g' g'') : Grown g g'' where
  keys := h'.keys.trans h.keys
  kept hd := h'.kept (h.kept hd)
  reported := h.reported.trans h'.reported
  weight := by have := h.weight; have := h'.weight; omega
  unchanged heq := by
    have hle := h.reported
    have hle' := h'.reported
    exact (h'.unchanged (by omega)).trans (h.unchanged (by omega))

/-- If nothing was reported in two steps, nothing was in either. -/
theorem silent (h : Grown g g') (h' : Grown g' g'') (heq : g''.events.length = g.events.length) :
    g'.events.length = g.events.length ∧ g''.events.length = g'.events.length := by
  have hle := h.reported
  have hle' := h'.reported
  omega

end Grown

/-- The rounds so far have only added what is captured. -/
def Sound (p : Program) (root : DeclId) (cl : Closures) : Prop :=
  (∀ d, d ∈ cl.keys ↔ Opens p root d) ∧ ∀ {d v}, cl.Holds d v → Captured p root d v

/-- **Steps of growth in a row.**  What each step keeps, the whole run keeps; and if the whole run
reports nothing, each step has found its closures settled. -/
theorem grown_foldlM {α : Type} {f : Growth → α → Except Fault Growth} {p : Program} {root : DeclId}
    (settled : α → Closures → Prop) {as : List α}
    (hstep : ∀ g, Sound p root g.closures → ∀ a ∈ as, ∃ g', f g a = .ok g'
      ∧ Sound p root g'.closures
      ∧ Grown g g' ∧ (g'.events.length = g.events.length → settled a g.closures))
    {g : Growth} (hg : Sound p root g.closures) :
    ∃ g', as.foldlM f g = .ok g' ∧ Sound p root g'.closures ∧ Grown g g'
      ∧ (g'.events.length = g.events.length → ∀ a ∈ as, settled a g.closures) := by
  induction as generalizing g with
  | nil => exact ⟨g, rfl, hg, .refl g, fun _ a ha => by cases ha⟩
  | cons a as ih =>
    obtain ⟨g₁, h₁, hs₁, hg₁, hset₁⟩ := hstep g hg a List.mem_cons_self
    obtain ⟨g₂, h₂, hs₂, hg₂, hset₂⟩ :=
      ih (fun g hg b hb => hstep g hg b (List.mem_cons_of_mem _ hb)) hs₁
    refine ⟨g₂, ?_, hs₂, hg₁.trans hg₂, fun heq b hb => ?_⟩
    · rw [List.foldlM_cons, h₁, Except.ok_bind, h₂]
    · obtain ⟨heq₁, heq₂⟩ := hg₁.silent hg₂ heq
      rcases List.mem_cons.1 hb with rfl | hb
      · exact hset₁ heq₁
      · exact hg₁.unchanged heq₁ ▸ hset₂ heq₂ b hb

variable {p : Program} {root : DeclId}

/-- Values that are captured are there. -/
theorem exists_of_captured (hp : p.Closed) (h : Captured p root d v) :
    ∃ value, p.values.get? v = some value := by
  induction h with
  | use _ hlabel hused _ => exact hp.exists_used hlabel hused
  | through _ _ _ _ _ _ ih => exact ih

/-- A closure that gains a value weighs one more. -/
theorem weight_modify (hd : cl.get? d = some c) (hv : v ∉ c) :
    Closures.weight (cl.modify d (·.insert v)) = Closures.weight cl + 1 := by
  obtain ⟨es, hnodup⟩ := cl
  simp only [OrderedMap.get?, Closures.weight, OrderedMap.values, OrderedMap.modify] at hd ⊢
  induction es with
  | nil => cases hd
  | cons e es ih =>
    obtain ⟨k, c'⟩ := e
    simp only [List.map_cons, List.nodup_cons] at hnodup
    by_cases hk : d = k
    · subst hk
      obtain rfl : c' = c := by simpa using hd
      -- no other entry has this key
      have hrest : (es.map fun e => if e.1 = d then (e.1, e.2.insert v) else e) = es := by
        conv_rhs => rw [← List.map_id es]
        refine List.map_congr_left fun e he => ?_
        have hne : e.1 ≠ d := fun h => hnodup.1 (h ▸ List.mem_map_of_mem he)
        simp [hne]
      simp only [List.map_cons, if_true, hrest, List.sum_cons, OrderedSet.size,
        OrderedSet.toList_insert]
      rw [if_neg hv]
      simp
      omega
    · have hb : (d == k) = false := by simp [hk]
      rw [List.lookup_cons, hb] at hd
      have hk' : ¬ k = d := fun h => hk h.symm
      have := ih hnodup.2 hd
      simp only [List.map_cons, if_neg hk', List.sum_cons] at this ⊢
      omega

/-- Closures of allocated values weigh no more than all values in each of them. -/
theorem weight_le (h : ∀ {d v}, cl.Holds d v → ∃ value, p.values.get? v = some value) :
    cl.weight ≤ cl.size * p.values.size := by
  have hsize : ∀ c ∈ cl.values, c.size ≤ p.values.size := by
    intro c hc
    obtain ⟨⟨d, c⟩, he, rfl⟩ := List.mem_map.1 hc
    refine Handle.length_le_of_nodup c.nodup fun v hv => ?_
    obtain ⟨value, hvalue⟩ := h ⟨c, OrderedMap.get?_eq_some_iff.2 he, hv⟩
    exact Arena.lt_size_of_get? hvalue
  have hsum :=
    List.sum_le_card_nsmul (cl.values.map OrderedSet.size) p.values.size (by simpa using hsize)
  simpa [Closures.weight, OrderedMap.values, OrderedMap.size] using hsum

theorem exists_closure (hcl : Sound p root cl) (hopens : Opens p root d) :
    ∃ c, cl.get? d = some c := by
  cases hc : cl.get? d with
  | none => exact absurd ((hcl.1 d).2 hopens) (OrderedMap.get?_eq_none_iff.1 hc)
  | some c => exact ⟨c, rfl⟩

/-- A closure that has gained a value holds it besides what it held. -/
theorem holds_modify {d' : DeclId} {x : ValueId} (hd : cl.get? d = some c) :
    Closures.Holds (cl.modify d (·.insert v)) d' x ↔ cl.Holds d' x ∨ d' = d ∧ x = v := by
  simp only [Closures.Holds, OrderedMap.get?_modify]
  by_cases hd' : d' = d
  · subst hd'
    simp [hd]
  · simp [hd']

/-- One more value in one closure, with its report. -/
theorem Grown.insert {g : Growth} (hd : g.closures.get? d = some c) (hv : v ∉ c) (event : Event) :
    Grown g { closures := g.closures.modify d (·.insert v), events := g.events ++ [event] } := by
  refine ⟨by simp, fun h => (holds_modify hd).2 (.inl h), by simp, ?_, by simp⟩
  simp only [weight_modify hd hv, List.length_append, List.length_singleton]
  omega

/-- Adding a value to the closure of a declaration. -/
theorem grow_eq (hp : p.Closed) (hcallee : ∃ content, p.decls.get? callee = some content)
    (hs : p.HasScope d s) (hcaptured : Captured p root d v) (hopens : Opens p root d) {g : Growth}
    (hg : Sound p root g.closures) :
    ∃ g', grow p callee v s g = .ok g' ∧ Sound p root g'.closures ∧ Grown g g'
      ∧ g'.closures.Holds d v := by
  obtain ⟨c, hc⟩ := exists_closure hg hopens
  unfold grow
  rw [hp.scope_decl hs, hc]
  by_cases hv : v ∈ c
  · simp only [OrderedSet.contains_iff.2 hv, if_true]
    exact ⟨g, rfl, hg, .refl g, c, hc, hv⟩
  · have hcontains : ¬ c.contains v = true := fun h => hv (OrderedSet.contains_iff.1 h)
    obtain ⟨value, hvalue⟩ := exists_of_captured hp hcaptured
    obtain ⟨content, hd, -⟩ := hs
    obtain ⟨calleeContent, hcallee⟩ := hcallee
    simp only [if_neg hcontains, Program.decl_eq_ok.2 hd, Program.decl_eq_ok.2 hcallee,
      Program.value_eq_ok.2 hvalue, Except.ok_bind]
    refine ⟨_, rfl, ⟨fun d' => ?_, fun {d' x} h => ?_⟩, .insert hc hv _,
      (holds_modify hc).2 (.inr ⟨rfl, rfl⟩)⟩
    · simpa using hg.1 d'
    · rcases (holds_modify hc).1 h with h | ⟨rfl, rfl⟩
      · exact hg.2 h
      · exact hcaptured

/-! ## §2. Passing a value outwards. -/

/-- A family holds a value wherever passing it would add it. -/
def Along (p : Program) (v : ValueId) (holds : DeclId → Prop) :
    (innermost : Bool) → List DeclId → Prop
  | _, [] => True
  | true, d :: ds => p.External d v → holds d ∧ Along p v holds false ds
  | false, d :: ds => ¬ p.Owns d v → holds d ∧ Along p v holds false ds

theorem Along.of_reaches {holds : DeclId → Prop} {rest : List DeclId} (h : Along p v holds true ds)
    (hreach : Reaches p v ds rest) :
    ∀ {d outer}, rest = d :: outer → holds d ∧ Along p v holds false outer := by
  induction hreach with
  | innermost hext =>
    intro d outer heq
    cases heq
    exact h hext
  | outwards _ howns ih =>
    intro d outer heq
    cases heq
    exact (ih h rfl).2 howns

/-- Whether a scope stops a value has an answer. -/
theorem stops_eq (hp : p.Closed) (hchains : p.ChainsEnd) (hv : p.values.get? v = some value)
    (hs : p.HasScope d s) (innermost : Bool) :
    ∃ b, stops p innermost s v = .ok b
      ∧ (b = false ↔ if innermost then p.External d v else ¬ p.Owns d v) := by
  cases innermost with
  | true =>
    obtain ⟨b, hb⟩ := hp.exists_isExternal hchains hv s
    refine ⟨!b, by simp only [stops, if_true, hb]; rfl, ?_⟩
    rw [if_pos rfl, hs.external_iff, hb]
    cases b <;> simp
  | false =>
    refine ⟨decide (value.owner = d), ?_, ?_⟩
    · simp only [stops, Program.owner_of_get? hv, hp.scope_decl hs]
      rfl
    · simp [Program.owns_iff hv]

/-- The first scope of a list is one that a value from the scopes `all` gets to: it is the innermost
of them, or the value has come to the one before it. -/
def Arrives (p : Program) (v : ValueId) (all : List DeclId) :
    (innermost : Bool) → List DeclId → Prop
  | true, ds => ds = all
  | false, ds => ∃ d, Reaches p v all (d :: ds)

theorem Arrives.reaches {innermost : Bool} (h : Arrives p v all innermost (d :: ds))
    (hstep : if innermost then p.External d v else ¬ p.Owns d v) : Reaches p v all (d :: ds) := by
  cases innermost with
  | true =>
    obtain rfl : d :: ds = all := h
    exact .innermost hstep
  | false =>
    obtain ⟨d', hreach⟩ := h
    exact .outwards hreach hstep

/-- **Passing a value outwards** adds it to closures that capture it, and if nothing is reported it
was there already, all the way. -/
theorem pass_eq (hp : p.Closed) (hchains : p.ChainsEnd)
    (hcallee : ∃ content, p.decls.get? callee = some content) (hv : p.values.get? v = some value)
    (hcaptured : ∀ {d outer}, Reaches p v all (d :: outer) → Captured p root d v) :
    ∀ {ds : List DeclId} {ss : List Scope} {innermost : Bool} {g : Growth},
      List.Forall₂ p.HasScope ds ss → (∀ d ∈ ds, Opens p root d) → Arrives p v all innermost ds →
      Sound p root g.closures →
      ∃ g', pass p callee v innermost ss g = .ok g' ∧ Sound p root g'.closures ∧ Grown g g'
        ∧ (g'.events.length = g.events.length → Along p v (g.closures.Holds · v) innermost ds) := by
  intro ds
  induction ds with
  | nil =>
    intro ss innermost g hscopes _ _ hg
    cases hscopes
    exact ⟨g, rfl, hg, .refl g, fun _ => by cases innermost <;> trivial⟩
  | cons d ds ih =>
    intro ss innermost g hscopes hopens harrives hg
    obtain ⟨s, ss, hs, hrest, rfl⟩ := List.forall₂_cons_left_iff.1 hscopes
    obtain ⟨b, hb, hstop⟩ := stops_eq hp hchains hv hs innermost
    cases b with
    | true =>
      -- the scope stops the value
      refine ⟨g, by simp only [pass, hb, Except.ok_bind, if_true]; rfl, hg, .refl g, fun _ => ?_⟩
      cases innermost with
      | true => exact fun h => absurd (hstop.2 h) (by simp)
      | false => exact fun h => absurd (hstop.2 h) (by simp)
    | false =>
      have hreach := harrives.reaches (hstop.1 rfl)
      obtain ⟨g₁, h₁, hs₁, hg₁, hholds⟩ := grow_eq hp hcallee hs (hcaptured hreach)
        (hopens d List.mem_cons_self) hg
      have harrives' : Arrives p v all false ds := ⟨d, hreach⟩
      obtain ⟨g₂, h₂, hs₂, hg₂, hset⟩ := ih hrest
        (fun d' hd' => hopens d' (List.mem_cons_of_mem _ hd')) harrives' hs₁
      refine ⟨g₂, ?_, hs₂, hg₁.trans hg₂, fun heq => ?_⟩
      · simp only [pass, hb, Except.ok_bind, h₁]
        exact h₂
      · obtain ⟨heq₁, heq₂⟩ := hg₁.silent hg₂ heq
        have hsame := hg₁.unchanged heq₁
        rw [hsame] at hholds hset
        cases innermost with
        | true => exact fun _ => ⟨hholds, hset heq₂⟩
        | false => exact fun _ => ⟨hholds, hset heq₂⟩

/-! ## §3. Rounds. -/

/-- Everything that following a reference would add is there. -/
def Settled (p : Program) (r : Reference) (cl : Closures) : Prop :=
  ∀ v ds d outer, cl.Holds r.callee v → List.Forall₂ p.HasScope ds r.scopes →
    Reaches p v ds (d :: outer) → cl.Holds d v

/-- A reference stands below the root. -/
def Stands (p : Program) (root : DeclId) (r : Reference) : Prop :=
  ∃ ds place label, Occurs p root ds place ∧ p.label? place = some label ∧ Records p r (ds, label)

/-- Following a reference. -/
theorem follow_eq (hp : p.Closed) (hchains : p.ChainsEnd) {r : Reference} (hr : Stands p root r)
    {g : Growth} (hg : Sound p root g.closures) :
    ∃ g', follow p g r = .ok g' ∧ Sound p root g'.closures ∧ Grown g g'
      ∧ (g'.events.length = g.events.length → Settled p r g.closures) := by
  obtain ⟨ds, place, label, hocc, hlabel, -, hscopes, callee, hcallee, hdraws⟩ := hr
  unfold follow
  cases hc : g.closures.get? r.callee with
  | none =>
    refine ⟨g, rfl, hg, .refl g, fun _ => ?_⟩
    rintro v ds d outer ⟨c, hc', -⟩ -
    rw [hc] at hc'
    cases hc'
  | some c =>
    have hexists : ∃ content, p.decls.get? r.callee = some content := by
      obtain ⟨ds, place, label, content, -, hlabel, hopened⟩ :=
        (hg.1 r.callee).1 (Decidable.byContradiction fun hn => by
          rw [OrderedMap.get?_eq_none_iff.2 hn] at hc
          cases hc)
      exact ⟨content, (Program.opened_of_label hlabel hopened).1⟩
    have hcaptured : ∀ v ∈ c.toList, Captured p root r.callee v := fun v hv => hg.2 ⟨c, hc, hv⟩
    -- each value of the closure is passed outwards from the reference
    have hpass : ∀ g : Growth, Sound p root g.closures → ∀ v ∈ c.toList,
        ∃ g', pass p r.callee v true r.scopes g = .ok g' ∧ Sound p root g'.closures ∧ Grown g g'
          ∧ (g'.events.length = g.events.length → Along p v (g.closures.Holds · v) true ds) := by
      intro g hg v hv
      obtain ⟨value, hvalue⟩ := exists_of_captured hp (hcaptured v hv)
      have hthrough : ∀ {d outer}, Reaches p v ds (d :: outer) → Captured p root d v :=
        fun hreach => .through hocc hlabel hcallee hdraws (hcaptured v hv) hreach
      exact pass_eq hp hchains hexists hvalue hthrough hscopes (fun d hd => hocc.opens hd) rfl hg
    obtain ⟨g', h', hs', hg', hset⟩ :=
      grown_foldlM (fun v cl => Along p v (cl.Holds · v) true ds) hpass hg
    refine ⟨g', h', hs', hg', fun heq => ?_⟩
    rintro v ds' d outer ⟨c', hc', hv⟩ hscopes' hreach
    obtain rfl := Option.mem_unique hc hc'
    obtain rfl : ds' = ds := (hp.eq_map_decl hscopes').trans (hp.eq_map_decl hscopes).symm
    exact ((hset heq v hv).of_reaches hreach rfl).1

/-- **Rounds end in settled closures.**  A round that reports anything has added a value, and there
is room for only so many. -/
theorem saturateUpTo_eq (hp : p.Closed) (hchains : p.ChainsEnd) {references : List Reference}
    (hreferences : ∀ r ∈ references, Stands p root r) :
    ∀ {fuel : Nat} {cl : Closures}, Sound p root cl → cl.size * p.values.size < cl.weight + fuel →
      ∃ g, saturateUpTo p references fuel cl = .ok g ∧ Sound p root g.closures
        ∧ (∀ {d v}, cl.Holds d v → g.closures.Holds d v) ∧ ∀ r ∈ references,
          Settled p r g.closures := by
  intro fuel
  induction fuel with
  | zero =>
    intro cl hcl hroom
    have hle : cl.weight ≤ cl.size * p.values.size :=
      weight_le fun h => exists_of_captured hp (hcl.2 h)
    omega
  | succ fuel ih =>
    intro cl hcl hroom
    obtain ⟨g, hround, hs, hgrown, hset⟩ := grown_foldlM (g := { closures := cl }) (Settled p)
      (fun g hg r hr => follow_eq hp hchains (hreferences r hr) hg) hcl
    simp only [List.length_nil] at hset
    unfold saturateUpTo round
    rw [hround, Except.ok_bind]
    cases hempty : g.events.isEmpty with
    | true =>
      have hlen : g.events.length = 0 := by simpa using hempty
      refine ⟨g, rfl, hs, hgrown.kept, fun r hr => ?_⟩
      have hsame : g.closures = cl := hgrown.unchanged hlen
      exact hsame ▸ hset hlen r hr
    | false =>
      have hlen : 0 < g.events.length := by
        cases hev : g.events with
        | nil => simp [hev] at hempty
        | cons e es => simp
      have hsize : g.closures.size = cl.size := by
        simpa [OrderedMap.keys, OrderedMap.size] using congrArg List.length hgrown.keys
      have hweight := hgrown.weight
      simp only [List.length_nil, Nat.add_zero] at hweight
      obtain ⟨g', h', hs', hkept, hset'⟩ := ih hs (by rw [hsize]; omega)
      refine ⟨{ g' with events := g.events ++ g'.events }, ?_, hs',
        fun h => hkept (hgrown.kept h), hset'⟩
      simp only [Bool.false_eq_true, if_false, h', Except.ok_bind]
      rfl

end Captures

/-! ## §4. The closures of a root. -/

namespace Program

variable {p : Program} {root : DeclId}

/-- The initial closures hold what is captured directly, and nothing else is captured by direct
use. -/
theorem captured_of_direct (hopens : Opens p root d) (h : Captures.Direct p d v) :
    Captured p root d v := by
  obtain ⟨ds, outer, label, content, hocc, hlabel, hopened⟩ := hopens
  obtain ⟨rel, place, label', hin, hlabel', hused, hreach⟩ := h
  have hreach' : Reaches p v (rel ++ d :: ds) (d :: ds) := by
    simpa using (Reaches.append_iff ds (by simp)).2 hreach
  exact .use (hocc.under hlabel hopened hin) hlabel' hused hreach'

theorem direct_of_reaches {outer : List DeclId} {place : Place} {label : Label}
    (hocc : Occurs p root ds place) (hlabel : p.label? place = some label)
    (hused : label.used? = some v) (hreach : Reaches p v ds (d :: outer)) :
    Opens p root d ∧ Captures.Direct p d v := by
  obtain ⟨rel, rfl⟩ := hreach.suffix
  obtain ⟨hin, hopens⟩ := hocc.inside rfl
  refine ⟨hopens, rel, place, label, hin, hlabel, hused, ?_⟩
  exact (Reaches.append_iff outer (by simp)).1 (by simpa using hreach)

/-- Declarations that open scopes have them. -/
theorem Closed.exists_scopes (hp : p.Closed) (hds : ∀ d ∈ ds, Opens p root d) :
    ∃ scopes, List.Forall₂ p.HasScope ds scopes := by
  induction ds with
  | nil => exact ⟨[], .nil⟩
  | cons d ds ih =>
    obtain ⟨scopes, hscopes⟩ := ih fun d' hd' => hds d' (List.mem_cons_of_mem _ hd')
    obtain ⟨_, _, label, content, -, hlabel, hopened⟩ := hds d List.mem_cons_self
    obtain ⟨hd, hopens, -⟩ := opened_of_label hlabel hopened
    have hscope := hp.exists_scope hd
    rw [if_pos hopens] at hscope
    obtain ⟨s, -, hs⟩ := hscope
    exact ⟨s :: scopes, .cons ⟨content, hd, hs⟩ hscopes⟩

/-- **What the closures of a root hold.**  The analysis answers; it has a closure for each
declaration that opens a scope below the root, and the closure holds exactly what the declaration
captures. -/
theorem closures_spec (hp : p.Closed) (hchains : p.ChainsEnd) {content : Declaration}
    (hroot : p.decls.get? root = some content) {ts : List Tree}
    (hts : Tree.ReadsAll p .nested ts content.parts)
    (hlocal : ∀ d, Opens p root d → p.isLocal d = .ok true) :
    ∃ cl events, p.closures root = .ok (cl, events) ∧ (∀ d, d ∈ cl.keys ↔ Opens p root d)
      ∧ ∀ d v, cl.Holds d v ↔ Captured p root d v := by
  obtain ⟨w, hw, hkeys, hdirect, hreferences⟩ := Captures.walked_root hp hchains hroot hts hlocal
  have hsound : Captures.Sound p root w.gathered.closures := by
    refine ⟨hkeys, ?_⟩
    rintro d v ⟨c, hc, hv⟩
    have hopens : Opens p root d := (hkeys d).1 (Decidable.byContradiction fun hn => by
      rw [OrderedMap.get?_eq_none_iff.2 hn] at hc
      cases hc)
    exact captured_of_direct hopens ((hdirect d c hc v).1 hv)
  have hroom : w.gathered.closures.size * p.values.size
      < w.gathered.closures.weight + (w.gathered.closures.size * p.values.size + 1) := by omega
  obtain ⟨g, hg, hs, hkept, hsettled⟩ := Captures.saturateUpTo_eq hp hchains
    (fun r hr => (hreferences r).1 hr) hsound hroom
  refine ⟨g.closures, w.gathered.events ++ g.events, ?_, hs.1, fun d v => ⟨hs.2, fun h => ?_⟩⟩
  · simp only [closures, hw, Except.ok_bind, Captures.saturate, hg]
    rfl
  · -- settled closures obey the rules, and what is captured is the least that does
    have hobeys : ObeysCapture p root fun d => {v | g.closures.Holds d v} := ?_
    · exact (captured_isLeast p root).2 hobeys d h
    refine ⟨?_, ?_⟩
    · intro ds place label v d outer hocc hlabel hused hreach
      obtain ⟨hopens, hd⟩ := direct_of_reaches hocc hlabel hused hreach
      obtain ⟨c, hc⟩ := Captures.exists_closure hsound hopens
      exact hkept ⟨c, hc, (hdirect d c hc v).2 hd⟩
    · intro ds place label callee f v d outer hocc hlabel hcallee hdraws hv hreach
      obtain ⟨scopes, hscopes⟩ := hp.exists_scopes fun d hd => hocc.opens hd
      have hr : ({ scopes, callee := f } : Reference) ∈ w.gathered.references :=
        (hreferences _).2 ⟨ds, place, label, hocc, hlabel, List.ne_nil_of_mem
          (hreach.suffix.subset List.mem_cons_self), hscopes, callee, hcallee, hdraws⟩
      exact hsettled _ hr v ds d outer hv hscopes hreach

end Program

/-- **Closure analysis computes the least solution of the capture rules.**  In a program whose
handles all lead somewhere and whose chains of parents end, for a root below which nothing is nested
in itself and every scope stands below a callable, the analysis answers.  It has a closure for each
declaration that opens a scope below the root, and as sets the closures are the least family that
obeys the rules. -/
theorem closures_isLeast {p : Program} {root : DeclId} {content : Declaration} (hp : p.Closed)
    (hchains : p.ChainsEnd) (hroot : p.decls.get? root = some content)
    (hacyclic : p.AcyclicAt .nested (.decl root))
    (hlocal : ∀ d, Opens p root d → p.isLocal d = .ok true) :
    ∃ cl events, p.closures root = .ok (cl, events) ∧ (∀ d, d ∈ cl.keys ↔ Opens p root d)
      ∧ IsLeast {C | ObeysCapture p root C} fun d => {v | cl.Holds d v} := by
  have hlabel : p.label? (.decl root) = some (.decl root content) :=
    Program.label?_eq_decl.2 ⟨rfl, hroot⟩
  obtain ⟨t, ht⟩ := Program.exists_reads (hp.completeAt ⟨_, hlabel⟩) hacyclic
  obtain ⟨cl, events, hclosures, hkeys, hholds⟩ :=
    Program.closures_spec hp hchains hroot (Program.readsAll_parts ht hroot) hlocal
  refine ⟨cl, events, hclosures, hkeys, ?_⟩
  have heq : (fun d => {v | cl.Holds d v}) = fun d => {v | Captured p root d v} := by
    funext d
    exact Set.ext fun v => hholds d v
  exact heq ▸ captured_isLeast p root

/-- Two local functions, of which one captures only through the other. -/
theorem closures_isLeast_siblings :
    ∃ cl events, (Sample.program Sample.siblingCall).closures ⟨0⟩ = .ok (cl, events)
      ∧ (∀ d, d ∈ cl.keys ↔ Opens (Sample.program Sample.siblingCall) ⟨0⟩ d)
      ∧ IsLeast {C | ObeysCapture (Sample.program Sample.siblingCall) ⟨0⟩ C} fun d =>
        {v | cl.Holds d v} := by
  have hroot := (Option.some_get (x := (Sample.program Sample.siblingCall).decls.get? ⟨0⟩)
    (by decide +kernel)).symm
  have hcomplete :
      ((Sample.program Sample.siblingCall).unfoldUpTo .nested 20 (.decl ⟨0⟩)).complete = true := by
    decide +kernel
  exact closures_isLeast (by decide +kernel) (by decide +kernel) hroot
    (Program.acyclicAt_of_complete hcomplete)
    (Occurs.forall_opens_of_complete hroot hcomplete (by decide +kernel))

end LambdaLift
