/-
  LambdaLift.Proofs.FixedPoint
  **A SECOND RUN CHANGES NOTHING.**

  The second run meets other containers and other roots than the first:
  lifted functions are roots now, and lifted classes are containers.  Each
  container it meets was there before, and then it is settled, or it is a
  lifted class, and then its callables are bare.  So the second run lowers
  no root.

  Main results:
    * `Run.exists_containers` — the containers that the second run meets;
    * `Run.idle_of_settled`, `Run.idle_of_lifted` — none of them has anything to lower;
    * `lower_fixed` — the second run.
-/
import Mathlib
import LambdaLift.Proofs.Runs
import LambdaLift.Proofs.Steps

namespace LambdaLift

variable {d s : DeclId} {container : Option DeclId} {fuel fuel' : Nat}

/-! ## §1. Chains when lists change. -/

namespace Program

variable {P p : Program}

/-- Lists do not matter to a chain that ends: it runs through the same kinds of scopes. -/
theorem chainFrom_of_relists (h : P.Relists p) {d? : Option DeclId} (hfuel : fuel ≤ fuel')
    (hend : (P.chainFrom fuel d?).ending = .atModule) :
    (p.chainFrom fuel' d?).ending = .atModule
      ∧ (p.chainFrom fuel' d?).scopes.map (·.2.isCallable) = (P.chainFrom fuel d?).scopes.map
        (·.2.isCallable) := by
  induction fuel generalizing fuel' d? with
  | zero =>
    cases d? with
    | none => unfold chainFrom; exact ⟨rfl, rfl⟩
    | some d => unfold chainFrom at hend; cases hend
  | succ fuel ih =>
    cases d? with
    | none => unfold chainFrom; exact ⟨rfl, rfl⟩
    | some d =>
      obtain ⟨fuel', rfl⟩ : ∃ m, fuel' = m + 1 := ⟨fuel' - 1, by omega⟩
      unfold chainFrom at hend ⊢
      cases hd : P.decls.get? d with
      | none =>
        rw [hd] at hend
        cases hend
      | some content =>
        rw [hd] at hend
        obtain ⟨content', hd', hsame⟩ := h _ _ hd
        have hkind : content'.parent = content.parent
            ∧ content'.isCallable = content.isCallable := by
          rcases hsame with rfl | ⟨c, ms, rfl, rfl⟩ <;> exact ⟨rfl, rfl⟩
        obtain ⟨hending, hscopes⟩ := @ih fuel' content.parent (by omega) hend
        rw [hd']
        simp only [hkind.1, List.map_cons, hkind.2, hscopes]
        exact ⟨hending, trivial⟩

theorem isLocal_of_relists (h : P.Relists p) (hends : P.ChainsEnd) {content : Declaration}
    (hd : P.decls.get? d = some content) : p.isLocal d = P.isLocal d := by
  have hend := hends.ending hd
  obtain ⟨hending, hscopes⟩ := chainFrom_of_relists (p := p) h (Nat.succ_le_succ h.size_le) hend
  have hany : ∀ scopes : List (DeclId × Declaration),
      scopes.tail.any (fun s => s.2.isCallable) = (scopes.map (·.2.isCallable)).tail.any id := by
    intro scopes
    rw [← List.map_tail, List.any_map]
    rfl
  rw [isLocal_of_ending hend, isLocal_of_ending hending, hany, hany]
  exact congrArg (fun kinds : List Bool => Except.ok (kinds.tail.any id)) hscopes

/-- What stands where an old declaration stands has a chain that ends. -/
theorem exists_isLocal_of_parent (h : P.Relists p) (hends : P.ChainsEnd) {old new : Declaration}
    (hd : P.decls.get? d = some old) (hs : p.decls.get? s = some new)
    (hparent : new.parent = old.parent) : ∃ b, p.isLocal s = .ok b := by
  have hend := hends.ending hd
  have hending : (p.chain s).ending = .atModule := by
    simp only [chain, chainFrom, hd] at hend
    simp only [chain, chainFrom, hs, hparent]
    exact (chainFrom_of_relists h h.size_le hend).1
  exact ⟨_, isLocal_of_ending hending⟩

end Program

/-! ## §2. The containers of the second run. -/

namespace Run

open Program Slot Lowering

variable {P p : Program} {slots : Option DeclId → List Slot} {table : Lifted}

/-- The declaration is a lifted class that the table names. -/
def LiftedClass (table : Lifted) (p : Program) (k : DeclId) : Prop :=
  ∃ b ∈ table.entries, k ∈ b.2 ∧ ∃ c, p.decls.get? k = some (.cls c)

/-- A sibling brings at most itself as a container. -/
theorem classesUpTo_sibling (h : Run P slots table p) {b : DeclId × List DeclId}
    (hb : b ∈ table.entries) (hs : s ∈ b.2) (fuel : Nat) :
    ∃ ks, p.classesUpTo (fuel + 2) s = .ok ks ∧ ∀ k ∈ ks, LiftedClass table p k := by
  obtain ⟨-, d, contentD, -, ⟨f, hf, -⟩ | ⟨c, hc, -, hmembers⟩⟩ := h.siblings b hb s hs
  · refine ⟨[], ?_, by simp⟩
    rw [classesUpTo, decl_eq_ok.2 hf]
    rfl
  · -- members of a lifted class are no classes
    have hnone : ∀ m ∈ c.members, ∃ ks, p.classesUpTo (fuel + 1) m = .ok ks ∧ ks = [] := by
      intro m hm
      obtain ⟨content, hcontent, hclass, -⟩ := hmembers m hm
      refine ⟨[], ?_, rfl⟩
      rw [classesUpTo, decl_eq_ok.2 hcontent]
      cases content with
      | cls c' => exact absurd rfl (hclass c')
      | _ => rfl
    obtain ⟨kss, hkss, hall⟩ := Except.mapM_eq_ok (P := fun _ ks => ks = []) hnone
    have hflatten : kss.flatten = [] := by
      refine List.flatten_eq_nil_iff.2 fun ks hks => ?_
      obtain ⟨m, -, hks⟩ := forall₂_left hall hks
      exact hks
    refine ⟨[s], ?_, fun k hk => ?_⟩
    · rw [classesUpTo, decl_eq_ok.2 hc]
      show (c.members.mapM (p.classesUpTo (fuel + 1)) >>= fun kss => pure (kss.flatten ++ [s])) = _
      rw [hkss]
      show Except.ok (kss.flatten ++ [s]) = _
      rw [hflatten]
      rfl
    · cases List.mem_singleton.1 hk
      exact ⟨b, hb, hs, c, hc⟩

/-- An old declaration brings the containers that it brought, and lifted classes. -/
theorem exists_classesUpTo (h : Run P slots table p) {ks : List DeclId}
    (hks : P.classesUpTo fuel d = .ok ks) (hfuel : fuel ≤ fuel')
    (hmore : table.entries ≠ [] → fuel < fuel') :
    ∃ ks', p.classesUpTo fuel' d = .ok ks' ∧ ∀ k ∈ ks', k ∈ ks ∨ LiftedClass table p k := by
  induction fuel generalizing fuel' d ks with
  | zero => cases hks
  | succ fuel ih =>
    obtain ⟨fuel', rfl⟩ : ∃ m, fuel' = m + 1 := ⟨fuel' - 1, by omega⟩
    obtain ⟨content, hd, hks⟩ := Except.bind_eq_ok.1 hks
    rw [decl_eq_ok] at hd
    obtain ⟨content', hd', hsame⟩ := h.relists _ _ hd
    by_cases hclass : ∃ c, content = .cls c
    swap
    · -- what is no class brings nothing, as before
      obtain rfl : content' = content := hsame.resolve_right fun ⟨c, _, hc, _⟩ => hclass ⟨c, hc⟩
      refine ⟨[], ?_, by simp⟩
      rw [classesUpTo, decl_eq_ok.2 hd']
      cases content' with
      | cls c => exact absurd ⟨c, rfl⟩ hclass
      | _ => rfl
    obtain ⟨c, rfl⟩ := hclass
    obtain ⟨kss, hkss, hks⟩ := Except.bind_eq_ok.1 hks
    cases hks
    have hold := Except.forall₂_of_mapM hkss
    obtain ⟨c', rfl⟩ : ∃ c', content' = .cls c' := by
      rcases hsame with rfl | ⟨c, ms, -, rfl⟩ <;> exact ⟨_, rfl⟩
    have hchildren : P.children (some d) = .ok c.members := by
      rw [children, decl_eq_ok.2 hd]
      rfl
    have hchildren' : p.children (some d) = .ok c'.members := by
      rw [children, decl_eq_ok.2 hd']
      rfl
    have hmembers : ∀ m ∈ c'.members, ∃ ks', p.classesUpTo fuel' m = .ok ks'
        ∧ ∀ k ∈ ks', k ∈ kss.flatten ∨ LiftedClass table p k := by
      intro m hm
      rcases h.mem_children hchildren hchildren' hm with hm | ⟨b, hb, hs⟩
      · obtain ⟨ksM, hksM, hm⟩ := forall₂_right hold hm
        obtain ⟨ks', hks', hsub⟩ :=
          @ih _ fuel' _ hm (by omega) fun hne => by have := hmore hne; omega
        exact ⟨ks', hks',
          fun k hk => (hsub k hk).imp (fun hk => List.mem_flatten.2 ⟨ksM, hksM, hk⟩) id⟩
      · -- a class that lists a sibling lists an old member, so there was fuel for one level more
        obtain ⟨m', hm'⟩ : ∃ m', m' ∈ c.members := by
          obtain ⟨hentries, hflat⟩ := h.entries hchildren
          cases hslots : slots (some d) with
          | nil =>
            rw [hslots] at hflat
            rw [← Except.ok.inj (hflat.symm.trans hchildren')] at hm
            cases hm
          | cons slot rest =>
            exact ⟨slot.entry, by rw [← hentries, hslots]; exact List.mem_cons_self⟩
        obtain ⟨ksM, -, hm'⟩ := forall₂_right hold hm'
        have hpos : fuel ≠ 0 := by
          rintro rfl
          cases hm'
        have hlt := hmore (List.ne_nil_of_mem hb)
        obtain ⟨fuel'', rfl⟩ : ∃ n, fuel' = n + 2 := ⟨fuel' - 2, by omega⟩
        obtain ⟨ks', hks', hlifted⟩ := h.classesUpTo_sibling hb hs fuel''
        exact ⟨ks', hks', fun k hk => .inr (hlifted k hk)⟩
    obtain ⟨kss', hkss', hall⟩ :=
      Except.mapM_eq_ok (P := fun _ ks' => ∀ k ∈ ks', k ∈ kss.flatten
        ∨ LiftedClass table p k) hmembers
    refine ⟨kss'.flatten ++ [d], ?_, fun k hk => ?_⟩
    · rw [classesUpTo, decl_eq_ok.2 hd']
      show (c'.members.mapM (p.classesUpTo fuel') >>= fun kss => pure (kss.flatten ++ [d])) = _
      rw [hkss']
      rfl
    · rcases List.mem_append.1 hk with hk | hk
      · obtain ⟨ks', hks', hk⟩ := List.mem_flatten.1 hk
        obtain ⟨m, -, hsub⟩ := forall₂_left hall hks'
        exact (hsub k hk).imp (List.mem_append_left _) id
      · exact .inl (List.mem_append_right _ hk)

/-- **The containers of the second run** are those of the first and lifted classes. -/
theorem exists_containers (h : Run P slots table p) {cs : List (Option DeclId)}
    (hcs : P.containers = .ok cs) :
    ∃ cs', p.containers = .ok cs' ∧ ∀ c ∈ cs', c ∈ cs ∨ ∃ k, c = some k
      ∧ LiftedClass table p k := by
  obtain ⟨kss, hkss, hcs⟩ := Except.bind_eq_ok.1 hcs
  cases hcs
  have hold := Except.forall₂_of_mapM hkss
  have hgrows : table.entries ≠ [] → P.decls.size < p.decls.size := by
    intro hne
    obtain ⟨b, hb⟩ := List.exists_mem_of_ne_nil _ hne
    obtain ⟨s, hs⟩ := List.exists_mem_of_ne_nil _ (h.nonempty b hb)
    obtain ⟨hlow, d, contentD, -, ⟨f, hf, -⟩ | ⟨c, hc, -⟩⟩ := h.siblings b hb s hs
    · exact hlow.trans_lt (Arena.lt_size_of_get? hf)
    · exact hlow.trans_lt (Arena.lt_size_of_get? hc)
  have htop : ∀ d ∈ p.top, ∃ ks', p.classesUpTo (p.decls.size + 1) d = .ok ks'
      ∧ ∀ k ∈ ks', k ∈ kss.flatten ∨ LiftedClass table p k := by
    intro d hd
    rcases h.mem_children (show P.children none = .ok P.top from rfl)
      (show p.children none = .ok p.top from rfl) hd
      with hd | ⟨b, hb, hs⟩
    · obtain ⟨ks, hks, hd⟩ := forall₂_right hold hd
      obtain ⟨ks', hks', hsub⟩ := h.exists_classesUpTo hd (Nat.succ_le_succ h.relists.size_le)
        fun hne => Nat.succ_lt_succ (hgrows hne)
      exact ⟨ks', hks', fun k hk => (hsub k hk).imp (fun hk => List.mem_flatten.2 ⟨ks, hks, hk⟩) id⟩
    · have hpos := hgrows (List.ne_nil_of_mem hb)
      obtain ⟨fuel, hfuel⟩ : ∃ n, p.decls.size + 1 = n + 2 := ⟨p.decls.size - 1, by omega⟩
      obtain ⟨ks', hks', hlifted⟩ := h.classesUpTo_sibling hb hs fuel
      exact ⟨ks', hfuel ▸ hks', fun k hk => .inr (hlifted k hk)⟩
  obtain ⟨kss', hkss', hall⟩ :=
    Except.mapM_eq_ok (P := fun _ ks' => ∀ k ∈ ks', k ∈ kss.flatten ∨ LiftedClass table p k) htop
  refine ⟨kss'.flatten.map some ++ [none], ?_, fun c hc => ?_⟩
  · unfold containers
    rw [hkss']
    rfl
  · rcases List.mem_append.1 hc with hc | hc
    · obtain ⟨k, hk, rfl⟩ := List.mem_map.1 hc
      obtain ⟨ks', hks', hk⟩ := List.mem_flatten.1 hk
      obtain ⟨d, -, hsub⟩ := forall₂_left hall hks'
      exact (hsub k hk).imp (fun hk => List.mem_append_left _ (List.mem_map_of_mem hk))
        fun hk => ⟨k, rfl, hk⟩
    · exact .inl (List.mem_append_right _ hc)

/-! ## §3. Nothing to lower. -/

/-- There is nothing to lower in the container: it stands in a body, or its roots are bare. -/
def Idle (p : Program) (container : Option DeclId) : Prop :=
  ∃ nested, isNested p container = .ok nested
    ∧ (nested = false → ∃ rs, p.roots container = .ok rs ∧ ∀ root ∈ rs, p.Bare root)

/-- Roots can be listed if every child is there. -/
theorem exists_roots {ds : List DeclId} (hds : p.children container = .ok ds)
    (hchildren : ∀ d ∈ ds, ∃ content, p.decls.get? d = some content) :
    ∃ rs, p.roots container = .ok rs := by
  have hroots : ∀ d ∈ ds, ∃ rs, p.rootsOf d = .ok rs ∧ True := by
    intro d hd
    obtain ⟨content, hcontent⟩ := hchildren d hd
    obtain ⟨rs, hrs⟩ := exists_rootsOf hcontent
    exact ⟨rs, hrs, trivial⟩
  obtain ⟨rss, hrss, -⟩ := Except.mapM_eq_ok (P := fun _ _ => True) hroots
  refine ⟨rss.flatten, ?_⟩
  unfold roots
  rw [hds]
  show (ds.mapM p.rootsOf >>= fun rss => pure rss.flatten) = _
  rw [hrss]
  rfl

/-- A container that was settled is idle. -/
theorem idle_of_settled (h : Run P slots table p) (hclosed : P.Closed) (hends : P.ChainsEnd)
    (haccessors : P.AccessorsAreFunctions) {cs : List (Option DeclId)} (hcs : P.containers = .ok cs)
    (hmem : container ∈ cs) (hsettled : P.Settled container p) : Idle p container := by
  obtain ⟨ds, hds⟩ := exists_children_of_mem hcs hmem
  -- whether a container stands in a body does not change during a run
  have hnested : ∀ {q}, P.Relists q → isNested q container = isNested P container := by
    intro q hq
    obtain rfl | ⟨k, c, rfl, hc⟩ := mem_containers hcs hmem
    · rfl
    · exact isLocal_of_relists hq hends hc
  obtain ⟨nested, hP⟩ : ∃ nested, isNested P container = .ok nested := by
    obtain rfl | ⟨k, c, rfl, hc⟩ := mem_containers hcs hmem
    · exact ⟨false, rfl⟩
    · exact ⟨_, isLocal_of_ending (hends.ending hc)⟩
  refine ⟨nested, (hnested h.relists).trans hP, fun hfalse => ?_⟩
  subst hfalse
  rcases hsettled with ⟨q, hq, htrue⟩ | hroots
  · rw [hnested hq, hP] at htrue
    cases htrue
  · obtain ⟨hentries, hflat⟩ := h.entries hds
    obtain ⟨rs, hrs⟩ := exists_roots hflat fun d hd => by
      rcases h.mem_children hds hflat hd with hd | ⟨b, hb, hs⟩
      · obtain ⟨content, hcontent⟩ := hclosed.exists_child hds hd
        obtain ⟨content', hcontent', -⟩ := h.relists _ _ hcontent
        exact ⟨content', hcontent'⟩
      · obtain ⟨-, d', contentD, -, ⟨f, hf, -⟩ | ⟨c, hc, -⟩⟩ := h.siblings b hb d hs
        · exact ⟨_, hf⟩
        · exact ⟨_, hc⟩
    refine ⟨rs, hrs, fun root hroot => ?_⟩
    rcases h.rootIn_cases hclosed haccessors hds ((mem_roots hrs).1 hroot) with ⟨hin, -⟩ | hdone
    · exact (hroots root hin).1
    · exact hdone.1

/-- A lifted class is idle. -/
theorem idle_of_lifted (h : Run P slots table p) (hends : P.ChainsEnd) {k : DeclId}
    (hk : LiftedClass table p k) : Idle p (some k) := by
  obtain ⟨b, hb, hkb, c, hc⟩ := hk
  obtain ⟨-, d, contentD, hd, ⟨f, hf, -⟩ | ⟨c', hc', hparent, hmembers⟩⟩ := h.siblings b hb k hkb
  · cases hc.symm.trans hf
  cases hc.symm.trans hc'
  obtain ⟨nested, hnested⟩ := exists_isLocal_of_parent h.relists hends hd hc hparent
  refine ⟨nested, hnested, fun _ => ?_⟩
  have hchildren : p.children (some k) = .ok c.members := by
    rw [children, decl_eq_ok.2 hc]
    rfl
  obtain ⟨rs, hrs⟩ := exists_roots hchildren fun m hm => by
    obtain ⟨content, hcontent, -⟩ := hmembers m hm
    exact ⟨content, hcontent⟩
  refine ⟨rs, hrs, fun root hroot => ?_⟩
  obtain ⟨ds, child, rs', hds, hchild, hrs', hroot'⟩ := (mem_roots hrs).1 hroot
  cases hchildren.symm.trans hds
  obtain ⟨content, hcontent, -, hcallable, haccessors⟩ := hmembers child hchild
  obtain ⟨content', hcontent', hbrings⟩ := rootsOf_spec hrs' hroot'
  obtain rfl : content' = content := Option.mem_unique hcontent' hcontent
  rcases hbrings with ⟨rfl, hcall⟩ | ⟨q, rfl, haccessor⟩
  · exact hcallable hcall
  · exact (haccessors q rfl root haccessor).2

end Run

namespace Lowering

open Run

variable {settings : Settings} {w : Work} {container : Option DeclId} {lifted : Lifted}

theorem foldlM_idle {α β : Type} {f : β → α → Step β} {as : List α}
    (h : ∀ a ∈ as, ∀ b, f b a w = .ok b w) (b : β) : as.foldlM f b w = .ok b w := by
  induction as with
  | nil => rfl
  | cons a as ih =>
    rw [List.foldlM_cons, Step.bind_eq (h a List.mem_cons_self b)]
    exact ih fun a ha => h a (List.mem_cons_of_mem _ ha)

/-- A bare root is left alone. -/
theorem lowerListed_idle {root : DeclId} (h : w.program.Bare root) :
    lowerListed settings container lifted root w = .ok lifted w := by
  obtain ⟨l, hl, hempty⟩ := Program.bare_iff_locals.1 h
  have hroot : lowerRoot settings root w = .ok none w := by
    unfold lowerRoot
    rw [Step.bind_eq Step.program_eq, Step.bind_eq (Step.liftExcept_eq hl), if_pos hempty]
    rfl
  unfold lowerListed
  rw [Step.bind_eq hroot]
  rfl

/-- An idle container is left alone. -/
theorem lowerContainer_idle (h : Idle w.program container) :
    lowerContainer settings lifted container w = .ok lifted w := by
  obtain ⟨nested, hnested, hroots⟩ := h
  unfold lowerContainer
  rw [Step.bind_eq Step.program_eq, Step.bind_eq (Step.liftExcept_eq hnested)]
  cases nested with
  | true => rfl
  | false =>
    obtain ⟨rs, hrs, hbare⟩ := hroots rfl
    rw [if_neg (by decide), Step.bind_eq Step.program_eq, Step.bind_eq (Step.liftExcept_eq hrs)]
    exact foldlM_idle (fun root hroot lifted => lowerListed_idle (hbare root hroot)) lifted

/-- **The second run changes nothing**, and its table is empty. -/
theorem lower_idle {cs : List (Option DeclId)} (hcs : w.program.containers = .ok cs)
    (hidle : ∀ c ∈ cs, Idle w.program c)
    (hcheck : settings.validate = true → w.program.check = .ok ()) :
    lower settings w = .ok .empty w := by
  unfold lower
  rw [Step.bind_eq Step.program_eq, Step.bind_eq (Step.liftExcept_eq hcs),
    Step.bind_eq (foldlM_idle (fun c hc lifted => lowerContainer_idle (hidle c hc)) .empty)]
  cases hvalidate : settings.validate with
  | true =>
    rw [if_pos rfl, Step.bind_eq Step.program_eq,
      Step.bind_eq (Step.liftExcept_eq (hcheck hvalidate))]
    rfl
  | false => rfl

end Lowering

open Lowering

/-- **A run reaches a fixed point.**  If a program is closed, its chains of parents end and its
getters and setters are functions, then after a run that answers, another run with the same settings
answers with an empty table and leaves the program as it is. -/
theorem lower_fixed (settings : Settings) {P : Program} {events : List Event} {table : Lifted}
    {w : Work} (hclosed : P.Closed) (hends : P.ChainsEnd) (haccessors : P.AccessorsAreFunctions)
    (hlower : lower settings ⟨P, events⟩ = .ok table w) (later : List Event) :
    lower settings ⟨w.program, later⟩ = .ok .empty ⟨w.program, later⟩ := by
  have hleaves := lower_runs (w := ⟨P, events⟩) settings hclosed haccessors
  unfold Step.Leaves Step.Yields at hleaves
  rw [hlower] at hleaves
  obtain ⟨⟨slots, hrun⟩, ⟨cs, hcs, hsettled⟩, hcheck⟩ := hleaves
  obtain ⟨cs', hcs', hcases⟩ := hrun.exists_containers hcs
  refine lower_idle hcs' (fun c hc => ?_) hcheck
  rcases hcases c hc with hold | ⟨k, rfl, hlifted⟩
  · exact hrun.idle_of_settled hclosed hends haccessors hcs hold (hsettled c hold)
  · exact hrun.idle_of_lifted hends hlifted

/-- A run that lifts something, and the run after it. -/
theorem lower_fixed_capturing :
    ∃ table w, lower {} ⟨.capturing, []⟩ = .ok table w ∧ table.get? ⟨0⟩ = some [⟨2⟩]
      ∧ lower {} ⟨w.program, []⟩ = .ok .empty ⟨w.program, []⟩ := by
  have hlower : (Step.answer? (lower {}) ⟨.capturing, []⟩).map (·.get? ⟨0⟩)
      = some (some [⟨2⟩]) := by decide +kernel
  obtain ⟨table, hanswer, htable⟩ := Option.map_eq_some_iff.1 hlower
  obtain ⟨w, hw⟩ := Step.answer?_eq_some.1 hanswer
  exact ⟨table, w, hw, htable,
    lower_fixed {} (by decide +kernel) (by decide +kernel) (by decide +kernel) hw []⟩

end LambdaLift
