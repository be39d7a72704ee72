/-
  LambdaLift.Proofs.Retargeted
  **ALL CODE BELOW A ROOT, PIECE BY PIECE.**

  Retargeting takes the pieces of code in a fixed order: functions,
  constructors, the members of each class, the root.  The pieces are all
  there are, and none comes twice (`Site.codes`).  Each is read in one
  context, so in the end every node below the root has become what it
  should in the context of its piece.  A class gets its members when they
  are done, and the fields of its captured values are initialized from the
  parameters of its primary constructor.

  Main results:
    * `codes_nodup`, `exists_code` — the pieces of code;
    * `mem_plan_iff` — they are what retargeting goes through;
    * `all_ends` — everything below the root is retargeted (`Filling`), or a
      node is refused, or a class has no primary constructor.
-/
import Mathlib
import LambdaLift.Proofs.Codes
import LambdaLift.Proofs.Relocated
import LambdaLift.Proofs.Retargeting

namespace LambdaLift

variable {b p p₀ q : Program} {d k k' m new o primary : DeclId} {as as' ds : List DeclId}
  {e : ExprId} {x : ValueId} {c : ClassDecl} {context : Context} {content old : Declaration}
  {l : Locals} {r : Relocation} {site : Site} {w : Work}

/-! ## §1. The pieces of code, in order. -/

/-- The declarations with code below a root, in the order of retargeting and with the root last,
each with the declaration by whose context its code reads. -/
def Site.codes (site : Site) (p : Program) : List (DeclId × DeclId) :=
  (site.locals.functions.keys ++ site.locals.constructors.toList).map (fun d => (d, d))
    ++ site.locals.classes.keys.flatMap (fun k => (p.classCodes k).map fun o => (o, k))
    ++ [(site.root, site.root)]

namespace Program

theorem mem_classCodes :
    o ∈ p.classCodes k ↔ ∃ c m, p.decls.get? k = some (.cls c) ∧ m ∈ c.members
      ∧ o ∈ p.memberCodes m := by
  simp only [classCodes, List.mem_flatMap, mem_membersOf]
  constructor
  · rintro ⟨m, ⟨c, hc, hm⟩, ho⟩
    exact ⟨c, m, hc, hm, ho⟩
  · rintro ⟨c, m, hc, hm, ho⟩
    exact ⟨m, ⟨c, hc, hm⟩, ho⟩

namespace WellShaped

variable {p : Program} {root : DeclId} (h : p.WellShaped root)
include h

/-- Properties are members of classes. -/
theorem memberBelow_of_property {q : PropertyDecl} (hocc : Occurs p root ds (.decl d))
    (hd : p.decls.get? d = some (.property q)) : ∃ k, p.MemberBelow root k d := by
  rcases h.decl_cases hocc with ⟨hplaced, -⟩ | ⟨hk | ⟨q', hq'⟩, -⟩
  · rcases h.placed_kind hplaced with ⟨f, hf⟩ | ⟨c, hc⟩
    · cases hd.symm.trans hf
    · cases hd.symm.trans hc
  · exact hk
  · obtain ⟨f, hf, -⟩ := h.accessor_kind hq'
    cases hd.symm.trans hf

omit h in
/-- A member brings itself as code, or the accessors and the backing field of a property. -/
theorem memberCodes_cases (hm : p.MemberBelow root k m) (ho : o ∈ p.memberCodes m) :
    (o = m ∧ ((∃ f, p.decls.get? o = some (.function f)) ∨ ∃ f, p.decls.get? o = some (.field f)))
      ∨ p.AccessorBelow root m o
      ∨ ∃ ds q, Occurs p root ds (.decl m) ∧ p.decls.get? m = some (.property q)
      ∧ o ∈ q.backingField := by
  obtain ⟨ds, hocc⟩ := hm.occurs
  unfold memberCodes at ho
  split at ho
  · rename_i f hf
    obtain rfl := List.mem_singleton.1 ho
    exact .inl ⟨rfl, .inl ⟨f, hf⟩⟩
  · rename_i f hf
    obtain rfl := List.mem_singleton.1 ho
    exact .inl ⟨rfl, .inr ⟨f, hf⟩⟩
  · rename_i q hq
    rcases List.mem_append.1 ho with ho | ho
    · exact .inr (.inl ⟨_, q, hocc, hq, ho⟩)
    · exact .inr (.inr ⟨_, q, hocc, hq, by simpa using ho⟩)
  · cases ho

theorem memberCodes_subset (hm : p.MemberBelow root k m) : p.memberCodes m ⊆ p.brought m := by
  have hself := h.mem_brought hm
  unfold memberCodes
  split
  · simpa using hself
  · simpa using hself
  · rename_i q hq
    intro x hx
    simp only [brought, hq, List.mem_append, List.mem_cons] at hx ⊢
    tauto
  · simp

theorem memberCodes_nodup (hm : p.MemberBelow root k m) : (p.memberCodes m).Nodup := by
  obtain ⟨ds, hocc⟩ := hm.occurs
  have hbrought := h.brought_nodup hocc
  unfold memberCodes
  split
  · exact List.nodup_singleton m
  · exact List.nodup_singleton m
  · rename_i q hq
    unfold brought at hbrought
    rw [hq] at hbrought
    exact (List.perm_append_comm.nodup_iff.1
      (hbrought.sublist ((List.sublist_cons_self m _).append_left _)))
  · exact .nil

theorem members_nodup (hocc : Occurs p root ds (.decl k)) (hk : p.decls.get? k = some (.cls c)) :
    c.members.Nodup := by
  have hnodup := h.nestedEntries_nodup hocc (label?_eq_decl.2 ⟨rfl, hk⟩)
  exact ((hnodup.of_map _).of_map _ : c.members.Nodup)

omit h in
/-- What a member brings as code stands below the root. -/
theorem occurs_of_memberCodes (hm : p.MemberBelow root k m) (ho : o ∈ p.memberCodes m) :
    ∃ ds place, Occurs p root ds place ∧ place.entry = .inr o := by
  rcases memberCodes_cases hm ho with ⟨rfl, -⟩ | hacc | ⟨ds, q, hocc, hq, hb⟩
  · obtain ⟨ds, hocc⟩ := hm.occurs
    exact ⟨_, _, hocc, rfl⟩
  · obtain ⟨ds, hocc⟩ := hacc.occurs
    exact ⟨_, _, hocc, rfl⟩
  · exact ⟨_, _, occurs_backing hocc hq hb, rfl⟩

/-- The code of a member is that of no placed function and of no constructor. -/
theorem memberCodes_disjoint (hm : p.MemberBelow root k m) (ho : o ∈ p.memberCodes m) :
    ¬ p.Placed root o ∧ ∀ c, p.decls.get? o ≠ some (.constructor c) := by
  have hplaced : p.isMember o = .ok true → ¬ p.Placed root o := by
    rintro hmember ⟨ds, e, hocc, he⟩
    rw [h.isMember_placed hocc he] at hmember
    cases hmember
  rcases memberCodes_cases hm ho with ⟨rfl, hkind⟩ | hacc | ⟨ds, q, hocc, hq, hb⟩
  · obtain ⟨ds, c, hocc, hk, hmem⟩ := hm
    refine ⟨hplaced (h.isMember_member hocc hk hmem), fun c hc => ?_⟩
    rcases hkind with ⟨f, hf⟩ | ⟨f, hf⟩
    · cases hf.symm.trans hc
    · cases hf.symm.trans hc
  · obtain ⟨f, hf, -⟩ := h.accessor_kind hacc
    obtain ⟨ds, x, hocc, hq, ha⟩ := hacc
    refine ⟨hplaced (h.isMember_accessor hocc hq ha), fun c hc => ?_⟩
    cases hf.symm.trans hc
  · have hocc' := occurs_backing hocc hq hb
    refine ⟨fun hplaced => ?_, fun c hc => ?_⟩
    · obtain ⟨ds', hocc''⟩ := hplaced.occurs
      exact h.not_decl_backing hocc'' hocc'
    · have hfield := h.wellPlaced hocc' (label?_eq_backing.2 ⟨rfl, hc⟩)
      cases hfield

/-- Two members of classes have code in common only if they are the same. -/
theorem memberCodes_inj {m' : DeclId} (hm : p.MemberBelow root k m) (hm' : p.MemberBelow root k' m')
    (ho : o ∈ p.memberCodes m) (ho' : o ∈ p.memberCodes m') : k = k' ∧ m = m' := by
  obtain ⟨ds, hocc⟩ := hm.occurs
  obtain ⟨ds', hocc'⟩ := hm'.occurs
  obtain rfl := h.brought_inj hocc hocc' (h.memberCodes_subset hm ho) (h.memberCodes_subset hm' ho')
  obtain ⟨rfl, -⟩ := List.cons.inj (h.unique hocc hocc' rfl).1
  exact ⟨rfl, rfl⟩

end WellShaped

end Program

/-- The pieces of code below the root. -/
theorem Site.mem_codes_iff : (o, k) ∈ site.codes p₀ ↔ (o ∈ site.locals.functions.keys ∧ k = o)
    ∨ (o ∈ site.locals.constructors ∧ k = o) ∨ (k ∈ site.locals.classes.keys ∧ o ∈ p₀.classCodes k)
    ∨ (o = site.root ∧ k = site.root) := by
  simp only [Site.codes, List.mem_append, List.mem_map, List.mem_flatMap, List.mem_singleton,
    Prod.mk.injEq, OrderedSet.mem_toList]
  constructor
  · rintro ((⟨d, hd, rfl, rfl⟩ | ⟨k', hk', o', ho', rfl, rfl⟩) | ⟨rfl, rfl⟩)
    · tauto
    · exact .inr (.inr (.inl ⟨hk', ho'⟩))
    · tauto
  · rintro (⟨ho, rfl⟩ | ⟨ho, rfl⟩ | ⟨hk, ho⟩ | ⟨rfl, rfl⟩)
    · exact .inl (.inl ⟨_, .inl ho, rfl, rfl⟩)
    · exact .inl (.inl ⟨_, .inr ho, rfl, rfl⟩)
    · exact .inl (.inr ⟨k, hk, o, ho, rfl, rfl⟩)
    · exact .inr ⟨rfl, rfl⟩

/-- What the members of a class in the tables bring is among the pieces of code. -/
theorem Site.mem_codes_of_member (hkey : k ∈ site.locals.classes.keys)
    (hk : p₀.decls.get? k = some (.cls c)) (hm : m ∈ c.members) (ho : o ∈ p₀.memberCodes m) :
    (o, k) ∈ site.codes p₀ :=
  Site.mem_codes_iff.2 (.inr (.inr (.inl ⟨hkey, Program.mem_classCodes.2 ⟨c, m, hk, hm, ho⟩⟩)))

namespace Site.Ready

variable {p₀ : Program} {site : Site} {dest : Option DeclId} (hsite : site.Ready p₀ dest)
include hsite

/-- The members of a class in the tables. -/
theorem memberBelow (hkey : k ∈ site.locals.classes.keys) (hk : p₀.decls.get? k = some (.cls c))
    (hm : m ∈ c.members) : p₀.MemberBelow site.root k m := by
  obtain ⟨ds, hocc⟩ := ((hsite.collected.classes k).1 hkey).1.occurs
  exact ⟨ds, c, hocc, hk, hm⟩

theorem classCodes_cases (hkey : k ∈ site.locals.classes.keys) (ho : o ∈ p₀.classCodes k) :
    ∃ m, p₀.MemberBelow site.root k m ∧ o ∈ p₀.memberCodes m := by
  obtain ⟨c, m, hk, hm, ho⟩ := Program.mem_classCodes.1 ho
  exact ⟨m, hsite.memberBelow hkey hk hm, ho⟩

/-- Each piece of code stands below the root, or is that of the root. -/
theorem occurs_of_code (hmem : (o, k) ∈ site.codes p₀) :
    o = site.root ∨ ∃ ds place, Occurs p₀ site.root ds place ∧ place.entry = .inr o := by
  have hdecl : o ∈ site.locals.tables → ∃ ds place, Occurs p₀ site.root ds place
      ∧ place.entry = .inr o := by
    intro ho
    obtain ⟨ds, hocc⟩ := hsite.collected.occurs ho
    exact ⟨ds, _, hocc, rfl⟩
  rcases Site.mem_codes_iff.1 hmem with ⟨ho, -⟩ | ⟨ho, -⟩ | ⟨hk, ho⟩ | ⟨rfl, -⟩
  · exact .inr (hdecl (by simp [Locals.tables, ho]))
  · exact .inr (hdecl (by simp [Locals.tables, ho]))
  · obtain ⟨m, hm, ho⟩ := hsite.classCodes_cases hk ho
    exact .inr (Program.WellShaped.occurs_of_memberCodes hm ho)
  · exact .inl rfl

theorem owner (hmem : (o, k) ∈ site.codes p₀) : ∃ ds, OwnerAt p₀ site.root ds o := by
  rcases hsite.occurs_of_code hmem with rfl | ⟨ds, place, hocc, hentry⟩
  · exact ⟨[], .root⟩
  · obtain ⟨label, hlabel⟩ := hsite.shaped.exists_label hocc
    exact ⟨_, .below hocc hlabel ((Program.entry_of_label hlabel).trans hentry)⟩

theorem classCodes_nodup (hkey : k ∈ site.locals.classes.keys) : (p₀.classCodes k).Nodup := by
  obtain ⟨hplaced, c, hk⟩ := (hsite.collected.classes k).1 hkey
  obtain ⟨ds, hocc⟩ := hplaced.occurs
  unfold Program.classCodes Program.membersOf
  rw [hk]
  refine List.nodup_flatMap.2
    ⟨fun m hm => hsite.shaped.memberCodes_nodup (hsite.memberBelow hkey hk hm), ?_⟩
  refine (hsite.shaped.members_nodup hocc hk).imp_of_mem fun hm hm' hne o ho ho' => hne ?_
  exact (hsite.shaped.memberCodes_inj (hsite.memberBelow hkey hk hm)
    (hsite.memberBelow hkey hk hm') ho ho').2

/-- **No piece of code comes twice.** -/
theorem codes_nodup : ((site.codes p₀).map (·.1)).Nodup := by
  have hl := hsite.collected
  have hcallables : (site.locals.functions.keys ++ site.locals.constructors.toList).Nodup := by
    refine List.nodup_append.2
      ⟨site.locals.functions.keys_nodup, site.locals.constructors.nodup, ?_⟩
    rintro d hd _ hd' rfl
    obtain ⟨-, f, hf⟩ := (hl.functions d).1 hd
    obtain ⟨-, c, -, hc⟩ := (hl.constructors d).1 hd'
    cases hf.symm.trans hc
  have hmembers : (site.locals.classes.keys.flatMap p₀.classCodes).Nodup := by
    refine List.nodup_flatMap.2 ⟨fun k hk => hsite.classCodes_nodup hk, ?_⟩
    refine site.locals.classes.keys_nodup.imp_of_mem fun hk hk' hne o ho ho' => hne ?_
    obtain ⟨m, hm, ho⟩ := hsite.classCodes_cases hk ho
    obtain ⟨m', hm', ho'⟩ := hsite.classCodes_cases hk' ho'
    exact (hsite.shaped.memberCodes_inj hm hm' ho ho').1
  have hmap : (site.codes p₀).map (·.1) = site.locals.functions.keys
      ++ site.locals.constructors.toList
      ++ site.locals.classes.keys.flatMap p₀.classCodes ++ [site.root] := by
    simp [Site.codes, List.map_flatMap, Function.comp_def]
  rw [hmap]
  refine List.nodup_append.2
    ⟨List.nodup_append.2 ⟨hcallables, hmembers, ?_⟩, List.nodup_singleton _, ?_⟩
  · rintro o ho _ ho' rfl
    obtain ⟨k, hk, ho'⟩ := List.mem_flatMap.1 ho'
    obtain ⟨m, hm, ho'⟩ := hsite.classCodes_cases hk ho'
    obtain ⟨hplaced, hconstructor⟩ := hsite.shaped.memberCodes_disjoint hm ho'
    rcases List.mem_append.1 ho with ho | ho
    · exact hplaced ((hl.functions o).1 ho).1
    · obtain ⟨-, c, -, hc⟩ := (hl.constructors o).1 ho
      exact hconstructor c hc
  · rintro o ho _ ho' rfl
    obtain rfl := List.mem_singleton.1 ho'
    have hbelow : ∃ ds place, Occurs p₀ site.root ds place ∧ place.entry = .inr site.root := by
      rcases List.mem_append.1 ho with ho | ho
      · obtain ⟨ds, hocc⟩ := hl.occurs (d := site.root) (by
          simp only [Locals.tables, List.mem_append] at ho ⊢
          tauto)
        exact ⟨ds, _, hocc, rfl⟩
      · obtain ⟨k, hk, ho⟩ := List.mem_flatMap.1 ho
        obtain ⟨m, hm, ho⟩ := hsite.classCodes_cases hk ho
        exact Program.WellShaped.occurs_of_memberCodes hm ho
    obtain ⟨ds, place, hocc, hentry⟩ := hbelow
    exact hsite.shaped.entry_ne_root hocc hentry

/-- **All code below the root is among the pieces**, unless a class stands in a class. -/
theorem exists_code (hnested : ¬ p₀.NestsClass site.root) (howner : OwnerAt p₀ site.root ds o)
    (ho : p₀.decls.get? o = some content) (hcode : content.code = some e) :
    ∃ k, (o, k) ∈ site.codes p₀ := by
  have hl := hsite.collected
  -- the class of a member is placed by a statement
  have hclass : ∀ {k m}, p₀.MemberBelow site.root k m → k ∈ site.locals.classes.keys := by
    rintro k m ⟨ds, c, hocc, hk, -⟩
    refine (hl.classes k).2 ⟨?_, c, hk⟩
    by_contra hplaced
    exact hnested (hsite.shaped.nestsClass_of_not_placed hocc hk hplaced)
  have hmember : ∀ {k m}, p₀.MemberBelow site.root k m → o ∈ p₀.memberCodes m →
      ∃ k, (o, k) ∈ site.codes p₀ := by
    intro k m hm ho
    obtain ⟨ds, c, hocc, hk, hmem⟩ := id hm
    exact ⟨k, Site.mem_codes_iff.2
      (.inr (.inr (.inl ⟨hclass hm, Program.mem_classCodes.2 ⟨c, m, hk, hmem, ho⟩⟩)))⟩
  have hproperty : ∀ {ds q x}, Occurs p₀ site.root ds (.decl q) →
      p₀.decls.get? q = some (.property x) →
      o ∈ x.getter.toList ++ x.setter.toList ++ x.backingField.toList →
      ∃ k, (o, k) ∈ site.codes p₀ := by
    intro ds q x hocc hq hmem
    obtain ⟨k, hk⟩ := hsite.shaped.memberBelow_of_property hocc hq
    refine hmember hk ?_
    unfold Program.memberCodes
    rwa [hq]
  cases howner with
  | root => exact ⟨_, Site.mem_codes_iff.2 (.inr (.inr (.inr ⟨rfl, rfl⟩)))⟩
  | @below ds place label o hocc hlabel hentry =>
    rw [Program.entry_of_label hlabel] at hentry
    cases place with
    | expr e' => cases hentry
    | backing b =>
      obtain rfl := Sum.inr.inj hentry
      cases hsite.shaped.standing hocc with
      | backing hocc' hq hb =>
        exact hproperty hocc' hq (List.mem_append_right _ (by simpa using hb))
    | decl d =>
      obtain rfl := Sum.inr.inj hentry
      rcases hsite.shaped.decl_cases hocc with ⟨hplaced, -⟩ | ⟨⟨k, hk⟩ | ⟨q, hq⟩, -⟩
      · rcases hsite.shaped.placed_kind hplaced with ⟨f, hf⟩ | ⟨c, hc⟩
        · exact ⟨_, Site.mem_codes_iff.2 (.inl ⟨(hl.functions _).2 ⟨hplaced, f, hf⟩, rfl⟩)⟩
        · cases ho.symm.trans hc
          cases hcode
      · cases content with
        | constructor c =>
          exact ⟨_, Site.mem_codes_iff.2 (.inr (.inl ⟨(hl.constructors _).2 ⟨k, c, hk, ho⟩, rfl⟩))⟩
        | function f => exact hmember hk (by simp [Program.memberCodes, ho])
        | field f => exact hmember hk (by simp [Program.memberCodes, ho])
        | cls c => cases hcode
        | property q => cases hcode
      · obtain ⟨ds', x, hocc', hx, ha⟩ := hq
        exact hproperty hocc' hx (List.mem_append_left _ ha)

end Site.Ready

/-! ## §2. What code reads by. -/

/-- Looking up what was put together from two lists. -/
theorem OrderedMap.get?_ofList_zip {κ α : Type} [DecidableEq κ] {R : κ → α → Prop} {ks : List κ}
    {as : List α} (h : List.Forall₂ R ks as) (hnodup : ks.Nodup) :
    (∀ k, ((OrderedMap.ofList (ks.zip as)).get? k).isSome ↔ k ∈ ks)
      ∧ ∀ {k a}, (OrderedMap.ofList (ks.zip as)).get? k = some a → R k a ∧ a ∈ as := by
  constructor
  · intro k
    rw [← not_iff_not, Option.not_isSome_iff_eq_none, OrderedMap.get?_eq_none_iff,
      OrderedMap.keys_ofList_zip hnodup h.length_eq]
  · intro k a hget
    have hmem : (k, a) ∈ ks.zip as :=
      OrderedMap.entries_ofList_zip hnodup h.length_eq ▸ OrderedMap.get?_eq_some_iff.1 hget
    exact ⟨(List.forall₂_iff_zip.1 h).2 hmem, (List.of_mem_zip hmem).2⟩

theorem forall₂_filterMap {α β : Type} {f : α → Option β} {as : List α}
    (h : ∀ a ∈ as, ∃ b, f a = some b) :
    List.Forall₂ (fun a b => f a = some b) as (as.filterMap f) := by
  induction as with
  | nil => exact .nil
  | cons a as ih =>
    obtain ⟨b, hb⟩ := h a List.mem_cons_self
    rw [List.filterMap_cons_some hb]
    exact .cons hb (ih fun x hx => h x (List.mem_cons_of_mem _ hx))

theorem Site.taken_nodup (site : Site) (d : DeclId) : (site.taken d).Nodup := by
  unfold Site.taken
  cases site.closures.get? d with
  | none => exact .nil
  | some closure => exact closure.nodup

section

variable {p₀ : Program} {site : Site} {dest : Option DeclId} {r : Relocation} {q : Program}

/-- What is said of a replacement, for the replacement that is recorded. -/
theorem Moved.of_get? (h : Moved p₀ site dest r q d) (hnew : r.get? d = some new) :
    ∃ content content', p₀.decls.get? d = some content ∧ q.decls.get? new = some content'
      ∧ Replaces p₀ site dest r q d new content content'.erase := by
  obtain ⟨content, new', content', hd, hnew', hcontent', hreplaces⟩ := h
  obtain rfl := Option.mem_unique hnew hnew'
  exact ⟨content, content', hd, hcontent', hreplaces⟩

/-- Each parameter of a replacement is a copy of an old one, or carries a captured value. -/
theorem Replaces.params (h : Replaces p₀ site dest r q d new old content)
    (hsettled : Settled p₀ dest r q) (hx : x ∈ content.params) :
    (∃ v ∈ old.params, r.values.back? x = some v)
      ∨ (r.values.back? x = none ∧ ∃ v k, r.carried.get? x = some v ∧ v ∈ site.taken k) := by
  have hcopies : ∀ {vs xs : List ValueId}, List.Forall₂ (Copies r q new) vs xs → x ∈ xs →
      ∃ v ∈ vs, r.values.back? x = some v := by
    intro vs xs hall hx
    obtain ⟨v, hv, hcopy⟩ := forall₂_left hall hx
    exact ⟨v, hv, (hsettled.forth hcopy.1).2⟩
  have hpasses : ∀ {k : DeclId} {vs : List ValueId} {xs : List ValueId},
      Passes r q d new (site.taken k) vs xs → x ∈ xs → (∃ v ∈ vs, r.values.back? x = some v)
        ∨ (r.values.back? x = none ∧ ∃ v k, r.carried.get? x = some v ∧ v ∈ site.taken k) := by
    rintro k vs xs ⟨caps, copies, rfl, hcaps, hcopied, -⟩ hx
    rcases List.mem_append.1 hx with hx | hx
    · obtain ⟨v, hv, hcarried, hback, -⟩ := forall₂_left hcaps hx
      exact .inr ⟨hback, v, k, hcarried, hv⟩
    · exact .inl (hcopies hcopied hx)
  cases h with
  | function hplaced hdispatch hext hparams => exact hpasses hparams hx
  | constructor hk hplaced hnew hdispatch hparams => exact hpasses hparams hx
  | method hk hplaced hc hdispatch hnew hthis hext hparams haccessor =>
    exact .inl (hcopies hparams hx)
  | cls hplaced hthis hfields hnodup hcontext => cases hx
  | property hk hplaced hnew hbacking hgetter hsetter => cases hx
  | field hk hplaced hnew => cases hx

/-- How a piece of code reads captured values: the root has none; functions and constructors read
parameters of their replacements; members read fields of the receiver. -/
inductive ReadsBy (p₀ : Program) (site : Site) (r : Relocation) (q : Program) :
    (o k : DeclId) → Prop
  | root : r.contexts.get? site.root = none → ReadsBy p₀ site r q site.root site.root
  | function {d new : DeclId} {f : FunctionDecl} {caps : List ValueId} : p₀.Placed site.root d →
      p₀.decls.get? d = some (.function f) → r.get? d = some new →
      List.Forall₂ (Carries r q new) (site.taken d) caps →
      r.contexts.get? d = some (.params (.ofList ((site.taken d).zip caps))) →
      ReadsBy p₀ site r q d d
  | constructor {k d new : DeclId} {c : ConstructorDecl} {caps : List ValueId} :
      p₀.MemberBelow site.root k d →
      p₀.decls.get? d = some (.constructor c) → r.get? d = some new →
      List.Forall₂ (Carries r q new) (site.taken k) caps →
      r.contexts.get? d = some (.params (.ofList ((site.taken k).zip caps))) →
      ReadsBy p₀ site r q d d
  | member {k m o new : DeclId} {c : ClassDecl} {this : ValueId} {fields : List DeclId} :
      p₀.Placed site.root k →
      p₀.decls.get? k = some (.cls c) → m ∈ c.members → o ∈ p₀.memberCodes m → r.get? k = some new →
      Copies r q new c.this this → List.Forall₂ (CapturedField q new) (site.taken k) fields →
      r.contexts.get? k = some (.fields this (.ofList ((site.taken k).zip fields))) →
      ReadsBy p₀ site r q o k

namespace Relocated

variable (h : Relocated p₀ site dest r q) (hsite : site.Ready p₀ dest)
include h

/-- What has a replacement stands below the root. -/
theorem occurs (hsite : site.Ready p₀ dest) {x : DeclId} (hx : (r.get? x).isSome) :
    ∃ ds place, Occurs p₀ site.root ds place ∧ place.entry = .inr x := by
  obtain ⟨d, hd, hx⟩ := (h.domain x).1 hx
  obtain ⟨ds, hocc⟩ := hsite.collected.occurs hd
  rcases hsite.shaped.brought_cases hocc hx with ⟨rfl, -⟩ | hacc | ⟨ds', q, hocc', hq, hb⟩
  · exact ⟨ds, _, hocc, rfl⟩
  · obtain ⟨ds', hocc'⟩ := hacc.occurs
    exact ⟨ds', _, hocc', rfl⟩
  · exact ⟨_, _, Program.WellShaped.occurs_backing hocc' hq hb, rfl⟩

theorem moved_self (hd : d ∈ site.locals.tables) (hcontent : p₀.decls.get? d = some content)
    (hproperty : ∀ x, content ≠ .property x)
    (hfunction : ∀ f, content = .function f → p₀.isMember d = .ok false) :
    Moved p₀ site dest r q d := by
  refine h.moved ((h.domain d).2 ⟨d, hd, ?_⟩)
  rw [Program.brought_eq_self hcontent hproperty fun f hf => .inl (hfunction f hf)]
  exact List.mem_singleton_self d

include hsite

/-- **How the pieces of code read captured values.** -/
theorem readsBy (hmem : (o, k) ∈ site.codes p₀) : ReadsBy p₀ site r q o k := by
  have hl := hsite.collected
  rcases Site.mem_codes_iff.1 hmem with ⟨ho, rfl⟩ | ⟨ho, rfl⟩ | ⟨hk, ho⟩ | ⟨rfl, rfl⟩
  · obtain ⟨hplaced, f, hf⟩ := (hl.functions k).1 ho
    obtain ⟨ds, e, hocc, he⟩ := id hplaced
    have hdispatch : f.dispatchReceiver = none := by
      obtain ⟨content, hd, hin⟩ := hsite.shaped.placedIn hocc he
      obtain rfl := Option.mem_unique hf hd
      exact hin.2
    obtain ⟨content, new, content', hd, hnew, hcontent', hreplaces⟩ :=
      h.moved_self (by simp [Locals.tables, ho]) hf
      (by simp) fun _ _ => hsite.shaped.isMember_placed hocc he
    obtain rfl := Option.mem_unique hf hd
    generalize content'.erase = erased at hreplaces
    cases hreplaces with
    | function _ _ _ hpasses =>
      obtain ⟨caps, copies, -, hcaps, -, hcontext⟩ := hpasses
      exact .function hplaced hf hnew hcaps hcontext
    | method _ _ _ hdispatch' => rw [hdispatch] at hdispatch'; cases hdispatch'
  · obtain ⟨k', c, hmember, hc⟩ := (hl.constructors k).1 ho
    obtain ⟨content, new, content', hd, hnew, hcontent', hreplaces⟩ :=
      h.moved_self (by simp [Locals.tables, ho]) hc
      (by simp) (by simp)
    obtain rfl := Option.mem_unique hc hd
    generalize content'.erase = erased at hreplaces
    cases hreplaces with
    | @constructor _ k'' newK params hparent _ _ _ hpasses =>
      obtain ⟨caps, copies, -, hcaps, -, hcontext⟩ := hpasses
      obtain ⟨ds, c', hocc, hk', hmem'⟩ := id hmember
      obtain ⟨content, hcontent, hmemberOf⟩ := hsite.shaped.memberOf hocc hk' hmem'
      obtain rfl := Option.mem_unique hc hcontent
      obtain rfl := Option.mem_unique hmemberOf.1 hparent
      exact .constructor hmember hc hnew hcaps hcontext
  · obtain ⟨hplaced, c, hc⟩ := (hl.classes k).1 hk
    obtain ⟨c', m, hc', hm, ho⟩ := Program.mem_classCodes.1 ho
    obtain rfl := Declaration.cls.inj (Option.mem_unique hc hc')
    obtain ⟨new, c', fields, hnew, -, -, -, -, -, hthis, hfields, -, hcontext⟩ :=
      (h.moved_self (by simp [Locals.tables, hk]) hc (by simp) (by simp)).of_cls hc
    exact .member hplaced hc hm ho hnew hthis hfields hcontext
  · refine .root ?_
    cases hcontext : r.contexts.get? site.root with
    | none => rfl
    | some c =>
      obtain ⟨ds, place, hocc, hentry⟩ := h.occurs hsite (h.settled.contexts hcontext)
      exact (hsite.shaped.entry_ne_root hocc hentry).elim

end Relocated

end

/-! ## §3. Pieces of code as chores. -/

theorem codeOf_iff {x : ExprId} : CodeOf p o x ↔ ∃ e, p.codeAt o = some e ∧ p.Inside e x := by
  constructor
  · intro h
    induction h with
    | code ho hcode => exact ⟨_, Option.bind_eq_some_iff.2 ⟨_, ho, hcode⟩, .refl⟩
    | operand _ hnode hx ih =>
      obtain ⟨e, he, hin⟩ := ih
      exact ⟨e, he, hin.tail ⟨_, hnode, hx⟩⟩
  · rintro ⟨e, he, hin⟩
    obtain ⟨content, ho, hcode⟩ := Option.bind_eq_some_iff.1 he
    induction hin with
    | refl => exact .code ho hcode
    | tail _ hstep ih =>
      obtain ⟨node, hnode, hx⟩ := hstep
      exact .operand ih hnode hx

/-- The declarations whose code is retargeted are those of the pieces. -/
theorem Site.map_codes (site : Site) (p : Program) :
    (site.codes p).map (·.1) = p.retargeted site.root site.locals := by
  simp [Site.codes, Program.retargeted, List.map_flatMap, Function.comp_def]

/-- The nodes of pieces of code, each in the context of its piece. -/
def Covered (p₀ : Program) (r : Relocation) (os : List (DeclId × DeclId)) (e : ExprId)
    (c : Option Context) : Prop :=
  ∃ x ∈ os, CodeOf p₀ x.1 e ∧ c = r.contexts.get? x.2

/-- What may go wrong: a node is refused, or a class has no primary constructor. -/
structure Allows (p₀ : Program) (site : Site) (r : Relocation) (err : Fault → Prop) : Prop where
  refused : ∀ {o k e node}, (o, k) ∈ site.codes p₀ → CodeOf p₀ o e → p₀.exprs.get? e = some node →
    ∀ f : Fault, f.isReport = true →
    Retarget.Refuses ⟨site.locals, r, r.contexts.get? k⟩ node → err f
  primary : ∀ {k c}, p₀.Placed site.root k → p₀.decls.get? k = some (.cls c) →
    (∀ m ∈ c.members, ∀ x, p₀.decls.get? m = some (.constructor x) → x.isPrimary = false) →
    ∀ f : Fault, f.isReport = true → err f

namespace Site.Ready

variable {p₀ : Program} {site : Site} {dest : Option DeclId} (hsite : site.Ready p₀ dest)
include hsite

/-- **Pieces of code have nothing in common.** -/
theorem codes_apart : ((p₀.retargeted site.root site.locals).filterMap p₀.codeAt).Pairwise
    fun e e' => ∀ x, p₀.Inside e x → ¬ p₀.Inside e' x := by
  have hnodup := hsite.codes_nodup
  have howner : ∀ {o}, o ∈ p₀.retargeted site.root site.locals →
      ∃ ds, OwnerAt p₀ site.root ds o := by
    intro o ho
    rw [← site.map_codes] at ho
    obtain ⟨⟨o, k⟩, hmem, rfl⟩ := List.mem_map.1 ho
    exact hsite.owner hmem
  rw [site.map_codes] at hnodup
  refine List.pairwise_filterMap.2
    (hnodup.imp_of_mem fun {o o'} ho ho' hne e he e' he' x hx hx' => hne ?_)
  obtain ⟨ds, ho⟩ := howner ho
  obtain ⟨ds', ho'⟩ := howner ho'
  exact hsite.shaped.owner_unique ho ho' (codeOf_iff.2 ⟨e, he, hx⟩) (codeOf_iff.2 ⟨e', he', hx'⟩)

/-- And a piece does not overlap itself. -/
theorem code_treelike {levels : Nat} (hmem : (o, k) ∈ site.codes p₀) (he : p₀.codeAt o = some e)
    (hshallow : p₀.Shallow levels e) : p₀.Treelike e := by
  obtain ⟨ds, howner⟩ := hsite.owner hmem
  have hocc : ∀ {x}, p₀.Inside e x → Occurs p₀ site.root ds (.expr x) := fun hx =>
    howner.occurs (codeOf_iff.2 ⟨e, he, hx⟩)
  refine hshallow.treelike (fun ha hb hya hyb => ?_) fun {x node} hx hnode => ?_
  · obtain ⟨node, hnode, hy⟩ := hya
    obtain ⟨node', hnode', hy'⟩ := hyb
    have heq := hsite.shaped.unique_outer (hocc ha) (Program.label?_eq_expr.2 ⟨rfl, hnode⟩)
      (Label.mem_places_expr.2 hy)
      (hocc hb) (Program.label?_eq_expr.2 ⟨rfl, hnode'⟩) (Label.mem_places_expr.2 hy') rfl
    cases heq
    rfl
  · have hnodup :=
      hsite.shaped.nestedEntries_nodup (hocc hx) (Program.label?_eq_expr.2 ⟨rfl, hnode⟩)
    cases node with
    | decl d => exact .nil
    | _ => exact (hnodup.of_map _).of_map _

end Site.Ready

/-- Filling the class `k` changes these declarations: its replacement and the fields of its captured
values. -/
def Touches (r : Relocation) (k d : DeclId) : Prop :=
  r.get? k = some d ∨ ∃ this m, r.contexts.get? k = some (.fields this m) ∧ d ∈ m.values

/-- Apart from what filling the classes `ks` changes, the declarations are those of `q`. -/
def Untouched (r : Relocation) (q : Program) (ks : List DeclId) (b : Program) : Prop :=
  ∀ {d content}, q.decls.get? d = some content → (∀ k ∈ ks, ¬ Touches r k d) →
    b.decls.get? d = some content

namespace Relocated

variable {p₀ : Program} {site : Site} {dest : Option DeclId} {r : Relocation} {q : Program}
  {b : Program} {ks : List DeclId} (h : Relocated p₀ site dest r q) (hsite : site.Ready p₀ dest)
  (hks : ∀ k ∈ ks, k ∈ site.locals.classes.keys) (hsame : Untouched r q ks b)
include h

/-- What is changed is new. -/
theorem touches_new (hk : Touches r k d) : p₀.decls.size ≤ d.index := by
  rcases hk with hk | ⟨this, m, hm, hd⟩
  · exact (h.settled.moved hk).2.1
  · exact (h.settled.fields hm d hd).1

omit hks hsame in
include hsite in
/-- Members have replacements. -/
theorem isSome_of_member (hm : p₀.MemberBelow site.root k m) : (r.get? m).isSome := by
  obtain ⟨ds, c, hocc, hk, hmem⟩ := id hm
  obtain ⟨content, hcontent, -⟩ := hsite.shaped.memberOf hocc hk hmem
  refine (h.domain m).2 ⟨m, ?_, hsite.shaped.mem_brought hm⟩
  simp only [Locals.tables, List.mem_append]
  cases content with
  | constructor x => exact .inl (.inr ((hsite.collected.constructors m).2 ⟨k, x, hm, hcontent⟩))
  | _ => exact .inr ((hsite.collected.members m).2 (.inl ⟨k, _, hm, hcontent, by simp⟩))

include hsite hks hsame

/-- The replacement of what is no class stays as it is. -/
theorem kept_of_moved (ho : p₀.decls.get? o = some content) (hclass : ∀ c, content ≠ .cls c)
    (hnew : r.get? o = some new) :
    ∃ content', b.decls.get? new = some content'
      ∧ Replaces p₀ site dest r q o new content content'.erase := by
  obtain ⟨content₁, content', ho', hcontent', hreplaces⟩ :=
    (h.moved (by rw [hnew]; rfl)).of_get? hnew
  obtain rfl := Option.mem_unique ho ho'
  refine ⟨content', hsame hcontent' fun k hk htouch => ?_, hreplaces⟩
  rcases htouch with htouch | ⟨this, m, hm, hd⟩
  · obtain rfl := h.settled.inj hnew htouch
    obtain ⟨-, c, hc⟩ := (hsite.collected.classes o).1 (hks o hk)
    exact hclass c (Option.mem_unique ho hc)
  · exact (h.settled.fields hm new hd).2.2 o hnew

omit hsite hks in
/-- What was there before signatures were built stays as it is. -/
theorem kept_of_old (hd : p₀.decls.get? d = some content) : b.decls.get? d = some content := by
  refine hsame (h.settled.decls _ _ hd) fun k _ htouch => ?_
  have := h.touches_new htouch
  have := Arena.lt_size_of_get? hd
  omega

end Relocated

/-- **A class has its members**, and then the fields of its captured values. -/
def Completed (p₀ : Program) (r : Relocation) (q p : Program) (k : DeclId) : Prop :=
  ∃ c new c' this captured members primary context, p₀.decls.get? k = some (.cls c)
    ∧ r.get? k = some new
    ∧ q.decls.get? new = some (.cls c') ∧ r.contexts.get? k = some (.fields this captured)
    ∧ p.decls.get? new = some (.cls { c' with members := members ++ captured.values })
    ∧ List.Forall₂ (fun m m' => r.get? m = some m') c.members members
    ∧ c.members.find? p₀.isPrimary = some primary ∧ r.contexts.get? primary = some context
    ∧ ∀ v f, (v, f) ∈ captured.entries → Retarget.CapturedInit q p context v f

/-- All pieces of code are done and all classes filled. -/
structure Filling (p₀ : Program) (site : Site) (r : Relocation) (q p : Program) : Prop where
  sweep : Retarget.Sweep site.locals r q p (Covered p₀ r (site.codes p₀)) p
  closed : p.ClosedAt q.decls.size
  same : Untouched r q site.locals.classes.keys p
  classes : ∀ k ∈ site.locals.classes.keys, Completed p₀ r q p k

namespace Relocated

variable {p₀ : Program} {site : Site} {dest : Option DeclId} {r : Relocation} {q : Program}
  (h : Relocated p₀ site dest r q) (hsite : site.Ready p₀ dest)
include h hsite

/-- The replacement of a class before it is filled, and the fields of its captured values. -/
theorem class_parts (hk : k ∈ site.locals.classes.keys) : ∃ c new c' captured,
    p₀.decls.get? k = some (.cls c) ∧ p₀.Placed site.root k ∧ r.get? k = some new
      ∧ q.decls.get? new = some (.cls c') ∧ r.contexts.get? k = some (.fields c'.this captured)
      ∧ captured.keys = site.taken k ∧ captured.values.Nodup
      ∧ ∀ v f, (v, f) ∈ captured.entries → CapturedField q new v f := by
  obtain ⟨hplaced, c, hc⟩ := (hsite.collected.classes k).1 hk
  obtain ⟨new, c', fields, hnew, hc', -, -, -, -, -, hfields, hnodup, hcontext⟩ :=
    (h.moved_self (by simp [Locals.tables, hk]) hc (by simp) (by simp)).of_cls hc
  have hlength := hfields.length_eq
  have htaken := site.taken_nodup k
  refine ⟨c, new, c', _, hc, hplaced, hnew, hc', hcontext,
    OrderedMap.keys_ofList_zip htaken hlength, ?_, fun v f hf => ?_⟩
  · rw [OrderedMap.values_ofList_zip htaken hlength]
    exact hnodup
  · exact (List.forall₂_iff_zip.1 hfields).2 (OrderedMap.entries_ofList_zip htaken hlength ▸ hf)

/-- No declaration is changed by filling two classes. -/
theorem touches_inj (hk : k ∈ site.locals.classes.keys) (hk' : k' ∈ site.locals.classes.keys)
    (htouch : Touches r k d) (htouch' : Touches r k' d) : k = k' := by
  rcases htouch with htouch | ⟨this, m, hm, hd⟩
  · rcases htouch' with htouch' | ⟨this', m', hm', hd'⟩
    · exact h.settled.inj htouch htouch'
    · exact absurd htouch ((h.settled.fields hm' d hd').2.2 k)
  · rcases htouch' with htouch' | ⟨this', m', hm', hd'⟩
    · exact absurd htouch' ((h.settled.fields hm d hd).2.2 k')
    · -- a field stands in the replacement of one class
      obtain ⟨_, new, _, captured, -, -, hnew, -, hcontext, -, -, hfields⟩ := h.class_parts hsite hk
      obtain ⟨_, new', _, captured', -, -, hnew', -, hcontext', -, -, hfields'⟩ :=
        h.class_parts hsite hk'
      cases hm.symm.trans hcontext
      cases hm'.symm.trans hcontext'
      obtain ⟨⟨v, f⟩, hf, rfl⟩ := List.mem_map.1 hd
      obtain ⟨⟨v', f'⟩, hf', heq⟩ := List.mem_map.1 hd'
      obtain ⟨name, ty, hfield⟩ := hfields v f hf
      obtain ⟨name', ty', hfield'⟩ := hfields' v' f' hf'
      simp only at heq
      rw [heq, hfield] at hfield'
      simp only [Option.some.injEq, Declaration.field.injEq, FieldDecl.mk.injEq] at hfield'
      rw [hfield'.2.1] at hnew
      exact h.settled.inj hnew hnew'

/-- What the primary constructor of a class takes for a captured value. -/
theorem primary_context (hk : k ∈ site.locals.classes.keys) (hc : p₀.decls.get? k = some (.cls c))
    (hprimary : c.members.find? p₀.isPrimary = some primary) :
    ∃ context, r.contexts.get? primary = some context ∧ ∀ v ∈ site.taken k, ∃ x,
      context.carrier? v = some (.param x) := by
  have hmem : primary ∈ c.members := List.mem_of_find?_eq_some hprimary
  obtain ⟨x, hx, -⟩ := Program.isPrimary_iff.1 (List.find?_some hprimary)
  have hbelow := hsite.memberBelow hk hc hmem
  have hcode : (primary, primary) ∈ site.codes p₀ :=
    Site.mem_codes_iff.2
      (.inr (.inl ⟨(hsite.collected.constructors primary).2 ⟨k, x, hbelow, hx⟩, rfl⟩))
  cases h.readsBy hsite hcode with
  | root =>
    obtain ⟨ds, hocc⟩ := hbelow.occurs
    exact (hsite.shaped.entry_ne_root hocc rfl).elim
  | function _ hf => cases hx.symm.trans hf
  | @constructor k' _ _ _ caps hbelow' _ _ hcaps hcontext =>
    obtain ⟨ds, hocc⟩ := hbelow.occurs
    obtain ⟨ds', hocc'⟩ := hbelow'.occurs
    obtain ⟨rfl, -⟩ := List.cons.inj (hsite.shaped.unique hocc hocc' rfl).1
    refine ⟨_, hcontext, fun v hv => ?_⟩
    obtain ⟨hsome, -⟩ := OrderedMap.get?_ofList_zip hcaps (site.taken_nodup k)
    obtain ⟨y, hy⟩ := Option.isSome_iff_exists.1 ((hsome v).2 hv)
    exact ⟨y, by simp [Context.carrier?, hy]⟩
  | member _ hc' => cases hx.symm.trans hc'

omit hsite in
/-- The replacement of a member brings the replacements of what the member brings. -/
theorem memberCodes (hnew : r.get? m = some new) :
    List.Forall₂ (fun o x => r.get? o = some x) (p₀.memberCodes m) (q.memberCodes new) := by
  obtain ⟨content, content', hm, hcontent', hreplaces⟩ := (h.moved (by rw [hnew]; rfl)).of_get? hnew
  unfold Program.memberCodes
  rw [hm, hcontent']
  generalize herase : content'.erase = erased at hreplaces
  cases hreplaces with
  | function | method =>
    obtain ⟨_, rfl⟩ := Declaration.eq_function_of_erase herase
    exact .cons hnew .nil
  | cls =>
    obtain ⟨_, rfl⟩ := Declaration.eq_cls_of_erase herase
    exact .nil
  | constructor =>
    obtain rfl := Declaration.eq_constructor_of_erase herase
    exact .nil
  | field =>
    obtain rfl := Declaration.eq_field_of_erase herase
    exact .cons hnew .nil
  | property _ _ _ hbacking hgetter hsetter =>
    obtain ⟨_, rfl⟩ := Declaration.eq_property_of_erase herase
    exact List.rel_append (List.rel_append (optionRel_toList hgetter) (optionRel_toList hsetter))
      (optionRel_toList hbacking)

/-- Callables in the tables have replacements and contexts. -/
theorem servesCallable (hd : d ∈ site.locals.functions.keys ∨ d ∈ site.locals.constructors) :
    Retarget.ServesCallable r d := by
  have hmem : (d, d) ∈ site.codes p₀ :=
    Site.mem_codes_iff.2 (hd.imp (fun hd => ⟨hd, rfl⟩) fun hd => .inl ⟨hd, rfl⟩)
  cases h.readsBy hsite hmem with
  | root =>
    obtain ⟨ds, hocc⟩ := hsite.collected.occurs (d := site.root) (by
      simp only [Locals.tables, List.mem_append]
      rcases hd with hd | hd
      · tauto
      · tauto)
    exact (hsite.shaped.entry_ne_root hocc rfl).elim
  | function _ _ hnew _ hcontext => exact ⟨⟨_, hnew⟩, _, hcontext⟩
  | constructor _ _ hnew _ hcontext => exact ⟨⟨_, hnew⟩, _, hcontext⟩
  | member _ _ _ _ hnew _ _ hcontext => exact ⟨⟨_, hnew⟩, _, hcontext⟩

/-- **What retargeting looks up is there.** -/
theorem serves : Retarget.Serves p₀ site r q where
  functions d hd := h.servesCallable hsite (.inl hd)
  constructors d hd := h.servesCallable hsite (.inr hd)
  classes k hk := by
    obtain ⟨c, new, c', captured, hc, -, hnew, -, hcontext, -⟩ := h.class_parts hsite hk
    refine ⟨⟨new, hnew⟩, ⟨_, _, hcontext⟩, fun m hm => ?_⟩
    obtain ⟨c₁, hc₁, hm⟩ := Program.mem_membersOf.1 hm
    have hbelow := hsite.memberBelow hk hc₁ hm
    obtain ⟨y, hy⟩ := Option.isSome_iff_exists.1 (h.isSome_of_member hsite hbelow)
    obtain ⟨content, content', hold, hcontent', hreplaces⟩ := (h.moved (by rw [hy]; rfl)).of_get? hy
    refine ⟨y, content', hy, hcontent', ?_⟩
    have hclass : content'.erase.isClass = false := by
      generalize content'.erase = erased at hreplaces
      cases hreplaces with
      | cls => exact absurd ⟨k, m, _, hbelow, hold⟩ h.noNested
      | _ => rfl
    cases content' <;> first | rfl | cases hclass

/-- What has no context reads no captured value. -/
theorem root_context : r.contexts.get? site.root = none := by
  cases hcontext : r.contexts.get? site.root with
  | none => rfl
  | some c =>
    obtain ⟨ds, place, hocc, hentry⟩ := h.occurs hsite (h.settled.contexts hcontext)
    exact (hsite.shaped.entry_ne_root hocc hentry).elim

open Retarget in
/-- **The code that is gone through** are the pieces, each in the context that it reads by. -/
theorem mem_plan_iff {c : Option Context} : .expr c e ∈ plan p₀ site r q
    ↔ ∃ o k, (o, k) ∈ site.codes p₀ ∧ c = r.contexts.get? k ∧ p₀.codeAt o = some e := by
  have hcode : ∀ {d x}, r.get? d = some x → (q.decls.get? x).bind (·.code) = p₀.codeAt d :=
    fun hx => codeAt_image h.raised hx
  obtain ⟨content, hroot, hcallable, -⟩ := hsite.shaped.exists_root
  have hbody : (p₀.decls.get? site.root).bind (·.body) = p₀.codeAt site.root := by
    unfold Program.codeAt
    rw [hroot]
    cases content <;> first | rfl | cases hcallable
  rw [expr_mem_plan]
  constructor
  · rintro (⟨d, x, hd, hx, rfl, he⟩ | ⟨k, hk, m, hm, y, hy, x, hx, rfl, he⟩ | ⟨rfl, he⟩)
    · exact ⟨d, d, Site.mem_codes_iff.2 (hd.imp (fun hd => ⟨hd, rfl⟩) fun hd => .inl ⟨hd, rfl⟩),
        rfl, (hcode hx).symm.trans he⟩
    · obtain ⟨c, hc, hm⟩ := Program.mem_membersOf.1 hm
      obtain ⟨o, ho, hox⟩ := forall₂_left (h.memberCodes hy) hx
      exact ⟨o, k, Site.mem_codes_of_member hk hc hm ho, rfl, (hcode hox).symm.trans he⟩
    · exact ⟨_, _, Site.mem_codes_iff.2 (.inr (.inr (.inr ⟨rfl, rfl⟩))),
        (h.root_context hsite).symm, hbody.symm.trans he⟩
  · rintro ⟨o, k, hmem, rfl, he⟩
    rcases Site.mem_codes_iff.1 hmem with ⟨ho, rfl⟩ | ⟨ho, rfl⟩ | ⟨hk, ho⟩ | ⟨rfl, rfl⟩
    · obtain ⟨⟨x, hx⟩, -⟩ := h.servesCallable hsite (.inl ho)
      exact .inl ⟨k, x, .inl ho, hx, rfl, (hcode hx).trans he⟩
    · obtain ⟨⟨x, hx⟩, -⟩ := h.servesCallable hsite (.inr ho)
      exact .inl ⟨k, x, .inr ho, hx, rfl, (hcode hx).trans he⟩
    · obtain ⟨c, m, hc, hm, ho⟩ := Program.mem_classCodes.1 ho
      obtain ⟨y, hy⟩ :=
        Option.isSome_iff_exists.1 (h.isSome_of_member hsite (hsite.memberBelow hk hc hm))
      obtain ⟨x, hx, hox⟩ := forall₂_right (h.memberCodes hy) ho
      exact .inr (.inl ⟨k, hk, m, Program.mem_membersOf.2 ⟨c, hc, hm⟩, y, hy, x, hx, rfl,
        (hcode hox).trans he⟩)
    · exact .inr (.inr ⟨h.root_context hsite, hbody.trans he⟩)

/-! ## §4. Everything below one root. -/

open Retarget in
/-- **A piece of code is blocked** only by a node that is refused. -/
theorem refused_of_blocks {x : ExprId} {node : Expr} {f : Fault} (hmem : (o, k) ∈ site.codes p₀)
    (hcode : CodeOf p₀ o x) (hnode : p₀.exprs.get? x = some node)
    (hblocks : Blocks ⟨site.locals, r, r.contexts.get? k⟩ q node f) :
    f.isReport = true ∧ Refuses ⟨site.locals, r, r.contexts.get? k⟩ node := by
  obtain ⟨hdecls, hvalues, -⟩ := h.settled.closed.exprs (h.settled.exprs.symm ▸ hnode)
  cases hblocks with
  | value hv hnone =>
    exact absurd (hvalues _ hv) (Nat.not_lt.2 ((Arena.get?_eq_none_iff _ _).1 hnone))
  | @decl form a new d _ hnew hd hnone =>
    have hlt : d.index < q.decls.size := by
      rcases hd with rfl | rfl
      · exact hdecls _ (by simp [Expr.namedDecls])
      · exact (h.settled.moved hnew).2.2
    exact absurd hlt (Nat.not_lt.2 ((Arena.get?_eq_none_iff _ _).1 hnone))
  | refused hrefuses hf => exact ⟨hf, hrefuses⟩
  | @unlifted d _ hlifted =>
    obtain ⟨ds, howner⟩ := hsite.owner hmem
    have hplaced : p₀.Placed site.root d := ⟨_, x, howner.occurs hcode, hnode⟩
    refine absurd ?_ hlifted
    simp only [Locals.isLifted, Bool.or_eq_true, OrderedMap.contains_iff]
    rcases hsite.shaped.placed_kind hplaced with hf | hc
    · exact .inl ((hsite.collected.functions d).2 ⟨hplaced, hf⟩)
    · exact .inr ((hsite.collected.classes d).2 ⟨hplaced, hc⟩)
  | unpassed hnew hold hcontent hparam hnot =>
    obtain ⟨old', content', hd, hcontent', hreplaces⟩ := (h.moved (by rw [hnew]; rfl)).of_get? hnew
    obtain rfl := Option.mem_unique (h.settled.decls _ _ hd) hold
    obtain rfl := Option.mem_unique hcontent' hcontent
    refine absurd ?_ hnot
    refine (hreplaces.params h.settled (by cases content' <;> exact hparam)).imp_right ?_
    rintro ⟨hback, v, -, hcarried, -⟩
    exact ⟨hback, v, hcarried⟩

open Retarget in
/-- **Nothing is lost** but a primary constructor. -/
theorem primary_of_lost {done : List Chore} {f : Fault} (hframed : Framed p₀ r q done p)
    (hlost : Lost p₀ site r q p f) :
    f.isReport = true ∧ ∃ k c, p₀.Placed site.root k ∧ p₀.decls.get? k = some (.cls c)
      ∧ ∀ m ∈ c.members, ∀ x, p₀.decls.get? m = some (.constructor x) → x.isPrimary = false := by
  have hprimary : ∀ {k c done p}, Framed p₀ r q done p → p₀.decls.get? k = some (.cls c) →
      p.primaryConstructor? k = .ok (c.members.find? p₀.isPrimary) := fun hframed hk =>
    hframed.primaryConstructor?_eq h.raised hsite.shaped.closed hk
  cases hlost with
  | unserved hnot => exact absurd (h.serves hsite) hnot
  | @primary k _ hk hfinds hf =>
    obtain ⟨hplaced, c, hc⟩ := (hsite.collected.classes k).1 hk
    obtain ⟨done', p', hframed', hfound⟩ := hfinds
    have hnone := Except.ok.inj ((hprimary hframed' hc).symm.trans hfound)
    refine ⟨hf, k, c, hplaced, hc, fun m hm x hx => ?_⟩
    have hnot := List.find?_eq_none.1 hnone m hm
    rw [Program.isPrimary_iff] at hnot
    simpa using fun hyes => hnot ⟨x, hx, hyes⟩
  | @untaken k primary _ hk hfinds hnot =>
    obtain ⟨c, new, c', captured, hc, -, -, -, hcontext, hkeys, -⟩ := h.class_parts hsite hk
    obtain ⟨done', p', hframed', hfound⟩ := hfinds
    obtain ⟨context, hprimary', hcarriers⟩ :=
      h.primary_context hsite hk hc (Except.ok.inj ((hprimary hframed' hc).symm.trans hfound))
    obtain ⟨⟨v, field⟩, hmem, hparam⟩ := hnot context hprimary'
    obtain ⟨this, captured', hcontext', hmem⟩ := Relocation.mem_fieldsOf.1 hmem
    cases hcontext.symm.trans hcontext'
    obtain ⟨x, hx⟩ := hcarriers v (hkeys ▸ List.mem_map.2 ⟨_, hmem, rfl⟩)
    exact absurd hx (hparam x)
  | members hk hf => cases (hprimary hframed hk).symm.trans hf

open Retarget in
/-- **Classes are filled** when all is done. -/
theorem completed (hk : k ∈ site.locals.classes.keys) (hframed : Framed p₀ r q (plan p₀ site r q) p)
    (hinit : Initialized p₀ r q (plan p₀ site r q) p) (hfinds : Finds p₀ r q k (some primary)) :
    Completed p₀ r q p k := by
  have hfound : ∀ {k c primary}, p₀.decls.get? k = some (.cls c) → Finds p₀ r q k (some primary) →
      c.members.find? p₀.isPrimary = some primary := by
    rintro k c primary hc ⟨done, p', hframed', hfound⟩
    exact Except.ok.inj
      ((hframed'.primaryConstructor?_eq h.raised hsite.shaped.closed hc).symm.trans hfound)
  obtain ⟨c, new, c', captured, hc, -, hnew, hc', hcontext, -, hvalues, -⟩ := h.class_parts hsite hk
  have hmembersOf : p₀.membersOf k = c.members := by simp [Program.membersOf, hc, Declaration.cls?]
  have hfieldsOf : r.fieldsOf k = captured.entries := by simp [Relocation.fieldsOf, hcontext]
  obtain ⟨context, hprimary, -⟩ := h.primary_context hsite hk hc (hfound hc hfinds)
  obtain ⟨members, hp, ⟨-, hnever⟩ | ⟨k', hfill⟩⟩ := hframed.classes hnew hc'
  · exact absurd (fill_mem_plan.2 ⟨hk, hnew, rfl⟩) (hnever k _)
  obtain ⟨-, hnew', rfl⟩ := fill_mem_plan.1 hfill
  obtain rfl := h.settled.inj hnew hnew'
  rw [hmembersOf, hfieldsOf] at hp
  refine ⟨c, new, c', c'.this, captured, _, primary, context, hc, hnew, hc', hcontext, hp, ?_,
    hfound hc hfinds, hprimary, fun v f hf => ?_⟩
  · obtain ⟨-, -, hreplaced⟩ := (h.serves hsite).classes k hk
    rw [hmembersOf] at hreplaced
    refine forall₂_filterMap fun m hm => ?_
    obtain ⟨y, -, hy, -⟩ := hreplaced m hm
    exact ⟨y, hy⟩
  · -- the field belongs to one class and one value, so the chore that dealt with it last was
    -- this one
    have hcapture : .capture k v f ∈ plan p₀ site r q := capture_mem_plan.2 ⟨hk, hfieldsOf ▸ hf⟩
    obtain ⟨k', v', primary', context', hcapture', hfinds', hcontext', hinit'⟩ := hinit hcapture
    obtain ⟨hk', hmem⟩ := capture_mem_plan.1 hcapture'
    obtain ⟨this', captured', hfields', hf'⟩ := Relocation.mem_fieldsOf.1 hmem
    obtain rfl : k = k' :=
      h.touches_inj hsite hk hk' (.inr ⟨_, _, hcontext, List.mem_map.2 ⟨_, hf, rfl⟩⟩)
      (.inr ⟨_, _, hfields', List.mem_map.2 ⟨_, hf', rfl⟩⟩)
    cases hcontext.symm.trans hfields'
    obtain rfl : v = v' := congrArg Prod.fst (List.inj_on_of_nodup_map hvalues hf hf' rfl)
    obtain rfl : primary = primary' :=
      Option.some.inj ((hfound hc hfinds).symm.trans (hfound hc hfinds'))
    obtain rfl : context = context' := Option.mem_unique hprimary hcontext'
    exact hinit'

open Retarget in
/-- **Everything below a root is retargeted**, or a node is refused, or a class has no primary
constructor. -/
theorem all_ends {w : Work} {err : Fault → Prop} (hallows : Allows p₀ site r err)
    (hw : w.program = q) :
    Step.Ends (Retarget.all site.locals r site.root) w
      (fun _ w' => Filling p₀ site r q w'.program) err := by
  obtain ⟨hsorted, hcollects⟩ := Program.locals_spec hsite.locals
  obtain ⟨content, hroot, -⟩ := hsite.dest
  have hworks := @sweeps_works _ _ _ _ h.raised err hcollects hsite.codes_apart
    (fun hmem => by
      obtain ⟨o, k, hmem', -, he⟩ := (h.mem_plan_iff hsite).1 hmem
      exact hsite.code_treelike hmem' he
        (hcollects.ends.bounded (below_of_mem_plan h.raised hmem)).shallow)
    (fun hmem hin hnode hblocks => by
      obtain ⟨o, k, hmem', rfl, he⟩ := (h.mem_plan_iff hsite).1 hmem
      have hcode := codeOf_iff.2 ⟨_, he, hin⟩
      obtain ⟨hf, hrefuses⟩ := h.refused_of_blocks hsite hmem' hcode hnode hblocks
      exact hallows.refused hmem' hcode hnode _ hf hrefuses)
    fun hframed hlost => by
      obtain ⟨hf, k, c, hplaced, hc, hnone⟩ := h.primary_of_lost hsite hframed hlost
      exact hallows.primary hplaced hc hnone _ hf
  refine (hworks.all h.raised hsorted hroot
    ⟨hw ▸ .start p₀ r q, hw ▸ .start (by simp [doneBy]), fun hmem => by cases hmem⟩).mono ?_
  rintro _ w' ⟨-, hfinds, hframed, hsweep, hinit⟩
  refine ⟨hsweep.congr fun x c => ?_, ?_,
    fun {d content} hd htouch => hframed.same hd fun chore hmem htarget => ?_, fun k hk => ?_⟩
  · simp only [Covered, doneBy, h.mem_plan_iff hsite, codeOf_iff, Prod.exists]
    grind
  · exact hsweep.closed ⟨h.settled.closed, fun hrecords => leads_of_founded h.founded hrecords⟩
  · cases chore with
    | expr => cases htarget
    | capture k v field =>
      obtain rfl : field = d := Option.some.inj htarget
      obtain ⟨hk, hmem⟩ := capture_mem_plan.1 hmem
      obtain ⟨this, captured, hcontext, hmem⟩ := Relocation.mem_fieldsOf.1 hmem
      exact htouch k hk (.inr ⟨this, captured, hcontext, List.mem_map.2 ⟨_, hmem, rfl⟩⟩)
    | fill k x members =>
      obtain rfl : x = d := Option.some.inj htarget
      obtain ⟨hk, hx, -⟩ := fill_mem_plan.1 hmem
      exact htouch k hk (.inl hx)
  · obtain ⟨primary, hfinds⟩ := hfinds k hk
    exact h.completed hsite hk hframed hinit hfinds

end Relocated

end LambdaLift
