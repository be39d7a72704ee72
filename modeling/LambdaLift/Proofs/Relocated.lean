/-
  LambdaLift.Proofs.Relocated
  **SIGNATURES BELOW A WELL-SHAPED ROOT.**

  Below a well-shaped root every declaration is placed once and keeps its
  own values.  So of the reasons to refuse a replacement only one is left,
  a class in a class.  Where there is none, exactly the declarations that
  the tables bring along have replacements, and each is of the form that its
  kind asks for (`Replaces`).

  Main results:
    * `Site.Ready.nestsClass_of_refuses` — the one reason that is left;
    * `Ledger.replaces` — the form of a replacement;
    * `Lift.relocation_ends` — every declaration below the root has its
      replacement (`Relocated`), or a class stands in a class.
-/
import Mathlib
import LambdaLift.Proofs.Collected
import LambdaLift.Proofs.Founded
import LambdaLift.Proofs.LeastClosures

namespace LambdaLift

variable {p₀ : Program} {d k m new x : DeclId} {ds ds' : List DeclId} {dest : Option DeclId}
  {v : ValueId} {c : ClassDecl} {content : Declaration} {q : PropertyDecl} {settings : Settings}
  {site : Site} {kind : ValueKind}

/-! ## §1. The form of a replacement. -/

/-- A parameter of `new` that carries a captured value. -/
def Carries (r : Relocation) (p : Program) (new : DeclId) (v x : ValueId) : Prop :=
  r.carried.get? x = some v ∧ r.values.back? x = none ∧ p.Owns new x

/-- A value of `new` that is the counterpart of another. -/
def Copies (r : Relocation) (p : Program) (new : DeclId) (v x : ValueId) : Prop :=
  r.values.forth? v = some x ∧ p.Owns new x

/-- The replacement of `d` takes captured values, then copies of the old parameters, and reads the
captured values from there. -/
def Passes (r : Relocation) (p : Program) (d new : DeclId)
    (taken old params : List ValueId) : Prop :=
  ∃ caps copies, params = caps ++ copies ∧ List.Forall₂ (Carries r p new) taken caps
    ∧ List.Forall₂ (Copies r p new) old copies
    ∧ r.contexts.get? d = some (.params (.ofList (taken.zip caps)))

/-- A field of the class `new` for a captured value. -/
def CapturedField (p : Program) (new : DeclId) (_v : ValueId) (field : DeclId) : Prop :=
  ∃ name ty, p.decls.get? field = some (.field
    { name, parent := some new, origin := .captured, visibility := .inContainer,
      isFinal := true, ty })

/-- The values that lifting hands to a declaration. -/
def Site.taken (site : Site) (d : DeclId) : List ValueId :=
  ((site.closures.get? d).map (·.toList)).getD []

/-- How a declaration is replaced, up to what it overrides and which members can be named on it. -/
inductive Replaces (p₀ : Program) (site : Site) (dest : Option DeclId) (r : Relocation)
    (p : Program) (d new : DeclId) : (old replacement : Declaration) → Prop
  /-- a function that a statement places -/
  | function {f : FunctionDecl} {name : Name} {extensionReceiver : Option ValueId}
      {params : List ValueId} : p₀.Placed site.root d → f.dispatchReceiver = none →
      Option.Rel (Copies r p new) f.extensionReceiver extensionReceiver →
      Passes r p d new (site.taken d) f.params params →
      Replaces p₀ site dest r p d new (.function f) (.function
        { name, parent := dest, origin := .lifted, visibility := .inContainer,
          typeParams := f.typeParams, extensionReceiver, params, ret := f.ret, body := f.body })
  /-- a class that a statement places; its members follow with the bodies -/
  | cls {c : ClassDecl} {name : Name} {this : ValueId} {fields : List DeclId} :
      p₀.Placed site.root d → Copies r p new c.this this →
      List.Forall₂ (CapturedField p new) (site.taken d) fields → fields.Nodup →
      r.contexts.get? d = some (.fields this (.ofList ((site.taken d).zip fields))) →
      Replaces p₀ site dest r p d new (.cls c) (.cls
        { name, parent := dest, origin := .lifted, kind := c.kind, visibility := .inContainer,
          modality := c.modality, supertypes := c.supertypes, this })
  /-- a constructor takes what its class captures -/
  | constructor {c : ConstructorDecl} {k newK : DeclId} {params : List ValueId} :
      c.parent = some k → p₀.Placed site.root k → r.get? k = some newK → c.dispatchReceiver = none →
      Passes r p d new (site.taken k) c.params params →
      Replaces p₀ site dest r p d new (.constructor c) (.constructor
        { c with parent := some newK, visibility := .inContainer, params })
  /-- a method or an accessor -/
  | method {f : FunctionDecl} {k newK : DeclId} {c : ClassDecl} {this : ValueId}
      {extensionReceiver : Option ValueId} {params : List ValueId} {accessorOf : Option DeclId} :
      f.parent = some k → p₀.Placed site.root k → p₀.decls.get? k = some (.cls c) →
      f.dispatchReceiver = some c.this → r.get? k = some newK → Copies r p newK c.this this →
      Option.Rel (Copies r p new) f.extensionReceiver extensionReceiver →
      List.Forall₂ (Copies r p new) f.params params →
      Option.Rel (fun q q' => r.get? q = some q') f.accessorOf accessorOf →
      Replaces p₀ site dest r p d new (.function f) (.function
        { f with parent := some newK, dispatchReceiver := some this,
                 extensionReceiver, params, accessorOf, overrides := [] })
  /-- a property, with its backing field and its accessors -/
  | property {q : PropertyDecl} {k newK : DeclId} {backingField getter setter : Option DeclId} :
      q.parent = some k → p₀.Placed site.root k → r.get? k = some newK →
      Option.Rel (fun a a' => r.get? a = some a') q.backingField backingField →
      Option.Rel (fun a a' => r.get? a = some a') q.getter getter →
      Option.Rel (fun a a' => r.get? a = some a') q.setter setter →
      Replaces p₀ site dest r p d new (.property q) (.property
        { q with parent := some newK, backingField, getter, setter, overrides := [] })
  /-- a field, which keeps its initializer -/
  | field {f : FieldDecl} {k newK : DeclId} :
      f.parent = some k → p₀.Placed site.root k → r.get? k = some newK →
      Replaces p₀ site dest r p d new (.field f) (.field { f with parent := some newK })

/-- A declaration has got its replacement. -/
def Moved (p₀ : Program) (site : Site) (dest : Option DeclId) (r : Relocation)
    (p : Program) (d : DeclId) : Prop :=
  ∃ content new content', p₀.decls.get? d = some content ∧ r.get? d = some new
    ∧ p.decls.get? new = some content' ∧ Replaces p₀ site dest r p d new content content'.erase

/-- The replacement of a class, before it has its members. -/
theorem Moved.of_cls {p : Program} {r : Relocation} (h : Moved p₀ site dest r p d)
    (hd : p₀.decls.get? d = some (.cls c)) :
    ∃ new c' fields, r.get? d = some new ∧ p.decls.get? new = some (.cls c')
      ∧ c'.parent = dest ∧ c'.members = []
      ∧ c'.supertypes = c.supertypes ∧ p₀.Placed site.root d ∧ Copies r p new c.this c'.this
      ∧ List.Forall₂ (CapturedField p new) (site.taken d) fields ∧ fields.Nodup
      ∧ r.contexts.get? d = some (.fields c'.this (.ofList ((site.taken d).zip fields))) := by
  obtain ⟨content, new, content', hd', hnew, hcontent', hreplaces⟩ := h
  obtain rfl := Option.mem_unique hd hd'
  generalize herase : content'.erase = erased at hreplaces
  cases hreplaces with
  | @cls _ _ _ fields hplaced hthis hfields hnodup hcontext =>
    obtain ⟨scope, rfl⟩ := Declaration.eq_cls_of_erase herase
    exact ⟨new, _, fields, hnew, hcontent', rfl, rfl, rfl, hplaced, hthis,
      hfields, hnodup, hcontext⟩

theorem optionRel_toList {α β : Type} {R : α → β → Prop} {a? : Option α} {b? : Option β}
    (h : Option.Rel R a? b?) : List.Forall₂ R a?.toList b?.toList := by
  cases h with
  | none => exact .nil
  | some h => exact .cons h .nil

/-! ## §2. Values have one owner. -/

namespace Program

variable {p : Program} {d d' : DeclId} {v u : ValueId} {params : List ValueId}

/-- A value is a variable of a body. -/
def IsVariable (p : Program) (v : ValueId) : Prop := ∃ d isMutable, p.ValueIs v d (.var isMutable)

theorem IsVariable.ne (hv : p.IsVariable v) (hu : p.ValueIs u d kind)
    (hkind : ∀ isMutable, kind ≠ .var isMutable) : v ≠ u := by
  rintro rfl
  obtain ⟨_, isMutable, hvar⟩ := hv
  exact hkind isMutable (hu.kind_eq hvar)

/-- What a declaration that is kept well binds are different values of its own, and no variables.
Only a constructor may take a value of another declaration. -/
theorem Kept.binds (h : p.Kept d content)
    (hdispatch : ∀ c, content = .constructor c → c.dispatchReceiver = none) : content.binds.Nodup
      ∧ ∀ v ∈ content.binds, ∃ kind, p.ValueIs v d kind ∧ ∀ isMutable, kind ≠ .var isMutable := by
  have hparam : ∀ {params}, p.BindsParams d params → ∀ v ∈ params,
      ∃ kind, p.ValueIs v d kind ∧ ∀ isMutable, kind ≠ .var isMutable := by
    intro params hparams v hv
    obtain ⟨i, hi⟩ := hparams.valueIs hv
    exact ⟨_, hi, by rintro _ ⟨⟩⟩
  cases content with
  | function f =>
    obtain ⟨hparams, hext⟩ := h
    refine ⟨List.nodup_append.2
      ⟨hparams.nodup, by cases f.extensionReceiver <;> simp, fun v hv u hu => ?_⟩, fun v hv => ?_⟩
    · rintro rfl
      exact hparams.not_mem (hext v (by simpa using hu)) (by rintro _ ⟨⟩) hv
    · rcases List.mem_append.1 hv with hv | hv
      · exact hparam hparams v hv
      · exact ⟨_, hext v (by simpa using hv), by rintro _ ⟨⟩⟩
  | constructor c =>
    simp only [Declaration.binds, hdispatch c rfl, Option.toList_none, List.append_nil]
    exact ⟨BindsParams.nodup h, hparam h⟩
  | cls c =>
    refine ⟨List.nodup_singleton _, fun v hv => ?_⟩
    rw [List.mem_singleton.1 hv]
    exact ⟨_, h.1, by rintro _ ⟨⟩⟩
  | property q => exact ⟨.nil, fun v hv => absurd hv (by simp [Declaration.binds])⟩
  | field f => exact ⟨.nil, fun v hv => absurd hv (by simp [Declaration.binds])⟩

end Program

/-! ## §3. What is brought along below a well-shaped root. -/

namespace Program

/-- A class below the root is a member of a class. -/
def NestsClass (p : Program) (root : DeclId) : Prop :=
  ∃ k m c, p.MemberBelow root k m ∧ p.decls.get? m = some (.cls c)

namespace WellShaped

variable {p : Program} {root : DeclId} (h : p.WellShaped root)
include h

/-- A class that no statement places is a member of a class. -/
theorem nestsClass_of_not_placed (hocc : Occurs p root ds (.decl d))
    (hd : p.decls.get? d = some (.cls c)) (hplaced : ¬ p.Placed root d) : p.NestsClass root := by
  rcases h.decl_cases hocc with ⟨hyes, -⟩ | ⟨⟨k, hk⟩ | ⟨q, hq⟩, -⟩
  · exact absurd hyes hplaced
  · exact ⟨k, d, c, hk, hd⟩
  · obtain ⟨f, hf, -⟩ := h.accessor_kind hq
    cases hd.symm.trans hf

/-- Constructors of a placed class take no enclosing instance. -/
theorem no_enclosing_instance (hplaced : p.Placed root k) (hk : p.decls.get? k = some (.cls c)) :
    (if c.isInner then c.parent.bind p.receiver? else none) = none := by
  obtain ⟨ds, e, hocc, he⟩ := hplaced
  obtain ⟨content, hk', hin⟩ := h.placedIn hocc he
  obtain rfl := Option.mem_unique hk hk'
  obtain ⟨outer, houter, hcallable⟩ := h.enclosing_callable ds
  split
  · rw [show c.parent = _ from hin, Option.bind_some]
    unfold receiver?
    rw [houter]
    cases outer with
    | function f => rfl
    | constructor c => rfl
    | _ => cases hcallable
  · rfl

/-- The class that a constructor below the root stands in, and why the constructor has no
receiver. -/
theorem constructor_cls {c : ConstructorDecl} (hocc : Occurs p root ds (.decl d))
    (hd : p.decls.get? d = some (.constructor c)) :
    ∃ k, c.parent = some k ∧ (∃ ds, Occurs p root ds (.decl k))
      ∧ (∃ cls, p.decls.get? k = some (.cls cls))
      ∧ (p.Placed root k → c.dispatchReceiver = none) := by
  obtain ⟨k, ds', cls, hocc', hk, hm⟩ := h.memberBelow_of_constructor hocc hd
  obtain ⟨content, hd', hmember⟩ := h.memberOf hocc' hk hm
  cases hd.symm.trans hd'
  obtain ⟨hparent, hdispatch⟩ := hmember
  exact ⟨k, hparent, ⟨ds', hocc'⟩, ⟨cls, hk⟩,
    fun hplaced => hdispatch.trans (h.no_enclosing_instance hplaced hk)⟩

/-- What a declaration brings along stands below the root, and says where it belongs. -/
theorem brought_cases (hocc : Occurs p root ds (.decl d)) (hx : x ∈ p.brought d) :
    (x = d ∧ ∀ q, ¬ p.AccessorBelow root q d) ∨ p.AccessorBelow root d x
      ∨ ∃ ds' q, Occurs p root ds' (.decl d) ∧ p.decls.get? d = some (.property q)
      ∧ x ∈ q.backingField := by
  unfold brought at hx
  split at hx
  · rename_i f hd
    have haccessor : (∃ q, p.AccessorBelow root q d) →
        p.isMember d = .ok true ∧ f.accessorOf.isSome = true := by
      rintro ⟨q, hq⟩
      obtain ⟨g, hg, haccessor⟩ := h.accessor_kind hq
      cases hd.symm.trans hg
      obtain ⟨ds', x', hocc', hx', ha⟩ := hq
      exact ⟨h.isMember_accessor hocc' hx' ha, by rw [haccessor]; rfl⟩
    split at hx
    · split at hx
      · cases hx
      · rename_i hnone
        exact .inl ⟨List.mem_singleton.1 hx, fun q hq => hnone (haccessor ⟨q, hq⟩).2⟩
    · rename_i hno
      exact .inl ⟨List.mem_singleton.1 hx, fun q hq => hno (haccessor ⟨q, hq⟩).1⟩
  · rename_i q hd
    rcases List.mem_append.1 hx with hb | hx
    · exact .inr (.inr ⟨ds, q, hocc, hd, by simpa using hb⟩)
    · rcases List.mem_cons.1 hx with rfl | ha
      · refine .inl ⟨rfl, fun q' hq' => ?_⟩
        obtain ⟨g, hg, -⟩ := h.accessor_kind hq'
        cases hd.symm.trans hg
      · exact .inr (.inl ⟨ds, q, hocc, hd, ha⟩)
  · rename_i hd
    refine .inl ⟨List.mem_singleton.1 hx, fun q hq => ?_⟩
    obtain ⟨g, hg, -⟩ := h.accessor_kind hq
    simp_all

/-- A member of a class brings itself along. -/
theorem mem_brought (hm : p.MemberBelow root k m) : m ∈ p.brought m := by
  obtain ⟨ds, c, hocc, hk, hmem⟩ := hm
  obtain ⟨content, hcontent, hmember⟩ := h.memberOf hocc hk hmem
  by_cases hproperty : ∀ q, content ≠ .property q
  · rw [brought_eq_self hcontent hproperty fun f hf => by cases hf; exact .inr hmember.2.2]
    exact List.mem_singleton_self m
  · push Not at hproperty
    obtain ⟨q, rfl⟩ := hproperty
    simp [brought, hcontent]

omit h in
theorem backing_mem_places (hx : x ∈ q.backingField) (d : DeclId) :
    Place.backing x ∈ (Label.decl d (.property q)).places .nested :=
  List.mem_append_right _ (List.mem_map_of_mem (by simpa using hx))

omit h in
theorem occurs_backing (hocc : Occurs p root ds (.decl d))
    (hd : p.decls.get? d = some (.property q)) (hx : x ∈ q.backingField) :
    Occurs p root ((Label.decl d (.property q)).scopes ds) (.backing x) :=
  .inner hocc (label?_eq_decl.2 ⟨rfl, hd⟩) (backing_mem_places hx d)

/-- No declaration is a backing field too. -/
theorem not_decl_backing (hocc : Occurs p root ds (.decl x))
    (hocc' : Occurs p root ds' (.backing x)) : False := by
  cases (h.unique hocc hocc' rfl).2

/-- **No two declarations bring the same along.** -/
theorem brought_inj {d' : DeclId} (hocc : Occurs p root ds (.decl d))
    (hocc' : Occurs p root ds' (.decl d')) (hx : x ∈ p.brought d)
    (hx' : x ∈ p.brought d') : d = d' := by
  rcases h.brought_cases hocc hx with ⟨rfl, hnot⟩ | hacc | ⟨ds₁, q, hocc₁, hd, hb⟩
  · rcases h.brought_cases hocc' hx' with ⟨rfl, -⟩ | hacc' | ⟨ds₂, q', hocc₂, hd', hb'⟩
    · rfl
    · exact absurd hacc' (hnot _)
    · exact (h.not_decl_backing hocc (occurs_backing hocc₂ hd' hb')).elim
  · obtain ⟨ds₁, hocc₁⟩ := hacc.occurs
    rcases h.brought_cases hocc' hx' with ⟨rfl, hnot'⟩ | hacc' | ⟨ds₂, q', hocc₂, hd', hb'⟩
    · exact absurd hacc (hnot' _)
    · obtain ⟨f, hf, haccessor⟩ := h.accessor_kind hacc
      obtain ⟨f', hf', haccessor'⟩ := h.accessor_kind hacc'
      cases hf.symm.trans hf'
      exact Option.mem_unique haccessor haccessor'
    · exact (h.not_decl_backing hocc₁ (occurs_backing hocc₂ hd' hb')).elim
  · rcases h.brought_cases hocc' hx' with ⟨rfl, -⟩ | hacc' | ⟨ds₂, q', hocc₂, hd', hb'⟩
    · exact (h.not_decl_backing hocc' (occurs_backing hocc₁ hd hb)).elim
    · obtain ⟨ds₂, hocc₂⟩ := hacc'.occurs
      exact (h.not_decl_backing hocc₂ (occurs_backing hocc₁ hd hb)).elim
    · have hlabel :=
        h.unique_outer hocc₁ (label?_eq_decl.2 ⟨rfl, hd⟩) (backing_mem_places hb d) hocc₂
        (label?_eq_decl.2 ⟨rfl, hd'⟩) (backing_mem_places hb' d') rfl
      cases hlabel
      rfl

/-- A declaration brings nothing along twice. -/
theorem brought_nodup (hocc : Occurs p root ds (.decl d)) : (p.brought d).Nodup := by
  by_cases hproperty : ∃ q, p.decls.get? d = some (.property q)
  · obtain ⟨q, hd⟩ := hproperty
    have hnodup := h.nestedEntries_nodup hocc (label?_eq_decl.2 ⟨rfl, hd⟩)
    have heq : (Label.decl d (.property q)).nestedEntries
        = ((q.getter.toList ++ q.setter.toList) ++ q.backingField.toList).map .inr := by
      simp [Label.nestedEntries, Label.places, Declaration.parts, Place.entry, Function.comp_def]
    rw [heq] at hnodup
    obtain ⟨hacc, hback, hdisjoint⟩ := List.nodup_append.1 (hnodup.of_map _)
    unfold brought
    rw [hd]
    refine List.nodup_append.2
      ⟨hback, List.nodup_cons.2 ⟨fun hmem => ?_, hacc⟩, fun b hb y hy => ?_⟩
    · obtain ⟨f, hf, -⟩ :=
        h.accessor_kind (show p.AccessorBelow root d d from ⟨_, _, hocc, hd, hmem⟩)
      cases hd.symm.trans hf
    · rintro rfl
      rcases List.mem_cons.1 hy with rfl | hy
      · exact h.not_decl_backing hocc (occurs_backing hocc hd (by simpa using hb))
      · exact hdisjoint b hy b hb rfl
  · unfold brought
    split
    · split
      · split
        · exact .nil
        · exact List.nodup_singleton _
      · exact List.nodup_singleton _
    · rename_i q hd
      exact absurd ⟨q, hd⟩ hproperty
    · exact List.nodup_singleton _

/-- What a declaration brings along is a declaration below the root, or a backing field. -/
theorem occurs_of_brought (hocc : Occurs p root ds (.decl d)) (hx : x ∈ p.brought d) :
    (∃ ds, Occurs p root ds (.decl x)) ∨ ∃ f, p.decls.get? x = some (.field f) := by
  rcases h.brought_cases hocc hx with ⟨rfl, -⟩ | hacc | ⟨ds', q, hocc', hd, hb⟩
  · exact .inl ⟨ds, hocc⟩
  · exact .inl hacc.occurs
  · obtain ⟨k, c, -, -, -, hbacking⟩ := h.property_cls hocc' hd
    obtain ⟨content, hcontent, f, hf, -⟩ := hbacking x hb
    cases content with
    | field g => exact .inr ⟨g, hcontent⟩
    | _ => cases hf

/-- The parts of a property stand in the class of the property. -/
theorem parent_of_listed {q : DeclId} {c : PropertyDecl} (hocc : Occurs p root ds (.decl q))
    (hq : p.decls.get? q = some (.property c)) (hx : x ∈ (Declaration.property c).listed)
    (hk : c.parent = some k) (hcontent : p.decls.get? x = some content) :
    content.parent = some k := by
  obtain ⟨k', c', hk', -, haccessors, hbacking⟩ := h.property_cls hocc hq
  obtain rfl := Option.mem_unique hk hk'
  simp only [Declaration.listed, List.append_assoc, List.mem_append, Option.mem_toList] at hx
  rcases hx with hx | hx
  · obtain ⟨content', hcontent', f, hf, hparent⟩ := hbacking x hx
    cases hcontent.symm.trans hcontent'
    cases content with
    | field g =>
      cases hf
      exact hparent
    | _ => cases hf
  · obtain ⟨content', hcontent', f, hf, hparent, -⟩ := haccessors x (by simpa using hx)
    cases hcontent.symm.trans hcontent'
    cases content with
    | function g =>
      cases hf
      exact hparent
    | _ => cases hf

/-- Functions in a class are called on its receiver. -/
theorem dispatch_of_parent {f : FunctionDecl} (hocc : Occurs p root ds (.decl d))
    (hd : p.decls.get? d = some (.function f)) (hparent : f.parent = some k)
    (hk : p.decls.get? k = some (.cls c)) : f.dispatchReceiver = some c.this := by
  cases h.standing hocc with
  | placed hocc' he =>
    have hno := h.isMember_placed hocc' he
    rw [isMember_of_parent hd hparent hk] at hno
    cases hno
  | member hocc' hk' hm =>
    obtain ⟨content, hd', hmember⟩ := h.memberOf hocc' hk' hm
    cases hd.symm.trans hd'
    cases hparent.symm.trans hmember.1
    cases hk.symm.trans hk'
    exact hmember.2.1
  | accessor hocc' hq ha =>
    obtain ⟨k', c', -, hk', haccessors, -⟩ := h.property_cls hocc' hq
    obtain ⟨content, hd', g, hg, hparent', hdispatch, -⟩ := haccessors d ha
    cases hd.symm.trans hd'
    cases hg
    cases hparent.symm.trans hparent'
    cases hk.symm.trans hk'
    exact hdispatch

end WellShaped

variable {p : Program} {root : DeclId} {l : Locals}

/-- What is in the tables stands below the root. -/
theorem Collected.occurs (hl : p.Collected root l) (hd : d ∈ l.tables) :
    ∃ ds, Occurs p root ds (.decl d) := by
  simp only [Locals.tables, List.mem_append] at hd
  rcases hd with ((hd | hd) | hd) | hd
  · exact ((hl.functions d).1 hd).1.occurs
  · exact ((hl.classes d).1 hd).1.occurs
  · obtain ⟨k, -, hk, -⟩ := (hl.constructors d).1 hd
    obtain ⟨ds, hocc⟩ := hk.occurs
    exact ⟨_, hocc⟩
  · rcases (hl.members d).1 hd with ⟨k, -, hk, -⟩ | ⟨q, hq⟩
    · obtain ⟨ds, hocc⟩ := hk.occurs
      exact ⟨_, hocc⟩
    · exact hq.occurs

end Program

/-! ## §4. Why a replacement is refused below a well-shaped root. -/

/-- What lifting works from, for a well-shaped root. -/
structure Site.Ready (site : Site) (p₀ : Program) (dest : Option DeclId) : Prop where
  shaped : p₀.WellShaped site.root
  locals : p₀.locals site.root = .ok site.locals
  collected : p₀.Collected site.root site.locals
  dest : ∃ content, p₀.decls.get? site.root = some content ∧ content.parent = dest
  closures : ∀ {d}, p₀.Placed site.root d → ∃ c, site.closures.get? d = some c
  taken : ∀ {d v}, v ∈ site.taken d ↔ Captured p₀ site.root d v

namespace Site.Ready

variable {site : Site} {p₀ : Program} {dest : Option DeclId} (hsite : site.Ready p₀ dest)
include hsite

theorem destination_eq : site.destination p₀ = dest := by
  obtain ⟨content, hroot, hdest⟩ := hsite.dest
  rw [Site.destination, hroot, Option.bind_some, hdest]

theorem sound : site.Sound p₀ where
  closed := hsite.shaped.closed
  chains := hsite.shaped.chains
  root := hsite.dest.imp fun _ h => h.1
  sorted := (Program.locals_spec hsite.locals).1
  closures {d c} hc v hv := by
    have htaken : v ∈ site.taken d := by simpa [Site.taken, hc] using hv
    obtain ⟨value, hvalue⟩ := Captures.exists_of_captured hsite.shaped.closed (hsite.taken.1 htaken)
    exact Arena.lt_size_of_get? hvalue

theorem kept_of_brings (hd : site.Brings p₀ d) (hcontent : p₀.decls.get? d = some content) :
    p₀.Kept d content := by
  obtain ⟨t, ht, hd⟩ := hd
  obtain ⟨ds, hocc⟩ := hsite.collected.occurs ht
  rcases hsite.shaped.occurs_of_brought hocc hd with ⟨ds', hocc'⟩ | ⟨f, hf⟩
  · exact hsite.shaped.kept hocc' hcontent
  · cases hcontent.symm.trans hf
    trivial

/-- What is to get a replacement binds different values of its own, or a class stands in a class. -/
theorem binds_of_brings (hd : site.Brings p₀ d) (hcontent : p₀.decls.get? d = some content) :
    p₀.NestsClass site.root ∨ content.binds.Nodup
      ∧ ∀ v ∈ content.binds, ∃ kind, p₀.ValueIs v d kind ∧ ∀ isMutable, kind ≠ .var isMutable := by
  by_cases hdispatch : ∀ c, content = .constructor c → c.dispatchReceiver = none
  · exact .inr ((hsite.kept_of_brings hd hcontent).binds hdispatch)
  · push Not at hdispatch
    obtain ⟨c, rfl, hsome⟩ := hdispatch
    obtain ⟨t, ht, hd⟩ := hd
    obtain ⟨ds, hocc⟩ := hsite.collected.occurs ht
    rcases hsite.shaped.occurs_of_brought hocc hd with ⟨ds', hocc'⟩ | ⟨f, hf⟩
    · obtain ⟨k, -, ⟨ds'', hoccK⟩, ⟨cls, hk⟩, hnone⟩ := hsite.shaped.constructor_cls hocc' hcontent
      exact .inl
        (hsite.shaped.nestsClass_of_not_placed hoccK hk fun hplaced => hsome (hnone hplaced))
    · cases hcontent.symm.trans hf

/-- A member stands in a class. -/
theorem parent_of_houses (hd : site.Houses p₀ d k) (hcontent : p₀.decls.get? d = some content) :
    content.parent = some k := by
  obtain ⟨content', hcontent', hparent⟩ | ⟨x, q, hbelow, hx, hmem, hk⟩ := hd
  · cases hcontent.symm.trans hcontent'
    exact hparent
  · obtain ⟨ds, hocc⟩ := hbelow.occurs
    exact hsite.shaped.parent_of_listed hocc hx hmem hk hcontent

/-- What can be named on a class is to get a replacement. -/
theorem brings_of_declared (hlisted : k ∈ site.locals.classes.keys)
    (hk : p₀.decls.get? k = some (.cls c)) (hm : m ∈ c.scope.declared) : site.Brings p₀ m := by
  obtain ⟨hplaced, -⟩ := (hsite.collected.classes k).1 hlisted
  obtain ⟨ds, hocc⟩ := hplaced.occurs
  obtain ⟨-, -, hdeclared⟩ := hsite.shaped.kept hocc hk
  obtain ⟨hmem, content, hcontent, hnameable⟩ := hdeclared m hm
  have hbelow : p₀.MemberBelow site.root k m := ⟨ds, c, hocc, hk, hmem⟩
  refine ⟨m, List.mem_append_right _
    ((hsite.collected.members m).2 (.inl ⟨k, content, hbelow, hcontent, ?_⟩)),
    hsite.shaped.mem_brought hbelow⟩
  rintro c rfl
  cases hnameable

/-- **The one reason that is left**: a class in a class. -/
theorem nestsClass_of_refuses (h : site.Refuses p₀) : p₀.NestsClass site.root := by
  have hshaped := hsite.shaped
  have hl := hsite.collected
  cases h with
  | receiver hd hf hsome =>
    obtain ⟨⟨ds, e, hocc, he⟩, -⟩ := (hl.functions _).1 hd
    obtain ⟨content, hf', hplaced⟩ := hshaped.placedIn hocc he
    cases hf.symm.trans hf'
    rw [hplaced.2] at hsome
    cases hsome
  | @closure d hd hnone =>
    have hplaced : p₀.Placed site.root d :=
      (List.mem_append.1 hd).elim (fun hd => ((hl.functions d).1 hd).1) fun hd =>
        ((hl.classes d).1 hd).1
    obtain ⟨c, hc⟩ := hsite.closures hplaced
    cases hnone.symm.trans hc
  | shared hd he hne hold hold' hv hv' =>
    rcases hsite.binds_of_brings hd hold with hnests | ⟨-, hbinds⟩
    · exact hnests
    rcases hsite.binds_of_brings he hold' with hnests | ⟨-, hbinds'⟩
    · exact hnests
    obtain ⟨_, howns, -⟩ := hbinds _ hv
    obtain ⟨_, howns', -⟩ := hbinds' _ hv'
    exact absurd (howns.owner_eq howns') hne
  | repeated hd hold hnodup =>
    exact (hsite.binds_of_brings hd hold).elim id fun hbinds => absurd hbinds.1 hnodup
  | twice hd he hne hx hx' =>
    obtain ⟨ds, hocc⟩ := hl.occurs hd
    obtain ⟨ds', hocc'⟩ := hl.occurs he
    exact absurd (hshaped.brought_inj hocc hocc' hx hx') hne
  | doubled hd hnodup =>
    obtain ⟨ds, hocc⟩ := hl.occurs hd
    exact absurd (hshaped.brought_nodup hocc) hnodup
  | @stray d content hd hbrought hcontent hparent =>
    have hmember : (∃ k, p₀.MemberBelow site.root k d) ∨ ∃ q, p₀.AccessorBelow site.root q d := by
      rcases hd with hd | hd
      · obtain ⟨k, -, hk, -⟩ := (hl.constructors d).1 hd
        exact .inl ⟨k, hk⟩
      · exact ((hl.members d).1 hd).imp_left fun ⟨k, _, hk, _⟩ => ⟨k, hk⟩
    rcases hmember with ⟨k, ds, c, hocc, hk, hm⟩ | ⟨q, hq⟩
    · obtain ⟨content', hcontent', hmemberOf⟩ := hshaped.memberOf hocc hk hm
      cases hcontent.symm.trans hcontent'
      refine hshaped.nestsClass_of_not_placed hocc hk fun hplaced => hparent k hmemberOf.parent ?_
      exact (hl.classes k).2 ⟨hplaced, c, hk⟩
    · obtain ⟨f, hf, -⟩ := hshaped.accessor_kind hq
      obtain ⟨ds, hocc⟩ := hq.occurs
      rcases hshaped.brought_cases hocc hbrought
        with ⟨-, hnot⟩ | ⟨-, x, -, hx, -⟩ | ⟨-, x, -, hx, -⟩
      · exact absurd hq (hnot q)
      · cases hf.symm.trans hx
      · cases hf.symm.trans hx
  | foreign hd hf hhouses hk hc hne =>
    obtain ⟨t, ht, hd⟩ := hd
    obtain ⟨ds, hocc⟩ := hl.occurs ht
    rcases hshaped.occurs_of_brought hocc hd with ⟨ds', hocc'⟩ | ⟨g, hg⟩
    · exact absurd (hshaped.dispatch_of_parent hocc' hf (hsite.parent_of_houses hhouses hf) hc) hne
    · cases hf.symm.trans hg
  | accessor hd hq ha hcontent hno =>
    obtain ⟨ds, hocc⟩ := hl.occurs (List.mem_append_right _ hd)
    obtain ⟨f, hf, -⟩ := hshaped.accessor_kind ⟨ds, _, hocc, hq, ha⟩
    exact absurd (Option.mem_unique hcontent hf) (hno f)
  | @backing d b q content hd hq hb hcontent hno =>
    obtain ⟨ds, hocc⟩ := hl.occurs (List.mem_append_right _ hd)
    have hbrought : b ∈ p₀.brought d := by simp [Program.brought, hq, Option.mem_def.1 hb]
    rcases hshaped.occurs_of_brought hocc hbrought with ⟨ds', hocc'⟩ | ⟨f, hf⟩
    · exact (hshaped.not_decl_backing hocc' (Program.WellShaped.occurs_backing hocc hq hb)).elim
    · exact absurd (Option.mem_unique hcontent hf) (hno f)
  | nested hd hc =>
    rcases (hl.members _).1 hd with ⟨k, -, hk, -⟩ | ⟨q, hq⟩
    · exact ⟨k, _, _, hk, hc⟩
    · obtain ⟨f, hf, -⟩ := hshaped.accessor_kind hq
      cases hc.symm.trans hf
  | unlisted hd hc hm hnot => exact absurd (hsite.brings_of_declared hd hc hm) hnot

end Site.Ready

/-! ## §5. Every declaration has its replacement. -/

/-- Between two declarations: what has been dealt with is what has a replacement. -/
def Settled (p₀ : Program) (dest : Option DeclId) (r : Relocation) (p : Program) : Prop :=
  Lifting p₀ dest (fun d => (r.get? d).isSome) p.decls.size r p

/-- Every declaration below the root has its replacement, and no variable a counterpart. -/
structure Relocated (p₀ : Program) (site : Site) (dest : Option DeclId) (r : Relocation)
    (p : Program) : Prop where
  settled : Settled p₀ dest r p
  domain : ∀ x, (r.get? x).isSome ↔ ∃ d ∈ site.locals.tables, x ∈ p₀.brought d
  moved : ∀ {x}, (r.get? x).isSome → Moved p₀ site dest r p x
  vars : ∀ {v}, p₀.IsVariable v → r.values.forth? v = none
  noNested : ¬ p₀.NestsClass site.root
  raised : Raised p₀ site r p
  founded : Founded p₀ (site.destination p₀) p.decls.size r p

section

variable {p₀ p : Program} {site : Site} {dest : Option DeclId} {r : Relocation} {new : DeclId}

theorem Program.Twin.owns {x : ValueId} (h : p.Twin new kind v x) : p.Owns new x := by
  obtain ⟨value, -, hx⟩ := h
  exact ⟨_, hx, rfl⟩

theorem Links.copies {x : ValueId} (h : Links r p new kind v x) : Copies r p new v x :=
  ⟨h.1, h.2.owns⟩

theorem KeepsField.captured {field : DeclId} (h : KeepsField settings p new v field) :
    CapturedField p new v field := by
  obtain ⟨value, -, hfield⟩ := h
  exact ⟨_, _, hfield⟩

/-- Positions do not matter for what follows. -/
theorem forall₂_of_zipIdx {α β : Type} {R : α × Nat → β → Prop} {S : α → β → Prop} {as : List α}
    {bs : List β} {n : Nat} (h : List.Forall₂ R (as.zipIdx n) bs) (hRS : ∀ a b, R a b → S a.1 b) :
    List.Forall₂ S as bs := by
  rw [← List.zipIdx_map_fst n as]
  exact List.forall₂_map_left_iff.2 (h.imp hRS)

theorem Site.taken_eq {closure : Closure} (h : site.closures.get? d = some closure) :
    site.taken d = closure.toList := by
  rw [Site.taken, h]
  rfl

end

namespace Ledger

variable {p₀ p : Program} {site : Site} {dest : Option DeclId} {r : Relocation}
  (h : Ledger p₀ site none r p)
include h

theorem passes {taken old params : List ValueId}
    (hsigns : Signs settings r p d new taken old params) : Passes r p d new taken old params := by
  obtain ⟨caps, copies, hparams, hcaps, hcopies, hcontext⟩ := hsigns
  refine ⟨caps, copies, hparams, forall₂_of_zipIdx hcaps ?_,
    forall₂_of_zipIdx hcopies fun _ _ h => h.copies, hcontext⟩
  rintro ⟨v, i⟩ x ⟨hcarried, value, -, hx⟩
  exact ⟨hcarried, (h.carried hcarried).2.2.1, _, hx, rfl⟩

variable (hsite : site.Ready p₀ dest)
include hsite

/-- What has a replacement is a declaration below the root, or a backing field. -/
theorem occurs (hx : r.get? d = some x) :
    (∃ ds, Occurs p₀ site.root ds (.decl d)) ∨ ∃ f, p₀.decls.get? d = some (.field f) := by
  obtain ⟨t, ht, hd⟩ := h.brings (by rw [hx]; rfl)
  obtain ⟨ds, hocc⟩ := hsite.collected.occurs ht
  exact hsite.shaped.occurs_of_brought hocc hd

/-- A replacement is an accessor of the replacement of the property that the function is an accessor
of. -/
theorem accessorOf {d : DeclId} {f : FunctionDecl} {accessorOf : Option DeclId}
    (hd : p₀.decls.get? d = some (.function f)) (haccesses : Accesses p₀ r d f accessorOf) :
    Option.Rel (fun q q' => r.get? q = some q') f.accessorOf accessorOf := by
  rcases haccesses with ⟨hnone, rfl⟩ | ⟨q, x, y, hq, hmem, hy, rfl⟩
  · rw [hnone]
    exact .none
  · obtain ⟨ds, hocc⟩ | ⟨g, hg⟩ := h.occurs hsite hy
    · obtain ⟨g, hg, haccessor⟩ := hsite.shaped.accessor_kind ⟨ds, x, hocc, hq, hmem⟩
      cases hd.symm.trans hg
      rw [haccessor]
      exact .some hy
    · cases hq.symm.trans hg

/-- **The form of a replacement** below a well-shaped root. -/
theorem replaces {old : Declaration} (hnew : r.get? d = some new)
    (hold : p₀.decls.get? d = some old) (hrenews : Renews p₀ site r p d new old content) :
    Replaces p₀ site dest r p d new old content := by
  have hplaced : ∀ {k}, k ∈ site.locals.classes.keys → p₀.Placed site.root k := fun hk =>
    ((hsite.collected.classes _).1 hk).1
  have hparts : ∀ {kind old? new?}, RenewsPart p₀ r kind old? new? →
      Option.Rel (fun a a' => r.get? a = some a') old? new? :=
    fun hpart => optionRel_mono hpart fun _ _ h => h.1
  cases hrenews with
  | function hlisted hclosure _ hdispatch hext hsigns =>
    rw [hsite.destination_eq]
    exact .function ((hsite.collected.functions d).1 hlisted).1 hdispatch
      (optionRel_mono hext fun _ _ h => h.copies)
      (Site.taken_eq hclosure ▸ h.passes hsigns)
  | cls hlisted hclosure _ hforth howned hfields hnodup _ hcontext =>
    obtain ⟨value, hvalue, howner, -⟩ := howned
    rw [hsite.destination_eq]
    rw [← Site.taken_eq hclosure] at hfields hcontext
    exact .cls (hplaced hlisted) ⟨hforth, value, hvalue, howner⟩
      (hfields.imp fun _ _ h => h.captured) hnodup hcontext
  | @constructor c k newK closure dispatchReceiver params hk hlisted hnewK
    hclosure hdispatch hsigns =>
    obtain ⟨ds, hocc⟩ | ⟨f, hf⟩ := h.occurs hsite hnew
    · obtain ⟨k', hk', -, -, hnone⟩ := hsite.shaped.constructor_cls hocc hold
      cases hk.symm.trans hk'
      have hnone := hnone (hplaced hlisted)
      have hdispatch' : dispatchReceiver = c.dispatchReceiver := by
        rw [hnone] at hdispatch ⊢
        cases hdispatch
        rfl
      rw [hdispatch']
      exact .constructor hk (hplaced hlisted) hnewK hnone (Site.taken_eq hclosure ▸ h.passes hsigns)
    · cases hold.symm.trans hf
  | method _ hlodges hdispatch hext hparams haccesses =>
    obtain ⟨value, hvalue, howner, -⟩ := hlodges.owned
    exact .method (hsite.parent_of_houses hlodges.houses hold)
      (hplaced hlodges.listed) hlodges.old hdispatch hlodges.new
      ⟨hlodges.forth, value, hvalue, howner⟩ (optionRel_mono hext fun _ _ h => h.copies)
      (forall₂_of_zipIdx hparams fun _ _ h => h.copies) (h.accessorOf hsite hold haccesses)
  | property hlodges hbacking hgetter hsetter =>
    exact .property (hsite.parent_of_houses hlodges.houses hold)
      (hplaced hlodges.listed) hlodges.new (hparts hbacking)
      (hparts hgetter) (hparts hsetter)
  | field hlodges =>
    exact .field (hsite.parent_of_houses hlodges.houses hold) (hplaced hlodges.listed) hlodges.new

/-- A class in a class would have got no replacement. -/
theorem noNested (hcovers : r.Covers p₀ site.locals.tables) : ¬ p₀.NestsClass site.root := by
  rintro ⟨k, m, c, hmember, hm⟩
  have htable : m ∈ site.locals.tables :=
    List.mem_append_right _ ((hsite.collected.members m).2 (.inl ⟨k, _, hmember, hm, by simp⟩))
  obtain ⟨x, hx⟩ :=
    Option.isSome_iff_exists.1 ((hcovers m).2 ⟨m, htable, hsite.shaped.mem_brought hmember⟩)
  obtain ⟨content, -, hrenews⟩ := h.renews hx hm
  generalize content.erase = content' at hrenews
  cases hrenews with
  | cls hlisted =>
    obtain ⟨⟨ds, e, hocc, he⟩, -⟩ := (hsite.collected.classes m).1 hlisted
    obtain ⟨ds', c', hocc', hk, hmem⟩ := hmember
    have hno := hsite.shaped.isMember_placed hocc he
    rw [hsite.shaped.isMember_member hocc' hk hmem] at hno
    cases hno

theorem relocated (hcovers : r.Covers p₀ site.locals.tables) : Relocated p₀ site dest r p := by
  have hnested := h.noNested hsite hcovers
  -- a value with a counterpart belongs to a declaration with a replacement
  have horigin : ∀ {v x}, r.values.forth? v = some x →
      ∃ d kind, (r.get? d).isSome ∧ p₀.ValueIs v d kind
      ∧ ∀ isMutable, kind ≠ .var isMutable := by
    intro v x hx
    obtain ⟨d, old, hd, hold, hv⟩ := h.origins hx
    obtain ⟨-, hbinds⟩ := (hsite.binds_of_brings (h.brings hd) hold).resolve_left hnested
    obtain ⟨kind, hkind⟩ := hbinds v hv
    exact ⟨d, kind, hd, hkind⟩
  refine ⟨?_, hcovers, fun {d} hd => ?_, fun {v} hv => ?_, hnested,
    h.raised hsite.sound.sorted, h.founded hsite.sound⟩
  · unfold Settled
    rw [← hsite.destination_eq]
    refine h.lifting hsite.sound id fun {v x} hx => ?_
    obtain ⟨d, kind, hd, ⟨value, hvalue, rfl, -⟩, -⟩ := horigin hx
    exact ⟨value, hvalue, hd⟩
  · obtain ⟨new, hnew⟩ := Option.isSome_iff_exists.1 hd
    obtain ⟨old, hold, -⟩ := h.reaches hnew
    obtain ⟨content, hcontent, hrenews⟩ := h.renews hnew hold
    exact ⟨old, new, content, hold, hnew, hcontent, h.replaces hsite hnew hold hrenews⟩
  · cases hx : r.values.forth? v with
    | none => rfl
    | some x =>
      obtain ⟨d, kind, -, hkind, hne⟩ := horigin hx
      exact absurd rfl (hv.ne hkind hne)

end Ledger

/-- **Signatures for a whole root.**  Building them gives every declaration its replacement, or
fails because a class stands in a class. -/
theorem Lift.relocation_ends {w : Work} {err : Fault → Prop}
    (herr : ∀ f : Fault, f.isReport = true → p₀.NestsClass site.root → err f)
    (hsite : site.Ready p₀ dest) (hw : w.program = p₀) :
    (relocation site).Ends w (fun r w' => Relocated p₀ site dest r w'.program) err := by
  subst hw
  obtain ⟨hsorted, hcollects⟩ := Program.locals_spec hsite.locals
  refine ((relocation_yields hsorted hcollects).mono fun r w' h => h.1.relocated hsite h.2).weaken
    fun f w' h => ?_
  obtain ⟨hreport, hrefuses⟩ := h.2 hsite.sound
  exact herr f hreport (hsite.nestsClass_of_refuses hrefuses)

end LambdaLift
