/-
  LambdaLift.Proofs.Ledger
  **HOW ALL SIGNATURES ARE BUILT, AND WHY SOME CANNOT BE.**

  Nothing is assumed of the program but that its tables are those of the
  root.  Values that signatures add are new, so a counterpart is recorded
  only for a value that has none yet: parameters that are shared, listed
  twice or used as a receiver as well make the step fail.  What was
  recorded stays, each replacement has the form that `Renews` says, and in
  the end exactly what the tables bring along has replacements.  A fault
  leaves everything that was there as it was, and if the program is closed,
  it is a report that `Refuses` gives a reason for.

  Main results:
    * `Lift.callable_yields`, `Lift.liftClass_yields`,
      `Lift.liftMethod_yields`, `Lift.liftProperty_yields` — one declaration;
    * `Lift.setMemberScope_yields` — the member scope of one class;
    * `Lift.relocation_yields` — the signatures of a whole root.
-/
import Mathlib
import LambdaLift.Proofs.Leaves
import LambdaLift.Proofs.Renewal

namespace LambdaLift

variable {p p₀ : Program} {cls d k new root : DeclId} {ds : List DeclId} {this v x : ValueId}
  {c : ClassDecl} {content content' rootDecl : Declaration} {events : List Event}
  {vs : List ValueId} {l : Locals} {r : Relocation}
  {site : Site} {kind : ValueKind}

/-! ## §1. Values of a new declaration. -/

/-- Values were added since some moment and counterparts were recorded for `vs`.  Declarations,
replacements and contexts are as they were. -/
structure Naming (p₀ : Program) (site : Site) (n : Nat) (r : Relocation) (p : Program)
    (vs : List ValueId) (r' : Relocation) (p' : Program) : Prop where
  books : Books p₀ site n r' p'
  grows : Grows r p r' p'
  linked : ∀ {u y}, r'.values.forth? u = some y → r.values.forth? u = some y ∨ u ∈ vs
  decls : p'.decls = p.decls
  moved : r'.decls = r.decls
  contexts : r'.contexts = r.contexts

/-- A new value that is nobody's counterpart and carries nothing. -/
structure Spare (p₀ : Program) (r : Relocation) (p : Program) (x : ValueId) : Prop where
  low : p₀.values.size ≤ x.index
  lt : x.index < p.values.size
  back : r.values.back? x = none
  carried : r.carried.get? x = none

theorem Spare.of_values {p' : Program} (h : Spare p₀ r p x)
    (hle : p.values.size ≤ p'.values.size) : Spare p₀ r p' x :=
  { h with lt := h.lt.trans_le hle }

namespace Naming

variable {p₀ q p : Program} {site : Site} {n : Nat} {r₀ r : Relocation} {vs : List ValueId}

theorem refl (h : Books p₀ site n r p) : Naming p₀ site n r p [] r p :=
  ⟨h, .refl r p, .inl, rfl, rfl, rfl⟩

theorem get? (h : Naming p₀ site n r₀ q vs r p) (d : DeclId) : r.get? d = r₀.get? d := by
  unfold Relocation.get?
  rw [h.moved]

/-- Values that clash now clash with those that got counterparts since, or did so before. -/
theorem clashes (h : Naming p₀ site n r₀ q vs r p) {us : List ValueId} (hclash : r.Clashes us) :
    r₀.Clashes (vs ++ us) := by
  rcases hclash with ⟨u, hu, y, hy⟩ | hnodup
  · rcases h.linked hy with hy | hmem
    · exact .inl ⟨u, List.mem_append_right _ hu, y, hy⟩
    · exact .inr fun hnodup => (List.nodup_append.1 hnodup).2.2 u hmem u hu rfl
  · exact .inr fun hnodup' => hnodup (List.nodup_append.1 hnodup').2.1

theorem addValue (h : Naming p₀ site n r₀ q vs r p) (value : Value) (howner : value.owner.index < n)
    (hty : p₀.Typed n value.ty) : Naming p₀ site n r₀ q vs r (p.allocValue value).2 :=
  { h with
    books := h.books.addValue howner hty
    grows := h.grows.addValue value }

theorem pair (h : Naming p₀ site n r₀ q vs r p) (hv : r.values.forth? v = none)
    (hx : Spare p₀ r p x) : Naming p₀ site n r₀ q (vs ++ [v]) (r.pair v x) p :=
  { h with
    books := h.books.pair hv hx.back hx.carried hx.low hx.lt
    grows := h.grows.pair v x
    linked := fun {u y} hu => by
      rcases OrderedMap.of_get?_insert hu with hu | ⟨rfl, -⟩
      · exact (h.linked hu).imp_right fun hmem => List.mem_append_left _ hmem
      · exact .inr (by simp) }

end Naming

/-- A value that was just added is spare. -/
theorem Books.spare_next {n : Nat} (h : Books p₀ site n r p) (value : Value) :
    Spare p₀ r (p.allocValue value).2 p.values.next where
  low := h.grown.values.size_le
  lt := by simp [Program.size_allocValue]
  back := h.back_next (Nat.le_refl _)
  carried := h.carried_next (Nat.le_refl _)

namespace Lift

variable {p₀ q : Program} {site : Site} {n : Nat} {r₀ r : Relocation} {w : Work}
  {new : DeclId} {vs : List ValueId}

theorem blames_owner (h : Books p₀ site n r w.program)
    (hv : site.Sound p₀ → v.index < p₀.values.size) :
    ∀ f, w.program.owner v = .error f → site.Blames p₀ f w := by
  intro f hf
  unfold Program.owner at hf
  cases hvalue : w.program.value v with
  | error g =>
    rw [hvalue] at hf
    cases hf
    exact h.blames_value hv _ hvalue
  | ok value =>
    rw [hvalue] at hf
    cases hf

/-- **A counterpart is recorded**, if the value has none. -/
theorem remap_yields (h : Naming p₀ site n r₀ q vs r w.program) (hx : Spare p₀ r w.program x)
    (hv : site.Sound p₀ → v.index < p₀.values.size)
    (hclash : r₀.Clashes (vs ++ [v]) → site.Refuses p₀) {ok : Unit → Relocation → Work → Prop}
    (hok : Naming p₀ site n r₀ q (vs ++ [v]) (r.pair v x) w.program →
      (r.pair v x).values.forth? v = some x → ok () (r.pair v x) w) :
      Yields (remap v x) r w ok (site.Blames p₀) := by
  refine .bind (.lift (.program (.bind (.ask (fun owner _ => .read ?_) (blames_owner h.books hv)))))
  cases hinsert : Bijection.insert v x r.values with
  | error conflict _ =>
    refine .throw (h.books.blames rfl (hclash (h.clashes ?_)))
    cases hforth : r.values.forth? v with
    | some y => exact .inl ⟨v, List.mem_singleton_self v, y, hforth⟩
    | none => cases hinsert.symm.trans (Bijection.insert_new hforth hx.back)
  | ok _ values =>
    obtain ⟨-, hforth⟩ | ⟨rfl, hforth, -⟩ := Bijection.insert_cases h.books.inverse hinsert
    · cases hx.back.symm.trans (h.books.inverse.1 hforth)
    · exact hok (h.pair hforth hx) (Relocation.forth_pair hforth)

/-- **A parameter for each captured value.** -/
theorem capturedParams_yields (h : Books p₀ site n r w.program) {closure : Closure}
    (hclosure : site.closures.get? d = some closure) (hnew : new.index < n) :
    Yields (capturedParams site new closure) r w
      (fun caps r' w' => Naming p₀ site n r w.program [] r' w'.program
        ∧ List.Forall₂ (fun a => CarriesAt site.settings r' w'.program new a.2 a.1)
          closure.toList.zipIdx caps)
      (site.Blames p₀) := by
  refine Yields.mapM
    (fun (seen : List (ValueId × Nat)) caps r' w' => Naming p₀ site n r w.program [] r' w'.program
      ∧ List.Forall₂ (fun a => CarriesAt site.settings r' w'.program new a.2 a.1)
        seen caps) ?_ ⟨.refl h, .nil⟩
  rintro seen ⟨v, i⟩ rest caps r' w' hsplit ⟨h', hcaps⟩
  have hv : v ∈ closure.toList := List.fst_mem_of_mem_zipIdx (x := (v, i)) (by rw [hsplit]; simp)
  refine .bind (.lift (.value (fun value hvalue => .bind (.lift (.addValue (.bind ?_))))
    (h'.books.blames_value fun hsound => hsound.closures hclosure v hv)))
  have hty := h'.books.types hvalue
  have h'' := h'.addValue { name := carrierName site.settings value.name, ty := value.ty,
                            owner := new, kind := .param i }
    hnew hty
  have hspare := h'.books.spare_next
    { name := carrierName site.settings value.name, ty := value.ty, owner := new, kind := .param i }
  refine ⟨{ h'' with
    books := h''.books.carry hspare.low hspare.lt hspare.back hclosure hv
    grows := h''.grows.carry _ v }, List.rel_append ?_ (.cons ?_ .nil)⟩
  · exact hcaps.imp fun _ _ hc => hc.mono (((Grows.refl _ _).addValue _).carry _ v).toRecords
  · refine ⟨OrderedMap.get?_insert_self hspare.carried, value, ?_, Arena.get?_alloc_next _ _⟩
    exact Arena.get?_alloc_of_some _ hvalue

theorem copyValue_yields (h : Naming p₀ site n r₀ q vs r w.program) (hnew : new.index < n)
    (hv : site.Sound p₀ → v.index < p₀.values.size) (kind : ValueKind) :
    (copyValue v new kind).Yields w (fun x w' => Naming p₀ site n r₀ q vs r w'.program
      ∧ w.program.values.Keeps w'.program.values ∧ w.program.values.size ≤ x.index
      ∧ Spare p₀ r w'.program x
      ∧ w'.program.Twin new kind v x) (site.Blames p₀) := by
  refine .bind (.value (fun value hvalue => .addValue ?_) (h.books.blames_value hv))
  have hty := h.books.types hvalue
  refine ⟨h.addValue _ hnew hty, Arena.keeps_alloc _ _, Nat.le_refl _, h.books.spare_next _, value,
    ?_, Arena.get?_alloc_next _ _⟩
  exact Arena.get?_alloc_of_some _ hvalue

/-- **A counterpart for each old parameter.** -/
theorem copiedParams_yields (h : Naming p₀ site n r₀ q [] r w.program) (hnew : new.index < n)
    {old : List ValueId} (hold : site.Sound p₀ → ∀ v ∈ old, v.index < p₀.values.size)
    (hclash : r₀.Clashes old → site.Refuses p₀) (start : Nat) :
    Yields (copiedParams new old start) r w
      (fun copies r' w' => Naming p₀ site n r₀ q old r' w'.program
        ∧ Records r w.program r' w'.program
        ∧ List.Forall₂ (fun a => Links r' w'.program new (.param a.2) a.1)
          (old.zipIdx start) copies)
      (site.Blames p₀) := by
  have hloop : Yields (copiedParams new old start) r w (fun copies r' w' =>
      Naming p₀ site n r₀ q ((old.zipIdx start).map (·.1)) r' w'.program
        ∧ Records r w.program r' w'.program
        ∧ List.Forall₂ (fun a => Links r' w'.program new (.param a.2) a.1)
          (old.zipIdx start) copies)
      (site.Blames p₀) := by
    refine Yields.mapM (fun (seen : List (ValueId × Nat)) copies r' w' =>
      Naming p₀ site n r₀ q (seen.map (·.1)) r' w'.program ∧ Records r w.program r' w'.program
      ∧ List.Forall₂ (fun a => Links r' w'.program new (.param a.2) a.1) seen copies) ?_
        ⟨h, .refl _ _, .nil⟩
    rintro seen ⟨v, i⟩ rest copies r' w' hsplit ⟨h', hrecords, hcopies⟩
    have hparts : seen.map (·.1) ++ v :: rest.map (·.1) = old := by
      rw [← List.zipIdx_map_fst start old, hsplit, List.map_append, List.map_cons]
    have hv : v ∈ old := by rw [← hparts]; simp
    refine .bind
      (.lift ((copyValue_yields h' hnew (fun hsound => hold hsound v hv) (.param i)).mono ?_))
    rintro x w'' ⟨h'', hkeeps, -, hspare, htwin⟩
    have hsub : (seen.map (·.1) ++ [v]).Sublist old := by
      rw [← hparts]
      exact (List.Sublist.refl _).append (List.singleton_sublist.2 List.mem_cons_self)
    refine .bind
      (remap_yields h'' hspare (fun hsound => hold hsound v hv) (fun hc => hclash (hc.mono hsub))
      fun hnaming hforth => .pure ?_)
    have hrecords' : Records r' w'.program (r'.pair v x) w''.program :=
      { ((Grows.refl r' w'.program).pair v x).toRecords with
        fields := fun hd => by rw [h''.decls, ← h'.decls]; exact hd
        values := hkeeps }
    refine ⟨by rw [List.map_append]; exact hnaming, hrecords.trans hrecords',
      List.rel_append (hcopies.imp fun _ _ hc => hc.mono hrecords') (.cons ⟨hforth, htwin⟩ .nil)⟩
  rwa [List.zipIdx_map_fst] at hloop

/-- **The parameters of a lifted callable.** -/
theorem liftedParams_yields (h : Books p₀ site n r w.program) {closure : Closure}
    (hclosure : site.closures.get? d = some closure) (hnew : new.index < n) {old : List ValueId}
    (hold : site.Sound p₀ → ∀ v ∈ old, v.index < p₀.values.size)
    (hclash : r.Clashes old → site.Refuses p₀) :
    Yields (liftedParams site new closure old) r w
      (fun a r' w' => Naming p₀ site n r w.program old r' w'.program
        ∧ ∃ caps copies, a.1 = caps ++ copies
        ∧ List.Forall₂ (fun b => CarriesAt site.settings r' w'.program new b.2 b.1)
          closure.toList.zipIdx caps
        ∧ List.Forall₂ (fun b => Links r' w'.program new (.param b.2) b.1)
          (old.zipIdx closure.toList.length) copies
        ∧ a.2 = .params (.ofList (closure.toList.zip caps))) (site.Blames p₀) := by
  refine .bind ((capturedParams_yields h hclosure hnew).mono ?_)
  rintro caps r₁ w₁ ⟨h₁, hcaps⟩
  refine .bind ((copiedParams_yields h₁ hnew hold hclash closure.size).mono ?_)
  rintro copies r₂ w₂ ⟨h₂, hrecords, hcopies⟩
  exact .pure ⟨h₂, caps, copies, rfl, hcaps.imp fun _ _ hc => hc.mono hrecords, hcopies, rfl⟩

/-- A receiver that is copied. -/
theorem copyReceiver_yields (h : Naming p₀ site n r₀ q vs r w.program) (hnew : new.index < n)
    {v? : Option ValueId} (hv : site.Sound p₀ → ∀ v ∈ v?.toList, v.index < p₀.values.size)
    (kind : ValueKind) :
    (copyReceiver v? new kind).Yields w (fun x? w' => Naming p₀ site n r₀ q vs r w'.program
      ∧ w.program.values.Keeps w'.program.values
      ∧ (∀ x ∈ x?, w.program.values.size ≤ x.index)
      ∧ Option.Rel (fun v x => Spare p₀ r w'.program x ∧ w'.program.Twin new kind v x) v? x?)
        (site.Blames p₀) := by
  refine .optionMapM (fun hnone => ?_) fun v hsome => ?_
  · subst hnone
    exact ⟨h, .refl _, by rintro x ⟨⟩, .none⟩
  · subst hsome
    refine (copyValue_yields h hnew (fun hsound => hv hsound v (by simp)) kind).mono ?_
    rintro x w' ⟨h', hkeeps, hle, hspare, htwin⟩
    exact ⟨h', hkeeps, by rintro x ⟨⟩; exact hle, .some ⟨hspare, htwin⟩⟩

/-- **The counterpart of a receiver is recorded.** -/
theorem remapReceiver_yields (h : Naming p₀ site n r₀ q vs r w.program) {v? x? : Option ValueId}
    (hx : Option.Rel (fun v x => Spare p₀ r w.program x ∧ w.program.Twin new kind v x) v? x?)
    (hv : site.Sound p₀ → ∀ v ∈ v?.toList, v.index < p₀.values.size)
    (hclash : r₀.Clashes (vs ++ v?.toList) → site.Refuses p₀) :
    Yields (remapReceiver v? x?) r w
      (fun _ r' w' => w' = w ∧ Naming p₀ site n r₀ q (vs ++ v?.toList) r' w.program
        ∧ Records r w.program r' w.program
        ∧ Option.Rel (Links r' w.program new kind) v? x?) (site.Blames p₀) := by
  cases hx with
  | none => exact .pure ⟨rfl, by simpa using h, .refl _ _, .none⟩
  | @some v x hx =>
    refine remap_yields h hx.1 (fun hsound => hv hsound v (by simp)) hclash fun hnaming hforth => ?_
    exact ⟨rfl, hnaming, ((Grows.refl _ _).pair v x).toRecords, .some ⟨hforth, hx.2⟩⟩

end Lift

/-! ## §2. Entering a declaration. -/

/-- The declarations got replacements, and nothing else did. -/
structure Enters (p₀ : Program) (site : Site) (pending : Option DeclId) (ds : List DeclId)
    (r : Relocation) (p : Program) (r' : Relocation) (p' : Program) : Prop where
  ledger : Ledger p₀ site pending r' p'
  grows : Grows r p r' p'
  domain : ∀ e, (r'.get? e).isSome ↔ (r.get? e).isSome ∨ e ∈ ds

/-- A declaration is to be entered: it is reached and brought along, and if it has been entered
before, there is a reason to refuse. -/
structure Due (p₀ : Program) (site : Site) (r : Relocation) (d : DeclId)
    (old : Declaration) : Prop where
  reaches : site.Reaches p₀ d old
  brings : site.Brings p₀ d
  free : (r.get? d).isSome → site.Refuses p₀

theorem Declaration.mem_namedValues_of_binds (hv : v ∈ content.binds) :
    v ∈ content.namedValues := by
  cases content <;>
    simp only [binds, namedValues, dispatchReceiver, extensionReceiver, params,
    cls?, List.mem_append,
      List.mem_singleton, List.not_mem_nil, Option.map_some, Option.toList_some] at hv ⊢ <;> tauto

section

variable {p₀ p p' : Program} {site : Site} {pending pending' : Option DeclId} {r r' : Relocation}
  {d : DeclId} {old : Declaration}

theorem Enters.refl (h : Ledger p₀ site pending r p) : Enters p₀ site pending [] r p r p :=
  ⟨h, .refl r p, fun e => by simp⟩

theorem Enters.trans {p'' : Program} {r'' : Relocation} {ds' : List DeclId}
    (h : Enters p₀ site pending ds r p r' p') (h' : Enters p₀ site pending' ds' r' p' r'' p'') :
    Enters p₀ site pending' (ds ++ ds') r p r'' p'' where
  ledger := h'.ledger
  grows := h.grows.trans h'.grows
  domain e := by rw [h'.domain, h.domain, List.mem_append, or_assoc]

theorem Due.binds_lt (h : Due p₀ site r d old) (hsound : site.Sound p₀) :
    ∀ v ∈ old.binds, v.index < p₀.values.size :=
  fun v hv => (hsound.names h.reaches.1 (.refl p₀)).values v
    (Declaration.mem_namedValues_of_binds hv)

theorem Due.refuses (h : Due p₀ site r d old) (hledger : Ledger p₀ site pending r p)
    (hsub : vs.Sublist old.binds) (hclash : r.Clashes vs) : site.Refuses p₀ :=
  hledger.refuses_of_clashes h.brings h.reaches.1 h.free (hclash.mono hsub)

/-- **The ledger with one more replacement**, which may still lack its form. -/
theorem Ledger.enter (h : Ledger p₀ site pending r p) (hdue : Due p₀ site r d old)
    (hbooks : Books p₀ site p'.decls.size r' p') (hgrows : Grows r p r' p')
    (hlinked : ∀ {u y}, r'.values.forth? u = some y → r.values.forth? u = some y ∨ u ∈ old.binds)
    (hget : ∀ e, r'.get? e = if e = d then some new else r.get? e)
    (hpending : ∀ e ∈ pending, e ∈ pending') (hrenewed : d ∉ pending' → Renewed p₀ site r' p' d) :
    Enters p₀ site pending' [d] r p r' p' := by
  have hself : r'.get? d = some new := by rw [hget, if_pos rfl]
  have hdomain : ∀ e, (r'.get? e).isSome ↔ (r.get? e).isSome ∨ e ∈ [d] := by
    intro e
    rw [hget, List.mem_singleton]
    by_cases hed : e = d <;> simp [hed]
  refine ⟨⟨hbooks, fun {e x} he hne => ?_, fun {e} he => ?_, fun {v x} hv => ?_⟩, hgrows, hdomain⟩
  · by_cases hed : e = d
    · exact hed ▸ hrenewed (hed ▸ hne)
    · rw [hget, if_neg hed] at he
      exact (h.renewed he fun hmem => hne (hpending e hmem)).mono hgrows
  · rcases (hdomain e).1 he with he | he
    · exact h.brings he
    · exact List.mem_singleton.1 he ▸ hdue.brings
  · rcases hlinked hv with hv | hv
    · obtain ⟨e, old', he, hold', hmem⟩ := h.origins hv
      exact ⟨e, old', (hdomain e).2 (.inl he), hold', hmem⟩
    · exact ⟨d, old, by rw [hself]; rfl, hdue.reaches.1, hv⟩

end

namespace Lift

variable {p₀ : Program} {site : Site} {n : Nat} {pending : Option DeclId} {r : Relocation}
  {w : Work} {d : DeclId} {old : Declaration}

/-- **A replacement is added and recorded**, if there is none. -/
theorem addReplacement_yields {β : Type} (h : Books p₀ site n r w.program)
    (hexposed : content.exposed = []) (hfree : (r.get? d).isSome → site.Refuses p₀)
    {k : DeclId → Lift β} {ok : β → Relocation → Work → Prop} (hk : r.get? d = none →
      Books p₀ site n { r with decls := r.decls.insert d w.program.decls.next }
        (w.program.allocDecl content).2 →
      Yields (k w.program.decls.next) { r with decls := r.decls.insert d w.program.decls.next }
        { w with program := (w.program.allocDecl content).2 } ok (site.Blames p₀)) :
    Yields ((liftM (Step.addDecl content) : Lift DeclId) >>= fun x => relocate d x >>= fun _ => k x)
      r w ok (site.Blames p₀) := by
  refine .bind (.lift (.addDecl (.bind (.read ?_))))
  cases hd : r.get? d with
  | none =>
    have hinsert : r.decls.insertNew d w.program.decls.next
        = .ok (r.decls.insert d w.program.decls.next) := by
      unfold OrderedMap.insertNew
      rw [show r.decls.get? d = none from hd]
    rw [hinsert]
    exact hk hd (h.addReplacement hd hexposed)
  | some y =>
    have hne : y ≠ w.program.decls.next := by
      rintro rfl
      exact h.fresh_next d hd
    have hinsert : r.decls.insertNew d w.program.decls.next = .error y := by
      unfold OrderedMap.insertNew
      rw [show r.decls.get? d = some y from hd]
      simp only [hne, ↓reduceIte]
    rw [hinsert]
    exact .throw ⟨h.grown.allocDecl content, fun _ => ⟨rfl, hfree (by rw [hd]; rfl)⟩⟩

/-- **A callable is entered**: its values are made, it is added, and all is recorded. -/
theorem callable_yields {closure : Closure} {params : List ValueId} {receiver : Option ValueId}
    (make : List ValueId → Option ValueId → Declaration) (h : Ledger p₀ site none r w.program)
    (hdue : Due p₀ site r d old) (hbinds : old.binds = params ++ receiver.toList)
    (hclosure : site.closures.get? k = some closure)
    (hkind : d ∈ site.locals.lifted ∨ d ∈ site.locals.constructors) (hexposed : ∀ ps x?,
      (make ps x?).exposed = []) (hrenews : ∀ {r' p' new ps x?}, Records r w.program r' p' →
      Signs site.settings r' p' d new closure.toList params ps →
      Option.Rel (Links r' p' new kind) receiver x? →
      Renews p₀ site r' p' d new old (make ps x?).erase) :
    Yields (do
        let (ps, context) ← liftedParams site w.program.decls.next closure params
        let x? ← copyReceiver receiver w.program.decls.next kind
        let new ← Step.addDecl (make ps x?)
        relocate d new
        remapReceiver receiver x?
        setContext d context) r w
      (fun _ r' w' => Enters p₀ site none [d] r w.program r' w'.program) (site.Blames p₀) := by
  have hparams : site.Sound p₀ → ∀ v ∈ params, v.index < p₀.values.size := fun hsound v hv =>
    hdue.binds_lt hsound v (hbinds ▸ List.mem_append_left _ hv)
  have hreceiver : site.Sound p₀ →
      ∀ v ∈ receiver.toList, v.index < p₀.values.size := fun hsound v hv =>
    hdue.binds_lt hsound v (hbinds ▸ List.mem_append_right _ hv)
  have hclash : ∀ {vs}, vs.Sublist (params ++ receiver.toList) → r.Clashes vs →
      site.Refuses p₀ := fun hsub hc =>
    hdue.refuses h (hbinds ▸ hsub) hc
  have hnew : w.program.decls.next.index < w.program.decls.size + 1 := Nat.lt_succ_self _
  refine .bind ((liftedParams_yields (h.toBooks.reserve (Nat.le_succ _)) hclosure hnew hparams
    (hclash (List.sublist_append_left _ _))).mono ?_)
  rintro ⟨_, _⟩ r₁ w₁ ⟨h₁, caps, copies, rfl, hcaps, hcopies, rfl⟩
  refine .bind (.lift ((copyReceiver_yields h₁ hnew hreceiver kind).mono ?_))
  rintro x? w₂ ⟨h₂, hkeeps, -, hx⟩
  have hnext : w₂.program.decls.next = w.program.decls.next := by rw [h₂.decls]
  refine addReplacement_yields h₂.books (hexposed _ _)
    (fun hsome => hdue.free (by rwa [← h₁.get? d])) fun hnone h₃ => ?_
  -- from here on the receiver is all that is still to be recorded
  have hclash₃ : Relocation.Clashes { r₁ with decls := r₁.decls.insert d w₂.program.decls.next }
    ([] ++ receiver.toList) →
      site.Refuses p₀ := fun hc => hclash (List.Sublist.refl _) (h₁.clashes hc)
  have hx₃ :
    Option.Rel (fun v x => Spare p₀ { r₁ with decls := r₁.decls.insert d w₂.program.decls.next }
      (w₂.program.allocDecl (make (caps ++ copies) x?)).2 x
      ∧ (w₂.program.allocDecl (make (caps ++ copies) x?)).2.Twin
        w.program.decls.next kind v x) receiver x? :=
    optionRel_mono hx fun v x hvx => ⟨⟨hvx.1.low, hvx.1.lt, hvx.1.back, hvx.1.carried⟩, hvx.2⟩
  refine .bind ((remapReceiver_yields (.refl h₃) hx₃ hreceiver hclash₃).mono ?_)
  rintro _ r₄ w₄ ⟨rfl, h₄, hrecords₄, hlinked⟩
  have hget : ∀ e, r₄.get? e = if e = d then some w.program.decls.next else r.get? e := by
    intro e
    rw [h₄.get?, Relocation.get?_relocate hnone, h₁.get?, hnext]
  have hd₄ : r₄.get? d = some w.program.decls.next := by rw [hget, if_pos rfl]
  have hfree : r₄.contexts.get? d = none := by
    rw [h₄.contexts]
    show r₁.contexts.get? d = none
    exact h₁.books.contexts_none hnone
  have hsize : (w₂.program.allocDecl (make (caps ++ copies) x?)).2.decls.size
      = w.program.decls.size + 1 := by
    rw [Program.size_allocDecl, h₂.decls]
  have hset := h₄.grows.setContext d (.params (.ofList (closure.toList.zip caps)))
  have hgrows₃ : Grows r w.program { r₁ with decls := r₁.decls.insert d w₂.program.decls.next }
      (w₂.program.allocDecl (make (caps ++ copies) x?)).2 := (h₂.grows.addDecl _).relocate d _
  have hgrows := hgrows₃.trans hset
  refine h.enter hdue ?_ hgrows (fun {u y} hu => ?_) hget (fun e he => he) fun _ => ?_
  · rw [hsize]
    refine h₄.books.setContext (by rw [hd₄]; rfl) hkind ?_
    rintro this captured ⟨⟩
  · rw [hbinds, List.mem_append]
    rcases h₄.linked hu with hu | hu
    · exact (h₁.linked hu).imp_right .inl
    · exact .inr (.inr hu)
  · have hcontent :
        (w₂.program.allocDecl (make (caps ++ copies) x?)).2.decls.get? w.program.decls.next
        = some (make (caps ++ copies) x?) := by
      rw [← hnext]
      exact Arena.get?_alloc_next _ _
    have hrecords :
        Records r₁ w₁.program r₄ (w₂.program.allocDecl (make (caps ++ copies) x?)).2 := by
      refine Records.trans ?_ hrecords₄
      have hgrows := ((Grows.refl r₁ w₂.program).addDecl (make (caps ++ copies) x?)).relocate d
      exact { (hgrows _).toRecords with
        fields := fun hf => Arena.get?_alloc_of_some _ (by rw [h₂.decls, ← h₁.decls]; exact hf)
        values := hkeeps }
    have hlast : Records r₄ (w₂.program.allocDecl (make (caps ++ copies) x?)).2
        { r₄ with contexts := r₄.contexts.insert d (.params (.ofList (closure.toList.zip caps))) }
        (w₂.program.allocDecl (make (caps ++ copies) x?)).2 :=
      ((Grows.refl _ _).setContext d _).toRecords
    refine ⟨old, _, _, hdue.reaches, hd₄, hcontent, hrenews hgrows.toRecords ?_ ?_⟩
    · exact ⟨caps, copies, rfl, hcaps.imp fun _ _ hc => hc.mono (hrecords.trans hlast),
        hcopies.imp fun _ _ hc => hc.mono (hrecords.trans hlast), OrderedMap.get?_insert_self hfree⟩
    · exact optionRel_mono hlinked fun _ _ hl => hl.mono hlast

theorem closure_yields (h : Books p₀ site n r w.program) (hd : d ∈ site.locals.lifted)
    {ok : Closure → Work → Prop} (hok : ∀ c, site.closures.get? d = some c → ok c w) :
    (closure site d).Yields w ok (site.Blames p₀) := by
  unfold closure
  cases hc : site.closures.get? d with
  | some c => exact .pure (hok c hc)
  | none => exact .throw (h.blames rfl (.closure hd hc))

/-- Reports change nothing of the program. -/
theorem report_yields {β : Type} {k : Lift β} {ok : β → Relocation → Work → Prop}
    {err : Fault → Work → Prop} (hk : ∀ w', w'.program = w.program → Yields k r w' ok err) :
    Yields ((liftM (Step.report events) : Lift Unit) >>= fun _ => k) r w ok err :=
  .bind (.lift (.report (hk _ rfl)))

/-- Where lifted declarations go. -/
theorem destination_yields (hroot : p₀.decls.get? site.root = some rootDecl)
    (hkeeps : p₀.decls.Keeps w.program.decls) {ok : Option DeclId → Work → Prop}
    {err : Fault → Work → Prop} (hok : ok (site.destination p₀) w) :
    (destination site).Yields w ok err := by
  refine .bind
    (.program (.of_eq (Step.liftExcept_eq (Program.parent_of_get? (hkeeps _ _ hroot))) ?_))
  have hdest : site.destination p₀ = rootDecl.parent := by simp [Site.destination, hroot]
  rwa [← hdest]

/-- The name composed for a declaration. -/
theorem liftedName_yields (hroot : p₀.decls.get? site.root = some rootDecl)
    (h : Books p₀ site n r w.program) (hd : p₀.decls.get? d = some old) {ok : Name → Work → Prop}
    (hok : ∀ name, site.Composes p₀ d name → ok name w) :
    (liftedName site d).Yields w ok (site.Blames p₀) := by
  have hchain : (p₀.chain d).ending = .atModule → w.program.chain d = p₀.chain d :=
    Program.chainFrom_of_keeps h.grown.decls (Nat.succ_le_succ h.grown.decls.size_le)
  refine .bind (destination_yields hroot h.grown.decls
    (.bind (.program (.bind (.ask (fun scopes hscopes => ?_) ?_)))))
  · refine .pure (hok _ fun hend => ?_)
    rw [hchain hend] at hscopes
    rw [← Except.ok.inj ((Program.Chain.before_eq hend _).symm.trans hscopes), Site.parts,
      Program.lineage, List.takeWhile_map, List.map_map]
    rfl
  · refine fun f hf => ⟨h.grown, fun hsound => ?_⟩
    have hend := hsound.chains.ending hd
    rw [hchain hend, Program.Chain.before_eq hend] at hf
    cases hf

end Lift

/-! ## §3. Functions, classes and constructors. -/

/-- It is the turn of a declaration in the tables: nothing that it brings along has a replacement,
unless there is a reason to refuse. -/
structure Turn (p₀ : Program) (site : Site) (r : Relocation) (d : DeclId) : Prop where
  listed : d ∈ site.locals.tables
  free : ∀ x ∈ p₀.brought d, (r.get? x).isSome → site.Refuses p₀

/-- What is brought along is due when what comes before it has been entered. -/
theorem Turn.due {r' : Relocation} {a : DeclId} (h : Turn p₀ site r d)
    (hreach : site.Reaches p₀ a content) (hdomain : ∀ e, (r'.get? e).isSome ↔ (r.get? e).isSome
      ∨ e ∈ ds) (hsub : (ds ++ [a]).Sublist (p₀.brought d)) :
    Due p₀ site r' a content where
  reaches := hreach
  brings := ⟨d, h.listed, hsub.subset (by simp)⟩
  free hsome := by
    rcases (hdomain a).1 hsome with hsome | hmem
    · exact h.free a (hsub.subset (by simp)) hsome
    · exact .doubled h.listed fun hnodup =>
        (List.nodup_append.1 (hnodup.sublist hsub)).2.2 a hmem a (List.mem_singleton_self a) rfl

theorem Turn.due_self (h : Turn p₀ site r d) (hreach : site.Reaches p₀ d content)
    (hbrought : p₀.brought d = [d]) : Due p₀ site r d content :=
  have hdomain : ∀ e, (r.get? e).isSome ↔ (r.get? e).isSome ∨ e ∈ ([] : List DeclId) := by simp
  h.due hreach hdomain (by rw [hbrought]; exact List.Sublist.refl _)

/-- Most declarations bring along only themselves. -/
theorem Program.brought_eq_self (hd : p.decls.get? d = some content)
    (hproperty : ∀ q, content ≠ .property q) (hfunction : ∀ f, content = .function f →
      p.isMember d = .ok false ∨ f.accessorOf = none) : p.brought d = [d] := by
  unfold brought
  cases content with
  | function f =>
    rw [hd]
    rcases hfunction f rfl with hmember | haccessor
    · simp only [hmember]
    · simp only [haccessor]
      split <;> rfl
  | property q => exact absurd rfl (hproperty q)
  | _ => rw [hd]

/-- The code of a declaration that is reached is reached. -/
theorem Site.reaches_of_below (hbelow : p₀.Below site.root (.decl d))
    (hd : p₀.decls.get? d = some content) (hc : ∀ c, content = .constructor c →
      d ∈ site.locals.constructors) : site.Reaches p₀ d content := by
  refine ⟨hd, fun e he => hbelow.part hd ?_, hc, .inl hbelow⟩
  cases content <;> simp_all [Declaration.code, Declaration.parts]

namespace Lift

variable {p₀ : Program} {site : Site} {n : Nat} {pending : Option DeclId} {r : Relocation}
  {w : Work} {d : DeclId}

section

variable {rootDecl : Declaration} (hsorted : p₀.Sorted site.root site.locals)
  (hroot : p₀.decls.get? site.root = some rootDecl) (h : Ledger p₀ site none r w.program)
  (hturn : Turn p₀ site r d)

include hsorted h hturn

include hroot in
/-- **A function** is entered. -/
theorem liftFunction_yields (hd : d ∈ site.locals.functions.keys) :
    Yields (liftFunction site d) r w
      (fun _ r' w' => Enters p₀ site none (p₀.brought d) r w.program r' w'.program)
        (site.Blames p₀) := by
  obtain ⟨hbelow, hmember, f, hf⟩ := (hsorted.functions d).1 hd
  have hlifted : d ∈ site.locals.lifted := List.mem_append_left _ hd
  have hbrought : p₀.brought d = [d] :=
    Program.brought_eq_self hf (by rintro q ⟨⟩) fun _ _ => .inl hmember
  have hdue := hturn.due_self (Site.reaches_of_below hbelow hf (by rintro c ⟨⟩)) hbrought
  rw [hbrought]
  unfold liftFunction
  refine .bind (.lift (.of_eq (Step.decl_eq (h.grown.decls _ _ hf)) ?_))
  simp only [Declaration.function?]
  split
  next hdispatch => exact .throw (h.blames rfl (.receiver hd hf hdispatch))
  next hdispatch =>
  have hdispatch : f.dispatchReceiver = none := by simpa using hdispatch
  refine .bind (.lift (closure_yields h.toBooks hlifted fun closure hclosure => ?_))
  refine .bind (.lift (liftedName_yields hroot h.toBooks hf fun name hname => ?_))
  refine report_yields fun w₀ hw₀ => ?_
  rw [← hw₀] at h ⊢
  refine .bind (.lift (destination_yields hroot h.grown.decls (.bind (.lift (.program ?_)))))
  exact callable_yields (fun params extensionReceiver => .function
    { name, parent := site.destination p₀, origin := .lifted, visibility := .inContainer,
      typeParams := f.typeParams, extensionReceiver, params, ret :=
      f.ret, body := f.body }) h hdue rfl hclosure (.inl hlifted) (fun _ _ => rfl)
    fun _ hsigns hlinked => .function hd hclosure hname hdispatch hlinked hsigns

/-- **A constructor** is entered. -/
theorem liftConstructor_yields (hd : d ∈ site.locals.constructors)
    (hclasses : ∀ k ∈ site.locals.classes.keys, (r.get? k).isSome) :
    Yields (liftConstructor site d) r w
      (fun _ r' w' => Enters p₀ site none (p₀.brought d) r w.program r' w'.program)
        (site.Blames p₀) := by
  obtain ⟨hbelow, c, hc⟩ := (hsorted.constructors d).1 hd
  have hbrought : p₀.brought d = [d] := Program.brought_eq_self hc (by rintro q ⟨⟩) (by rintro f ⟨⟩)
  have hdue := hturn.due_self (Site.reaches_of_below hbelow hc fun _ _ => hd) hbrought
  rw [hbrought]
  unfold liftConstructor
  refine .bind (.lift (.of_eq (Step.decl_eq (h.grown.decls _ _ hc)) ?_))
  simp only
  split
  next k hk =>
    obtain ⟨hparent, hkey⟩ := Option.filter_eq_some_iff.1 hk
    have hlisted := OrderedMap.contains_iff.1 hkey
    obtain ⟨newK, hnewK⟩ := Option.isSome_iff_exists.1 (hclasses k hlisted)
    refine .bind (.read (.pure (.bind (.ask (fun x hx => ?_) fun f hf => ?_))))
    · obtain rfl : newK = x := Except.ok.inj ((Relocation.lifted_eq hnewK).symm.trans hx)
      refine .bind
        (.lift (closure_yields h.toBooks (List.mem_append_right _ hlisted) fun closure hclosure =>
        .bind (.lift (.program ?_))))
      exact callable_yields (fun params dispatchReceiver => .constructor
        { c with parent := some newK, visibility := .inContainer, dispatchReceiver,
                 params }) h hdue rfl hclosure
        (.inr hd) (fun _ _ => rfl) fun hrecords hsigns hlinked =>
          .constructor hparent hlisted (hrecords.moved hnewK) hclosure hlinked hsigns
    · cases hf.symm.trans (Relocation.lifted_eq hnewK)
  next hnone =>
    refine .throw (h.blames rfl (.stray (.inl hd) (by simp [hbrought]) hc fun k hk hlisted => ?_))
    exact hnone k (Option.filter_eq_some_iff.2 ⟨hk, OrderedMap.contains_iff.2 hlisted⟩)

omit hsorted h hturn in
/-- **A field for each captured value.** -/
theorem capturedFields_yields (h : Books p₀ site n r w.program) (hd : d ∈ site.locals.classes.keys)
    (hnew : r.get? d = some new) {closure : Closure}
    (hclosure : site.closures.get? k = some closure) :
    (capturedFields site new closure).Yields w (fun fields w' => Books p₀ site n r w'.program
      ∧ Grows r w.program r w'.program
      ∧ List.Forall₂ (KeepsField site.settings w'.program new) closure.toList fields
      ∧ fields.Nodup ∧ ∀ f ∈ fields, p₀.decls.size ≤ f.index ∧ f.index < w'.program.decls.size
        ∧ ∀ e, r.get? e ≠ some f) (site.Blames p₀) := by
  refine Step.Yields.mapM
    (fun seen fields w' => Books p₀ site n r w'.program ∧ Grows r w.program r w'.program
      ∧ List.Forall₂ (KeepsField site.settings w'.program new) seen fields ∧ fields.Nodup
      ∧ ∀ f ∈ fields, p₀.decls.size ≤ f.index ∧ f.index < w'.program.decls.size
        ∧ ∀ e, r.get? e ≠ some f) ?_
    ⟨h, .refl _ _, .nil, .nil, by simp⟩
  rintro seen v rest fields w' hsplit ⟨h', hgrows, hfields, hnodup, hbounds⟩
  have hv : v ∈ closure.toList := by rw [hsplit]; simp
  refine .bind (.value (fun value hvalue => .addDecl
    ⟨h'.addField hd hnew hvalue, hgrows.addDecl _, ?_, ?_, fun f hf => ?_⟩)
    (h'.blames_value fun hsound => hsound.closures hclosure v hv))
  · refine List.rel_append
      (hfields.imp fun _ _ hf => hf.mono ((Grows.refl r _).addDecl _).toRecords) (.cons ?_ .nil)
    exact ⟨value, hvalue, Arena.get?_alloc_next _ _⟩
  · refine List.nodup_append.2 ⟨hnodup, List.nodup_singleton _, fun f hf f' hf' => ?_⟩
    obtain rfl := List.mem_singleton.1 hf'
    rintro rfl
    exact absurd (hbounds _ hf).2.1 (Nat.lt_irrefl _)
  · rw [Program.size_allocDecl]
    rcases List.mem_append.1 hf with hf | hf
    · obtain ⟨hlow, hlt, hnone⟩ := hbounds f hf
      exact ⟨hlow, Nat.lt_succ_of_lt hlt, hnone⟩
    · obtain rfl := List.mem_singleton.1 hf
      exact ⟨h'.grown.decls.size_le, Nat.lt_succ_self _, h'.fresh_next⟩

include hroot in
/-- **A class** is entered. -/
theorem liftClass_yields (hd : d ∈ site.locals.classes.keys) :
    Yields (liftClass site d) r w
      (fun _ r' w' => Enters p₀ site none (p₀.brought d) r w.program r' w'.program)
        (site.Blames p₀) := by
  obtain ⟨hbelow, -, c, hc⟩ := (hsorted.classes d).1 hd
  have hlifted : d ∈ site.locals.lifted := List.mem_append_right _ hd
  have hbrought : p₀.brought d = [d] := Program.brought_eq_self hc (by rintro q ⟨⟩) (by rintro f ⟨⟩)
  have hdue := hturn.due_self (Site.reaches_of_below hbelow hc (by rintro c ⟨⟩)) hbrought
  rw [hbrought]
  unfold liftClass
  refine .bind (.lift (.of_eq (Step.decl_eq (h.grown.decls _ _ hc)) ?_))
  simp only [Declaration.cls?]
  refine .bind (.lift (closure_yields h.toBooks hlifted fun closure hclosure => ?_))
  refine .bind (.lift (liftedName_yields hroot h.toBooks hc fun name hname => ?_))
  refine report_yields fun w₀ hw₀ => ?_
  rw [← hw₀] at h ⊢
  refine .bind (.lift (destination_yields hroot h.grown.decls (.bind (.lift (.program ?_)))))
  refine .bind (.lift (.addValue ?_))
  have hnew : w₀.program.decls.next.index < w₀.program.decls.size + 1 := Nat.lt_succ_self _
  have h₀ := h.toBooks.reserve (Nat.le_succ _)
  have h₁ := (Naming.refl h₀).addValue
    { name := .this, ty := .cls w₀.program.decls.next, owner := w₀.program.decls.next,
      kind := .dispatchReceiver } hnew
    (.inr ⟨_, rfl, hnew⟩)
  have hspare := h₀.spare_next
    { name := .this, ty := .cls w₀.program.decls.next, owner := w₀.program.decls.next,
      kind := .dispatchReceiver }
  refine addReplacement_yields h₁.books rfl hdue.free fun hnone h₂ => ?_
  refine .bind (remap_yields (.refl h₂) ?_ ?_ ?_ fun h₃ hforth => ?_)
  · exact ⟨hspare.low, hspare.lt, hspare.back, hspare.carried⟩
  · exact fun hsound => hdue.binds_lt hsound c.this (by simp [Declaration.binds])
  · exact fun hclash => hdue.refuses h (List.Sublist.refl _) hclash
  have hd₃ : Relocation.get? _ d = some w₀.program.decls.next :=
    (h₃.get? d).trans (OrderedMap.get?_insert_self hnone)
  refine .bind (.lift ((capturedFields_yields h₃.books hd hd₃ hclosure).mono ?_))
  rintro fields w₄ ⟨h₄, hgrows₄, hfields, hnodup, hbounds⟩
  have hgrows₃ := (((h₁.grows.addDecl _).relocate d _).trans h₃.grows).trans hgrows₄
  have hset :=
    hgrows₃.setContext d (.fields w₀.program.values.next (.ofList (closure.toList.zip fields)))
  have hthis : w₄.program.values.get? w₀.program.values.next = some
      { name := .this, ty := .cls w₀.program.decls.next, owner := w₀.program.decls.next,
        kind := .dispatchReceiver } :=
    hgrows₄.values _ _ (Arena.get?_alloc_next _ _)
  obtain ⟨content', hcontent', herase⟩ := hgrows₄.decls (Arena.get?_alloc_next _ _)
  have hget := fun e => (h₃.get? e).trans (Relocation.get?_relocate hnone)
  refine h.enter hdue ?_ hset (fun {u y} hu => ?_) hget (fun e he => he) fun _ => ?_
  · refine (h₄.setContext (by rw [hd₃]; rfl) (.inl hlifted) ?_).reserve ?_
    · rintro this captured ⟨⟩ f hf
      rw [OrderedMap.values_ofList_zip closure.nodup hfields.length_eq] at hf
      exact (hbounds f hf).2
    · have hle := hgrows₄.decls_size_le
      rwa [Program.size_allocDecl] at hle
  · exact (h₃.linked hu).imp_right fun hmem => by simpa [Declaration.binds] using hmem
  · refine ⟨_, _, content', hdue.reaches, hd₃, hcontent', ?_⟩
    rw [herase]
    exact .cls hd hclosure hname hforth ⟨_, hthis, rfl, rfl⟩ hfields hnodup
      (fun f hf => (hbounds f hf).1)
      (OrderedMap.get?_insert_self (h.contexts_none hnone))

end

/-! ## §4. Members. -/

/-- The receiver of a class is recorded only as what it is recorded as. -/
theorem remap_linked_yields (h : Books p₀ site n r w.program) {u : ValueId}
    (hx : r.values.forth? u = some x) (hv : site.Sound p₀ → v.index < p₀.values.size)
    (hforeign : v ≠ u → site.Refuses p₀) {ok : Unit → Relocation → Work → Prop}
    (hok : v = u → ok () r w) : Yields (remap v x) r w ok (site.Blames p₀) := by
  refine .bind (.lift (.program (.bind (.ask (fun owner _ => .read ?_) (blames_owner h hv)))))
  by_cases hvu : v = u
  · subst hvu
    rw [Bijection.insert_same hx (h.inverse.1 hx)]
    exact hok rfl
  · cases hinsert : Bijection.insert v x r.values with
    | error conflict _ => exact .throw (h.blames rfl (hforeign hvu))
    | ok _ values =>
      obtain ⟨-, hforth⟩ | ⟨-, -, hback⟩ := Bijection.insert_cases h.inverse hinsert
      · exact absurd (Option.some.inj ((h.inverse.1 hforth).symm.trans (h.inverse.1 hx))) hvu
      · cases hback.symm.trans (h.inverse.1 hx)

/-- A copy of each parameter, before counterparts are recorded. -/
theorem copyParams_yields (h : Books p₀ site n r w.program) (hnew : new.index < n)
    {old : List ValueId} (hold : site.Sound p₀ → ∀ v ∈ old, v.index < p₀.values.size) :
    Yields (old.zipIdx.mapM fun a => (liftM (copyValue a.1 new (.param a.2)) : Lift ValueId)) r w
      (fun params r' w' =>
        r' = r ∧ Naming p₀ site n r w.program [] r w'.program ∧ params.Nodup
          ∧ List.Forall₂ (fun a x => Spare p₀ r w'.program x
              ∧ w'.program.Twin new (.param a.2) a.1 x) old.zipIdx params)
      (site.Blames p₀) := by
  refine Yields.mapM (fun (seen : List (ValueId × Nat)) params r' w' => r' = r
    ∧ Naming p₀ site n r w.program [] r w'.program ∧ params.Nodup
    ∧ List.Forall₂ (fun a x => Spare p₀ r w'.program x
        ∧ w'.program.Twin new (.param a.2) a.1 x) seen params) ?_
    ⟨rfl, .refl h, .nil, .nil⟩
  rintro seen ⟨v, i⟩ rest params r' w' hsplit ⟨rfl, h', hnodup, hparams⟩
  have hv : v ∈ old := List.fst_mem_of_mem_zipIdx (x := (v, i)) (by rw [hsplit]; simp)
  refine .lift ((copyValue_yields h' hnew (fun hsound => hold hsound v hv) (.param i)).mono ?_)
  rintro x w'' ⟨h'', hkeeps, hle, hspare, htwin⟩
  refine ⟨rfl, h'', ?_, List.rel_append (hparams.imp fun a y hy => ?_) (.cons ⟨hspare, htwin⟩ .nil)⟩
  · refine List.nodup_append.2 ⟨hnodup, List.nodup_singleton _, fun y hy y' hy' => ?_⟩
    obtain rfl := List.mem_singleton.1 hy'
    rintro rfl
    obtain ⟨-, -, hold, -⟩ := forall₂_left hparams hy
    exact absurd hold.lt (Nat.not_lt.2 hle)
  · exact ⟨hy.1.of_values hkeeps.size_le, hy.2.mono hkeeps⟩

/-- **Counterparts are recorded** for parameters that were copied. -/
theorem remapAll_yields (h : Books p₀ site n r w.program) {pairs : List (ValueId × ValueId)}
    (hpairs : ∀ a ∈ pairs, Spare p₀ r w.program a.2) (hnodup : (pairs.map (·.2)).Nodup)
    (hv : site.Sound p₀ → ∀ a ∈ pairs, a.1.index < p₀.values.size)
    (hclash : r.Clashes (pairs.map (·.1)) → site.Refuses p₀) :
    Yields (pairs.forM fun a => remap a.1 a.2) r w (fun _ r' w' => w' = w
      ∧ Naming p₀ site n r w.program (pairs.map (·.1)) r' w.program
      ∧ Records r w.program r' w.program
      ∧ (∀ x, Spare p₀ r w.program x → x ∉ pairs.map (·.2) → Spare p₀ r' w.program x)
      ∧ ∀ a ∈ pairs, r'.values.forth? a.1 = some a.2) (site.Blames p₀) := by
  refine Yields.forM (fun (done : List (ValueId × ValueId)) r' w' => w' = w
    ∧ Naming p₀ site n r w.program (done.map (·.1)) r' w.program ∧ Records r w.program r' w.program
    ∧ (∀ x, Spare p₀ r w.program x → x ∉ done.map (·.2) → Spare p₀ r' w.program x)
    ∧ ∀ a ∈ done,
    r'.values.forth? a.1 = some a.2) ?_ ⟨rfl, .refl h, .refl _ _, fun _ hx _ => hx, by simp⟩
  rintro done a rest r' w' hsplit ⟨rfl, h', hrecords, hspare, hdone⟩
  have ha : a ∈ pairs := by simp [hsplit]
  have hfresh : a.2 ∉ done.map (·.2) := by
    rw [hsplit, List.map_append, List.map_cons] at hnodup
    exact fun hmem => (List.nodup_append.1 hnodup).2.2 _ hmem _ List.mem_cons_self rfl
  have hsub : (done.map (·.1) ++ [a.1]).Sublist (pairs.map (·.1)) := by
    rw [hsplit, List.map_append, List.map_cons]
    exact (List.Sublist.refl _).append (List.singleton_sublist.2 List.mem_cons_self)
  refine remap_yields h' (hspare _ (hpairs a ha) hfresh) (fun hsound => hv hsound a ha)
    (fun hc => hclash (hc.mono hsub)) fun hnaming hforth => ?_
  have hpair : Records r' w'.program (r'.pair a.1 a.2) w'.program :=
    ((Grows.refl _ _).pair _ _).toRecords
  refine ⟨rfl, by rw [List.map_append]; exact hnaming, hrecords.trans hpair,
    fun x hx hmem => ?_, fun b hb => ?_⟩
  · rw [List.map_append, List.mem_append, not_or, List.map_singleton, List.mem_singleton] at hmem
    have hx' := hspare x hx hmem.1
    exact { hx' with back := by rw [Relocation.back_pair_of_ne hmem.2]; exact hx'.back }
  · rcases List.mem_append.1 hb with hb | hb
    · exact hpair.forth (hdone b hb)
    · obtain rfl := List.mem_singleton.1 hb
      exact hforth

/-- Two lists related element by element, with what holds of each pair. -/
theorem forall₂_of_mem_zip {β : Type} {R : ValueId × Nat → β → Prop} (S : ValueId → β → Prop)
    {xs : List β} {start : Nat} (h : List.Forall₂ R (vs.zipIdx start) xs)
    (hS : ∀ a ∈ vs.zip xs, S a.1 a.2) :
    List.Forall₂ (fun a x => S a.1 x ∧ R a x) (vs.zipIdx start) xs := by
  induction vs generalizing xs start with
  | nil =>
    cases h
    exact .nil
  | cons v vs ih =>
    cases h with
    | cons hx hxs =>
      exact .cons ⟨hS _ List.mem_cons_self, hx⟩
        (ih hxs fun a ha => hS a (List.mem_cons_of_mem _ ha))

/-- **A method or an accessor** is entered. -/
theorem liftMethod_yields {f : FunctionDecl} {accessorOf : Option DeclId}
    (h : Ledger p₀ site pending r w.program) (hdue : Due p₀ site r d (.function f))
    (hfunctions : ∀ e ∈ site.locals.functions.keys, (r.get? e).isSome)
    (hlodges : Lodges p₀ site r w.program d k c cls this)
    (haccesses : Accesses p₀ r d f accessorOf) :
    Yields (liftMethod d f cls this accessorOf) r w
      (fun x r' w' => Enters p₀ site pending [d] r w.program r' w'.program
        ∧ r'.get? d = some x) (site.Blames p₀) := by
  have hf := hdue.reaches.1
  have hforeign : f.dispatchReceiver ≠ some c.this → site.Refuses p₀ :=
    .foreign hdue.brings hf hlodges.houses hlodges.listed hlodges.old
  have hparams' : site.Sound p₀ → ∀ v ∈ f.params, v.index < p₀.values.size := fun hsound v hv =>
    hdue.binds_lt hsound v (List.mem_append_left _ hv)
  have hreceiver : site.Sound p₀ →
      ∀ v ∈ f.extensionReceiver.toList, v.index < p₀.values.size := fun hsound v hv =>
    hdue.binds_lt hsound v (List.mem_append_right _ hv)
  have hnew : w.program.decls.next.index < w.program.decls.size + 1 := Nat.lt_succ_self _
  unfold liftMethod
  refine .bind (.lift (.program
    (.bind ((copyParams_yields (h.toBooks.reserve (Nat.le_succ _)) hnew hparams').mono ?_))))
  rintro params r w₁ ⟨rfl, h₁, hnodup, hparams⟩
  refine .bind (.lift ((copyReceiver_yields h₁ hnew hreceiver .extensionReceiver).mono ?_))
  rintro x? w₂ ⟨h₂, hkeeps, hlate, hx⟩
  have hnext : w₂.program.decls.next = w.program.decls.next := by rw [h₂.decls]
  obtain ⟨content, hcontent⟩ : ∃ content, content = Declaration.function
      { f with parent := some cls, dispatchReceiver := some this,
               extensionReceiver := x?, params, accessorOf, overrides := [] } := ⟨_, rfl⟩
  rw [← hcontent]
  refine addReplacement_yields h₂.books (hcontent ▸ rfl) hdue.free fun hnone h₃ => ?_
  have hlength : f.params.length = params.length := by simpa using hparams.length_eq
  have hfst : (f.params.zip params).map (·.1) = f.params := List.map_fst_zip hlength.le
  have hsnd : (f.params.zip params).map (·.2) = params := List.map_snd_zip hlength.ge
  have hclash : ∀ {vs}, vs.Sublist (f.params ++ f.extensionReceiver.toList) →
      r.Clashes vs → site.Refuses p₀ :=
    fun hsub hc => hdue.refuses h hsub hc
  refine .bind ((remapAll_yields h₃ (fun a ha => ?_) (hsnd.symm ▸ hnodup)
    (fun hsound a ha => ?_) fun hc => ?_).mono ?_)
  · obtain ⟨-, -, hspare, -⟩ := forall₂_left hparams (List.of_mem_zip ha).2
    exact ⟨hspare.low, hspare.lt.trans_le hkeeps.size_le, hspare.back, hspare.carried⟩
  · exact hparams' hsound a.1 (List.of_mem_zip ha).1
  · rw [hfst] at hc
    exact hclash (List.sublist_append_left _ _) hc
  rintro _ r₄ w₄ ⟨rfl, h₄, hrecords₄, hspare, hlinked⟩
  rw [hfst] at h₄
  rw [hsnd] at hspare
  cases hdispatch : f.dispatchReceiver with
  | none => exact .throw (h₄.books.blames rfl (hforeign (by rw [hdispatch]; simp)))
  | some dispatch =>
    have hbound : site.Sound p₀ → dispatch.index < p₀.values.size := fun hsound =>
      (hsound.names hf (.refl p₀)).values dispatch
        (by simp [Declaration.namedValues, Declaration.dispatchReceiver, hdispatch])
    have hthis : r₄.values.forth? c.this = some this := h₄.grows.forth hlodges.forth
    refine .bind (remap_linked_yields h₄.books hthis hbound
      (fun hne => hforeign (by simpa [hdispatch] using hne))
      fun heq => ?_)
    subst heq
    -- the receiver was copied after the parameters, so it is none of them
    have hx₄ : Option.Rel (fun v x => Spare p₀ r₄ (w₂.program.allocDecl content).2 x
        ∧ (w₂.program.allocDecl content).2.Twin w.program.decls.next .extensionReceiver v x)
        f.extensionReceiver x? := by
      generalize f.extensionReceiver = v? at hx ⊢
      cases hx with
      | none => exact .none
      | @some v x hx =>
        refine .some ⟨hspare x ⟨hx.1.low, hx.1.lt, hx.1.back, hx.1.carried⟩ fun hmem => ?_, hx.2⟩
        obtain ⟨-, -, hold, -⟩ := forall₂_left hparams hmem
        exact absurd hold.lt (Nat.not_lt.2 (hlate x rfl))
    refine .bind
      ((remapReceiver_yields h₄ hx₄ hreceiver fun hc => hclash (List.Sublist.refl _) hc).mono ?_)
    rintro _ r₅ w₅ ⟨rfl, h₅, hrecords₅, hext⟩
    have hget : ∀ e, r₅.get? e = if e = d then some w.program.decls.next else r.get? e := by
      intro e
      rw [h₅.get?, Relocation.get?_relocate hnone, hnext]
    have hd₅ : r₅.get? d = some w.program.decls.next := by rw [hget, if_pos rfl]
    have hgrows := ((h₂.grows.addDecl _).relocate d _).trans h₅.grows
    refine .pure
      ⟨h.enter hdue ?_ hgrows (fun {u y} hu => h₅.linked hu) hget (fun e he => he) fun _ => ?_, ?_⟩
    · rw [Program.size_allocDecl, h₂.decls]
      exact h₅.books
    · refine ⟨_, _, content, hdue.reaches, hd₅,
        by rw [← hnext]; exact Arena.get?_alloc_next _ _, ?_⟩
      conv => arg 8; rw [hcontent]
      refine .method ?_ (hlodges.mono hgrows.toRecords) hdispatch hext ?_
        (haccesses.mono hgrows.toRecords)
      · -- functions have been lifted before, and nothing is lifted twice
        intro hmem
        have hsome := hfunctions d hmem
        rw [hnone] at hsome
        cases hsome
      · refine (forall₂_of_mem_zip (fun v x => r₄.values.forth? v = some x) hparams hlinked).imp ?_
        rintro a x ⟨hforth, -, htwin⟩
        exact ⟨hrecords₅.forth hforth, htwin.mono hkeeps⟩
    · rw [hd₅, hnext]

/-- **A field** is entered. -/
theorem liftField_yields {f : FieldDecl} (h : Ledger p₀ site pending r w.program)
    (hdue : Due p₀ site r d (.field f)) (hlodges : Lodges p₀ site r w.program d k c cls this) :
    Yields (liftField d f cls) r w
      (fun x r' w' => Enters p₀ site pending [d] r w.program r' w'.program
        ∧ r'.get? d = some x) (site.Blames p₀) := by
  unfold liftField
  refine addReplacement_yields h.toBooks rfl hdue.free fun hnone h₁ => .pure ?_
  have hget := fun e => Relocation.get?_relocate (x := w.program.decls.next) (e := e) hnone
  have hself := OrderedMap.get?_insert_self (a := w.program.decls.next) hnone
  have hgrows := ((Grows.refl r w.program).addDecl (.field { f with parent := some cls })).relocate
    d w.program.decls.next
  refine ⟨h.enter hdue (h₁.reserve ?_) hgrows .inl hget (fun e he => he) fun _ => ?_, hself⟩
  · rw [Program.size_allocDecl]
    exact Nat.le_succ _
  · exact ⟨_, _, _, hdue.reaches, hself, Arena.get?_alloc_next _ _,
      .field (hlodges.mono hgrows.toRecords)⟩

end Lift

/-- What is filled in later is entered when it has got its form. -/
theorem Ledger.settle {x : DeclId} {old : Declaration} (h : Ledger p₀ site (some d) r p)
    (hreach : site.Reaches p₀ d old) (hd : r.get? d = some x) (hx : p.decls.get? x = some content)
    (hfield : ∀ f, content ≠ .field f) (hexposed : content'.exposed = [])
    (hrenews : Renews p₀ site r p d x old content'.erase) :
    Ledger p₀ site none r (p.setDecl x content') := by
  have hget := Program.get?_setDecl hx content'
  have hrecords : Records r p r (p.setDecl x content') := by
    refine { Records.refl r p with fields := fun {y f} hy => ?_ }
    rw [hget, if_neg]
    · exact hy
    · rintro rfl
      exact hfield f (Option.mem_unique hx hy)
  refine ⟨?_, fun {e y} he _ => ?_, h.brings, h.origins⟩
  · rw [Program.size_setDecl]
    exact h.toBooks.setDecl _ hd (by rw [hexposed]; simp)
  · by_cases hed : e = d
    · subst hed
      exact ⟨old, x, content', hreach, hd, by rw [hget, if_pos rfl], hrenews.mono hrecords⟩
    · obtain ⟨old', y', content'', hreach', hy', hcontent'', hrenews'⟩ :=
        h.renewed he (by simpa using Ne.symm hed)
      refine ⟨old', y', content'', hreach', hy', ?_, hrenews'.mono hrecords⟩
      have hne : y' ≠ x := fun heq => hed (h.injective hy' (heq.symm ▸ hd))
      rw [hget, if_neg hne]
      exact hcontent''

namespace Lift

variable {p₀ : Program} {site : Site} {pending : Option DeclId} {r : Relocation}
  {w : Work} {d : DeclId}

/-- **Where a member goes**: the replacement of the local class that it names as its parent. -/
theorem memberDestination_yields (hsorted : p₀.Sorted site.root site.locals)
    (h : Ledger p₀ site none r w.program)
    (hclasses : ∀ k ∈ site.locals.classes.keys, (r.get? k).isSome) (hd : d ∈ site.locals.members)
    (hself : d ∈ p₀.brought d) (hcontent : p₀.decls.get? d = some content)
    {ok : DeclId × ValueId → Relocation → Work → Prop} (hok : ∀ {k c cls this},
      content.parent = some k → Lodges p₀ site r w.program d k c cls this → ok (cls, this) r w) :
    Yields (memberDestination site d) r w ok (site.Blames p₀) := by
  unfold memberDestination
  refine .bind (.lift (.program (.bind (.ask (fun parent hparent => ?_) fun f hf => ?_))))
  · rw [Program.parent_of_get? (h.grown.decls _ _ hcontent)] at hparent
    cases hparent
    split
    next k hk =>
      obtain ⟨hparent, hkey⟩ := Option.filter_eq_some_iff.1 hk
      have hlisted := OrderedMap.contains_iff.1 hkey
      obtain ⟨cls, hcls⟩ := Option.isSome_iff_exists.1 (hclasses k hlisted)
      obtain ⟨-, -, c, hc⟩ := (hsorted.classes k).1 hlisted
      obtain ⟨content', hcontent', hrenews⟩ := h.renews hcls hc
      refine .read (.bind (.ask (fun x hx => ?_) fun f hf => ?_))
      · obtain rfl : cls = x := Except.ok.inj ((Relocation.lifted_eq hcls).symm.trans hx)
        refine .bind (.lift (.of_eq (Step.decl_eq hcontent') ?_))
        generalize herase : content'.erase = erased at hrenews
        cases hrenews with
        | cls _ _ _ hforth howned _ _ _ _ =>
          obtain ⟨scope, rfl⟩ := Declaration.eq_cls_of_erase herase
          exact .pure
            (hok hparent ⟨.inl ⟨content, hcontent, hparent⟩, hlisted, hc, hcls, hforth, howned⟩)
      · cases hf.symm.trans (Relocation.lifted_eq hcls)
    next hnone =>
      refine .throw (h.blames rfl (.stray (.inr hd) hself hcontent fun k hk hlisted => ?_))
      exact hnone k (Option.filter_eq_some_iff.2 ⟨hk, OrderedMap.contains_iff.2 hlisted⟩)
  · rw [Program.parent_of_get? (h.grown.decls _ _ hcontent)] at hf
    cases hf

section

variable {q : PropertyDecl} (hcollects : p₀.Collects site.root) (hd : d ∈ site.locals.members)
  (hbelow : p₀.Below site.root (.decl d)) (hq : p₀.decls.get? d = some (.property q))

include hcollects hd hbelow hq

/-- A backing field that is there is entered. -/
theorem liftBacking_yields (h : Ledger p₀ site none r w.program)
    (hdue : ∀ b ∈ q.backingField, ∀ content, site.Reaches p₀ b content → Due p₀ site r b content)
    (hlodges : ∀ b ∈ q.backingField, Lodges p₀ site r w.program b k c cls this) :
    Yields (q.backingField.mapM (liftBacking cls)) r w (fun x? r' w' =>
      Enters p₀ site none q.backingField.toList r w.program r' w'.program
      ∧ RenewsPart p₀ r' (fun content => ∃ f, content = .field f) q.backingField x?)
        (site.Blames p₀) := by
  refine .optionMapM (fun hnone => ?_) fun b hb => ?_
  · rw [hnone]
    exact ⟨.refl h, .none⟩
  · have hplace : p₀.Below site.root (.backing b) :=
      hbelow.part hq (by simp [Declaration.parts, hb])
    obtain ⟨label, hlabel⟩ := hcollects.exists_label hplace
    obtain ⟨content, hcontent, -⟩ := Option.map_eq_some_iff.1 hlabel
    refine .bind (.lift (.of_eq (Step.decl_eq (h.grown.decls _ _ hcontent)) ?_))
    cases content with
    | field f =>
      have hreach : site.Reaches p₀ b (.field f) :=
        ⟨hcontent, fun e he => hbelow.backing hq hb hcontent he, by rintro c ⟨⟩,
          .inr ⟨hplace, f, rfl⟩⟩
      refine (liftField_yields h (hdue b hb _ hreach) (hlodges b hb)).mono ?_
      rintro x r' w' ⟨henters, hx⟩
      rw [hb]
      exact ⟨henters, .some ⟨hx, _, hcontent, f, rfl⟩⟩
    | _ => exact .throw (h.blames rfl (.backing hd hq hb hcontent (by rintro f ⟨⟩)))

/-- An accessor that is there is entered. -/
theorem liftAccessor_yields {a? : Option DeclId}
    (ha : ∀ a ∈ a?, a ∈ q.getter.toList ++ q.setter.toList) (h : Ledger p₀ site pending r w.program)
    (hdue : ∀ a ∈ a?, ∀ content, site.Reaches p₀ a content → Due p₀ site r a content)
    (hfunctions : ∀ e ∈ site.locals.functions.keys, (r.get? e).isSome)
    (hlodges : ∀ a ∈ a?, Lodges p₀ site r w.program a k c cls this) (hnew : r.get? d = some new) :
    Yields (a?.mapM (liftAccessor cls this new)) r w (fun x? r' w' =>
      Enters p₀ site pending a?.toList r w.program r' w'.program
      ∧ RenewsPart p₀ r' (fun content => ∃ f, content = .function f) a? x?) (site.Blames p₀) := by
  refine .optionMapM (fun hnone => ?_) fun a hsome => ?_
  · rw [hnone]
    exact ⟨.refl h, .none⟩
  · have hmem := ha a hsome
    have hplace : p₀.Below site.root (.decl a) := hbelow.part hq (by
      rcases List.mem_append.1 hmem with hmem | hmem
      · simp [Declaration.parts, Option.mem_toList.1 hmem]
      · simp [Declaration.parts, Option.mem_toList.1 hmem])
    obtain ⟨content, hcontent⟩ := hcollects.exists_decl hplace
    refine .bind (.lift (.of_eq (Step.decl_eq (h.grown.decls _ _ hcontent)) ?_))
    cases content with
    | function f =>
      have hreach : site.Reaches p₀ a (.function f) :=
        Site.reaches_of_below hplace hcontent (by rintro c ⟨⟩)
      refine (liftMethod_yields h (hdue a hsome _ hreach) hfunctions (hlodges a hsome)
        (.inr ⟨d, q, new, hq, hmem, hnew, rfl⟩)).mono ?_
      rintro x r' w' ⟨henters, hx⟩
      rw [hsome]
      exact ⟨henters, .some ⟨hx, _, hcontent, f, rfl⟩⟩
    | _ => exact .throw (h.blames rfl (.accessor hd hq hmem hcontent (by rintro f ⟨⟩)))

/-- **A property** is entered with its backing field and its accessors. -/
theorem liftProperty_yields (hsorted : p₀.Sorted site.root site.locals)
    (h : Ledger p₀ site none r w.program) (hturn : Turn p₀ site r d)
    (hlifted : ∀ e ∈ site.locals.lifted, (r.get? e).isSome) :
    Yields (liftProperty site d q) r w
      (fun _ r' w' => Enters p₀ site none (p₀.brought d) r w.program r' w'.program)
        (site.Blames p₀) := by
  have hbrought : p₀.brought d = q.backingField.toList ++ d
      :: (q.getter.toList ++ q.setter.toList) := by
    unfold Program.brought
    rw [hq]
  have hself : d ∈ p₀.brought d := by rw [hbrought]; simp
  -- where a part comes in what is brought along
  have hsub : ∀ {ds : List DeclId} {a? : Option DeclId}, (ds ++ a?.toList).Sublist (p₀.brought d) →
      ∀ a ∈ a?, (ds ++ [a]).Sublist (p₀.brought d) := by
    rintro ds a? hsub a ⟨⟩
    exact hsub
  unfold liftProperty
  refine .bind (memberDestination_yields hsorted h
    (fun k hk => hlifted k (List.mem_append_right _ hk)) hd hself hq
    fun {k c cls this} hparent hlodges => ?_)
  have hpart : ∀ {r' : Relocation} {p' : Program} {a : DeclId}, Records r w.program r' p' →
      a ∈ (Declaration.property q).listed →
      Lodges p₀ site r' p' a k c cls this := fun hrecords ha =>
    { hlodges.mono hrecords with houses := .inr ⟨d, q, hbelow, hq, ha, hparent⟩ }
  have hfunctions : ∀ {r' : Relocation} {p' : Program}, Records r w.program r' p' →
      ∀ e ∈ site.locals.functions.keys, (r'.get? e).isSome := by
    intro r' p' hrecords e he
    obtain ⟨y, hy⟩ := Option.isSome_iff_exists.1 (hlifted e (List.mem_append_left _ he))
    rw [hrecords.moved hy]
    rfl
  refine .bind ((liftBacking_yields hcollects hd hbelow hq h (fun b hb content hreach => ?_)
    fun b hb => hpart (.refl _ _) (by simp [Declaration.listed, Option.mem_def.1 hb])).mono ?_)
  · have hdomain : ∀ e, (r.get? e).isSome ↔ (r.get? e).isSome ∨ e ∈ ([] : List DeclId) := by simp
    refine hturn.due hreach hdomain (hsub ?_ b hb)
    rw [hbrought]
    exact List.sublist_append_left _ _
  rintro backingField r₁ w₁ ⟨henters₁, hbacking⟩
  have h₁ := henters₁.ledger
  have hreach : site.Reaches p₀ d (.property q) := Site.reaches_of_below hbelow hq (by rintro c ⟨⟩)
  have hdue : Due p₀ site r₁ d (.property q) := by
    refine hturn.due hreach henters₁.domain ?_
    rw [hbrought]
    exact (List.Sublist.refl _).append (List.singleton_sublist.2 List.mem_cons_self)
  refine addReplacement_yields h₁.toBooks rfl hdue.free fun hnone h₂ => ?_
  -- the property lacks its accessors for a moment
  have henters₂ : Enters p₀ site (some d) [d] r₁ w₁.program
      { r₁ with decls := r₁.decls.insert d w₁.program.decls.next } (w₁.program.allocDecl (.property
        { q with parent := some cls, backingField, getter := none, setter := none,
                 overrides := [] })).2 := by
    refine h₁.enter hdue (h₂.reserve ?_) (((Grows.refl _ _).addDecl _).relocate d _) .inl
      (fun e => Relocation.get?_relocate hnone) (by simp) fun hne => absurd rfl hne
    rw [Program.size_allocDecl]
    exact Nat.le_succ _
  have henters₂' := henters₁.trans henters₂
  have hd₂ := OrderedMap.get?_insert_self (a := w₁.program.decls.next) hnone
  refine .bind ((liftAccessor_yields hcollects hd hbelow hq (by simp +contextual) henters₂.ledger
    (fun a ha content hreach => hturn.due hreach henters₂'.domain (hsub ?_ a ha))
    (hfunctions henters₂'.grows.toRecords)
    (fun a ha => hpart henters₂'.grows.toRecords
      (by simp [Declaration.listed, Option.mem_def.1 ha])) hd₂).mono ?_)
  · rw [hbrought]
    simp
  rintro getter r₃ w₃ ⟨henters₃, hgetter⟩
  have henters₃' := henters₂'.trans henters₃
  refine .bind ((liftAccessor_yields hcollects hd hbelow hq (by simp +contextual) henters₃.ledger
    (fun a ha content hreach => hturn.due hreach henters₃'.domain (hsub ?_ a ha))
    (hfunctions henters₃'.grows.toRecords)
    (fun a ha => hpart henters₃'.grows.toRecords
      (by simp [Declaration.listed, Option.mem_def.1 ha]))
    (henters₃.grows.moved hd₂)).mono ?_)
  · rw [hbrought]
    simp
  rintro setter r₄ w₄ ⟨henters₄, hsetter⟩
  have henters₄' := henters₃'.trans henters₄
  have hsince := henters₃.grows.trans henters₄.grows
  obtain ⟨content, hcontent, herase⟩ := hsince.decls (Arena.get?_alloc_next _ _)
  refine .lift (.of_eq (Step.modifyDecl_eq hcontent) ?_)
  have hfield : ∀ f, content ≠ .field f := by
    rintro f rfl
    cases herase
  refine ⟨henters₄.ledger.settle hreach (hsince.moved hd₂) hcontent hfield rfl ?_, ?_, fun e => ?_⟩
  · exact .property (hlodges.mono henters₄'.grows.toRecords)
      (hbacking.mono (henters₂.grows.trans hsince).toRecords)
      (hgetter.mono henters₄.grows.toRecords) hsetter
  · -- the property was not there when its lifting began
    refine henters₄'.grows.setDecl fun hthere => absurd ?_ hthere
    rw [Arena.get?_eq_none_iff]
    exact henters₁.grows.decls_size_le
  · rw [henters₄'.domain, hbrought]
    simp

end

/-- **A member** is entered, accessors with their property. -/
theorem liftMember_yields (hsorted : p₀.Sorted site.root site.locals)
    (hcollects : p₀.Collects site.root) (hd : d ∈ site.locals.members)
    (h : Ledger p₀ site none r w.program) (hturn : Turn p₀ site r d)
    (hlifted : ∀ e ∈ site.locals.lifted, (r.get? e).isSome) :
    Yields (liftMember site d) r w
      (fun _ r' w' => Enters p₀ site none (p₀.brought d) r w.program r' w'.program)
        (site.Blames p₀) := by
  obtain ⟨hbelow, hmember, content, hcontent, hne⟩ := (hsorted.members d).1 hd
  have hclasses : ∀ k ∈ site.locals.classes.keys, (r.get? k).isSome :=
    fun k hk => hlifted k (List.mem_append_right _ hk)
  have hreach : site.Reaches p₀ d content :=
    Site.reaches_of_below hbelow hcontent fun c hc => absurd hc (hne c)
  unfold liftMember
  refine .bind (.lift (.of_eq (Step.decl_eq (h.grown.decls _ _ hcontent)) ?_))
  cases content with
  | function f =>
    simp only
    split
    next haccessor =>
      have hbrought : p₀.brought d = [] := by
        unfold Program.brought
        rw [hcontent]
        simp only [hmember, haccessor, ↓reduceIte]
      rw [hbrought]
      exact .pure (.refl h)
    next haccessor =>
      have haccessor : f.accessorOf = none := by simpa using haccessor
      have hbrought := Program.brought_eq_self hcontent (by rintro q ⟨⟩) fun f' hf' =>
        .inr (by cases hf'; exact haccessor)
      refine .bind (memberDestination_yields hsorted h hclasses hd
        (by simp [hbrought]) hcontent fun _ hlodges => ?_)
      rw [hbrought]
      exact .map ((liftMethod_yields h (hturn.due_self hreach hbrought)
        (fun e he => hlifted e (List.mem_append_left _ he))
        hlodges (.inl ⟨haccessor, rfl⟩)).mono fun _ _ _ hend => hend.1)
  | property q => exact liftProperty_yields hcollects hd hbelow hcontent hsorted h hturn hlifted
  | field f =>
    have hbrought := Program.brought_eq_self hcontent (by rintro q ⟨⟩) (by rintro f' ⟨⟩)
    refine .bind (memberDestination_yields hsorted h hclasses hd
      (by simp [hbrought]) hcontent fun _ hlodges => ?_)
    rw [hbrought]
    exact .map
      ((liftField_yields h (hturn.due_self hreach hbrought) hlodges).mono fun _ _ _ hend => hend.1)
  | cls c => exact .throw (h.blames rfl (.nested hd hcontent))
  | constructor c => exact absurd rfl (hne c)

end Lift

/-! ## §5. Member scopes. -/

/-- Exactly what these declarations bring along has replacements. -/
def Relocation.Covers (r : Relocation) (p : Program) (done : List DeclId) : Prop :=
  ∀ x, (r.get? x).isSome ↔ ∃ d ∈ done, x ∈ p.brought d

/-- What a replacement overrides and what can be named on it does not matter to its form. -/
theorem Ledger.rescope {x : DeclId} (h : Ledger p₀ site none r p) (hd : r.get? d = some x)
    (hx : p.decls.get? x = some content) (herase : content'.erase = content.erase)
    (hexposed : site.Sound p₀ → ∀ y ∈ content'.exposed, y.index < p.decls.size) :
    Ledger p₀ site none r (p.setDecl x content') ∧ Grows r p r (p.setDecl x content') := by
  have hgrows : Grows r p r (p.setDecl x content') :=
    (Grows.refl r p).setDecl fun _ => ⟨content, hx, herase⟩
  refine ⟨⟨?_, fun he hne => (h.renewed he hne).mono hgrows, h.brings, h.origins⟩, hgrows⟩
  rw [Program.size_setDecl]
  exact h.toBooks.setDecl _ hd hexposed

namespace Lift

theorem erase_withOverrides (ds : List DeclId) (content : Declaration) :
    (withOverrides ds content).erase = content.erase := by
  cases content <;> rfl

theorem erase_mapClass (scope : MemberScope) (content : Declaration) :
    (content.mapClass fun c => { c with scope }).erase = content.erase := by
  cases content <;> rfl

theorem mem_exposed_withOverrides {y : DeclId} (hy : y ∈ (withOverrides ds content).exposed) :
    y ∈ content.exposed ∨ y ∈ ds := by
  cases content with
  | function f => exact .inr hy
  | property q => exact .inr hy
  | _ => exact .inl hy

section

variable {p : Program} {r : Relocation}

/-- Replacements are there if declarations are. -/
theorem retarget_lt (hmoved : ∀ {d x}, r.get? d = some x → x.index < p.decls.size)
    (hd : d.index < p.decls.size) : (r.retarget d).index < p.decls.size := by
  unfold Relocation.retarget
  cases hx : r.get? d with
  | none => exact hd
  | some x => exact hmoved hx

/-- What a supertype offers is there. -/
theorem exists_offered (hp : p.ClosedAt p.decls.size)
    (hmoved : ∀ {d x}, r.get? d = some x → x.index < p.decls.size) {ty : Ty}
    (hty : ∀ d ∈ ty.classes, d.index < p.decls.size) :
    ∃ ds, offered p r ty = .ok ds ∧ ∀ d ∈ ds, d.index < p.decls.size := by
  cases ty with
  | cls sup =>
    obtain ⟨content, hsup⟩ := Arena.exists_get?_of_lt (hty sup (by simp [Ty.classes]))
    simp only [offered, Program.decl_eq_ok.2 hsup, Except.ok_bind]
    cases content with
    | cls c =>
      have hmembers : ∀ d ∈ (c.scope.declared ++ c.scope.inherited).map r.retarget,
          d.index < p.decls.size := by
        intro d hd
        obtain ⟨m, hm, rfl⟩ := List.mem_map.1 hd
        refine retarget_lt hmoved ((hp.decls hsup).1 m ?_)
        simp only [Declaration.namedDecls, List.mem_append] at hm ⊢
        tauto
      refine ⟨_,
        Except.filterM_eq_ok (g := fun d => ((p.decls.get? d).map isInheritable).getD false)
        fun d hd => ?_, fun d hd => hmembers d (List.mem_of_mem_filter hd)⟩
      obtain ⟨content, hd⟩ := Arena.exists_get?_of_lt (hmembers d hd)
      rw [Program.decl_eq_ok.2 hd, hd]
      rfl
    | _ => exact ⟨[], rfl, by simp⟩
  | _ => exact ⟨[], rfl, by simp⟩

/-- What comes through the supertypes is there. -/
theorem exists_inherited (hp : p.ClosedAt p.decls.size)
    (hmoved : ∀ {d x}, r.get? d = some x → x.index < p.decls.size) {supertypes : List Ty}
    (hty : ∀ d ∈ Ty.classesAll supertypes, d.index < p.decls.size) :
    ∃ ds, inherited p r supertypes = .ok ds ∧ ∀ d ∈ ds, d.index < p.decls.size := by
  have hclasses : ∀ tys : List Ty, ∀ ty ∈ tys, ∀ d ∈ ty.classes, d ∈ Ty.classesAll tys := by
    intro tys
    induction tys with
    | nil => intro ty hty; cases hty
    | cons ty' tys ih =>
      intro ty hty d hd
      rw [Ty.classesAll, List.mem_append]
      rcases List.mem_cons.1 hty with rfl | hty
      · exact .inl hd
      · exact .inr (ih ty hty d hd)
  obtain ⟨offers, hoffers, hall⟩ := Except.mapM_eq_ok fun ty (hmem : ty ∈ supertypes) =>
    exists_offered hp hmoved fun d hd => hty d (hclasses _ ty hmem d hd)
  unfold inherited
  rw [hoffers]
  refine ⟨_, rfl, fun d hd => ?_⟩
  obtain ⟨ds, hds, hd⟩ := List.mem_flatten.1 (OrderedSet.mem_ofList.1 hd)
  obtain ⟨_, -, hds⟩ := forall₂_left hall hds
  exact hds d hd

/-- The inherited members that a member overrides are among the inherited ones. -/
theorem exists_overridden {inherited : OrderedSet DeclId}
    (hinherited : ∀ d ∈ inherited, d.index < p.decls.size) {member : DeclId}
    (hmember : member.index < p.decls.size) :
    ∃ ds, overridden p inherited member = .ok ds ∧ ∀ d ∈ ds, d.index < p.decls.size := by
  obtain ⟨content, hm⟩ := Arena.exists_get?_of_lt hmember
  refine ⟨_,
    Except.filterM_eq_ok (g := fun d => ((p.decls.get? d).map (overrides content)).getD false)
    fun d hd => ?_, fun d hd => hinherited d (List.mem_of_mem_filter hd)⟩
  obtain ⟨content', hd'⟩ := Arena.exists_get?_of_lt (hinherited d hd)
  rw [Program.decl_eq_ok.2 hm, Program.decl_eq_ok.2 hd', hd']
  rfl

end

variable {p₀ : Program} {site : Site} {r : Relocation} {w : Work} {d : DeclId}

/-- **A class gets its member scope**, and its members what they override. -/
theorem setMemberScope_yields (hsorted : p₀.Sorted site.root site.locals)
    (hd : d ∈ site.locals.classes.keys) (h : Ledger p₀ site none r w.program)
    (hcovers : r.Covers p₀ site.locals.tables) :
    Yields (setMemberScope d) r w (fun _ r' w' => r' = r ∧ Ledger p₀ site none r w'.program)
      (site.Blames p₀) := by
  obtain ⟨-, -, c, hc⟩ := (hsorted.classes d).1 hd
  have hbrought := Program.brought_eq_self hc (by rintro q ⟨⟩) (by rintro f ⟨⟩)
  have htables : d ∈ site.locals.tables := by simp [Locals.tables, hd]
  obtain ⟨new, hnew⟩ := Option.isSome_iff_exists.1 ((hcovers d).2 ⟨d, htables, by simp [hbrought]⟩)
  have hlt : ∀ {d x}, r.get? d = some x → x.index < w.program.decls.size :=
    fun hx => (h.images hx).2
  have hinherited : site.Sound p₀ → ∃ ds, inherited w.program r c.supertypes = .ok ds
      ∧ ∀ x ∈ ds, x.index < w.program.decls.size := fun hsound =>
    exists_inherited (h.closedAt hsound) hlt fun x hx =>
      (hsound.names hc h.grown).decls x (by simp [Declaration.namedDecls, hx])
  unfold setMemberScope
  refine .bind (.lift (.of_eq (Step.decl_eq (h.grown.decls _ _ hc)) ?_))
  simp only [Declaration.cls?]
  refine .read
    (.bind (.ask (fun x hx => ?_) fun f hf => by cases hf.symm.trans (Relocation.lifted_eq hnew)))
  obtain rfl : new = x := Except.ok.inj ((Relocation.lifted_eq hnew).symm.trans hx)
  refine .bind (Yields.mono (Yields.mapM (fun _ declared r' w' => r' = r ∧ w' = w
    ∧ ∀ x ∈ declared, ∃ m, r.get? m = some x) ?_ ⟨rfl, rfl, by simp⟩) ?_)
  · rintro done m rest declared r' w' hsplit ⟨rfl, rfl, hdeclared⟩
    cases hm : r'.get? m with
    | none =>
      have hmem : m ∈ c.scope.declared := by rw [hsplit]; simp
      refine .lift (.throw (h.blames rfl (.unlisted hd hc hmem fun hbrings => ?_)))
      have hsome := (hcovers m).2 hbrings
      rw [hm] at hsome
      cases hsome
    | some x =>
      refine .lift (.pure ⟨rfl, rfl, fun y hy => ?_⟩)
      rcases List.mem_append.1 hy with hy | hy
      · exact hdeclared y hy
      · obtain rfl := List.mem_singleton.1 hy
        exact ⟨m, hm⟩
  rintro declared r w ⟨rfl, rfl, hdeclared⟩
  refine .bind (.lift
    (.program (.bind (.ask (fun inherited heq => ?_) fun f hf => ⟨h.grown, fun hsound => ?_⟩))))
  · have hall : site.Sound p₀ → ∀ x ∈ inherited, x.index < w.program.decls.size := by
      intro hsound
      obtain ⟨ds, hds, hall⟩ := hinherited hsound
      obtain rfl : ds = inherited := Except.ok.inj (hds.symm.trans heq)
      exact hall
    refine .bind
      (Yields.mono (Yields.mapM (fun _ _ r' w' => r' = r ∧ Ledger p₀ site none r w'.program
        ∧ Grows r w.program r w'.program) ?_ ⟨rfl, h, .refl _ _⟩) ?_)
    · rintro done x rest taken r' w' hsplit ⟨rfl, h', hgrows⟩
      obtain ⟨m, hm⟩ := hdeclared x (by simp [hsplit])
      obtain ⟨content, hcontent⟩ := Arena.exists_get?_of_lt (h'.images hm).2
      have hoverridden : site.Sound p₀ → ∃ ds, overridden w'.program inherited x = .ok ds
          ∧ ∀ y ∈ ds, y.index < w'.program.decls.size := fun hsound =>
        exists_overridden
          (fun y hy => (hall hsound y hy).trans_le hgrows.decls_size_le) (h'.images hm).2
      refine .lift (.bind
        (.program (.bind (.ask (fun ds hds => .bind (.of_eq (Step.modifyDecl_eq hcontent) ?_))
        fun f hf => ⟨h'.grown, fun hsound => ?_⟩))))
      · obtain ⟨h'', hgrows'⟩ :=
          h'.rescope hm hcontent (erase_withOverrides ds content) fun hsound y hy => by
          rcases mem_exposed_withOverrides hy with hy | hy
          · exact h'.exposed hsound (h'.images hm).1 hcontent y hy
          · obtain ⟨ds', hds', hbound⟩ := hoverridden hsound
            obtain rfl : ds' = ds := Except.ok.inj (hds'.symm.trans hds)
            exact hbound y hy
        exact .pure ⟨rfl, h'', hgrows.trans hgrows'⟩
      · obtain ⟨ds, hds, -⟩ := hoverridden hsound
        cases hf.symm.trans hds
    rintro taken r w' ⟨rfl, h', hgrows⟩
    obtain ⟨content, hcontent, hrenews⟩ := h'.renews hnew hc
    generalize herase : content.erase = erased at hrenews
    cases hrenews with
    | cls _ _ _ _ _ hfields _ _ hcontext =>
      obtain ⟨scope, rfl⟩ := Declaration.eq_cls_of_erase herase
      refine .bind (.ask
        (fun context hc' => ?_) fun f hf => by cases hf.symm.trans (Relocation.context_eq hcontext))
      obtain rfl := Except.ok.inj ((Relocation.context_eq hcontext).symm.trans hc')
      refine .lift
        (.of_eq (Step.modifyDecl_eq hcontent) ⟨rfl, (h'.rescope hnew hcontent (erase_mapClass _ _)
        fun hsound y hy => ?_).1⟩)
      simp only [Declaration.mapClass, Declaration.exposed, capturedFieldsOf, List.mem_append] at hy
      rcases hy with (hy | hy) | hy
      · obtain ⟨m, hm⟩ := hdeclared y hy
        exact (h'.images hm).2
      · exact (h'.fields hcontext y hy).1
      · exact (hall hsound y (List.mem_of_mem_filter hy)).trans_le hgrows.decls_size_le
  · obtain ⟨ds, hds, -⟩ := hinherited hsound
    cases hf.symm.trans hds

end Lift

/-! ## §6. Everything below one root. -/

/-- No declaration is in the tables twice. -/
theorem Program.Sorted.tables_nodup (h : p.Sorted root l) : l.tables.Nodup := by
  unfold Locals.tables
  refine List.nodup_append.2
    ⟨List.nodup_append.2 ⟨List.nodup_append.2 ⟨l.functions.keys_nodup, l.classes.keys_nodup, ?_⟩,
    l.constructors.nodup, ?_⟩, l.members.nodup, ?_⟩
  · rintro d hf _ hc rfl
    obtain ⟨-, -, f, hf⟩ := (h.functions d).1 hf
    obtain ⟨-, -, c, hc⟩ := (h.classes d).1 hc
    cases hf.symm.trans hc
  · rintro d hd _ hc rfl
    obtain ⟨-, c, hc⟩ := (h.constructors d).1 hc
    rcases List.mem_append.1 hd with hd | hd
    · obtain ⟨-, -, f, hf⟩ := (h.functions d).1 hd
      cases hf.symm.trans hc
    · obtain ⟨-, -, c', hc'⟩ := (h.classes d).1 hd
      cases hc'.symm.trans hc
  · rintro d hd _ hm rfl
    obtain ⟨-, hmember, content, hcontent, hne⟩ := (h.members d).1 hm
    rcases List.mem_append.1 hd with hd | hd
    · rcases List.mem_append.1 hd with hd | hd
      · cases hmember.symm.trans ((h.functions d).1 hd).2.1
      · cases hmember.symm.trans ((h.classes d).1 hd).2.1
    · obtain ⟨-, c, hc⟩ := (h.constructors d).1 hd
      exact hne c (Option.mem_unique hcontent hc)

/-- A local function or class that was brought along has its replacement. -/
theorem Relocation.Covers.isSome_of_lifted {done : List DeclId} (h : r.Covers p done)
    (hsorted : p.Sorted root l) (hdone : ∀ d ∈ l.lifted, d ∈ done) :
    ∀ d ∈ l.lifted, (r.get? d).isSome := by
  intro d hd
  refine (h d).2 ⟨d, hdone d hd, ?_⟩
  rcases List.mem_append.1 hd with hd | hd
  · obtain ⟨-, hmember, f, hf⟩ := (hsorted.functions d).1 hd
    rw [Program.brought_eq_self hf (by rintro q ⟨⟩) fun _ _ => .inl hmember]
    exact List.mem_singleton_self d
  · obtain ⟨-, -, c, hc⟩ := (hsorted.classes d).1 hd
    rw [Program.brought_eq_self hc (by rintro q ⟨⟩) (by rintro f ⟨⟩)]
    exact List.mem_singleton_self d

namespace Lift

variable {p₀ : Program} {site : Site} {r : Relocation} {w : Work}

/-- **A table is entered**, after those before it. -/
theorem table_yields {f : DeclId → Lift PUnit} {base table : List DeclId}
    (hnodup : (base ++ table).Nodup) (htables : ∀ d ∈ base ++ table, d ∈ site.locals.tables)
    (hf : ∀ d ∈ table, ∀ {r w done}, Ledger p₀ site none r w.program →
      r.Covers p₀ (base ++ done) → Turn p₀ site r d →
      Yields (f d) r w (fun _ r' w' => Enters p₀ site none (p₀.brought d) r w.program r' w'.program)
        (site.Blames p₀))
    (h : Ledger p₀ site none r w.program) (hcovers : r.Covers p₀ base) :
    Yields (table.forM f) r w
      (fun _ r' w' => Ledger p₀ site none r' w'.program ∧ r'.Covers p₀ (base ++ table))
        (site.Blames p₀) := by
  refine Yields.forM
    (fun done r' w' => Ledger p₀ site none r' w'.program ∧ r'.Covers p₀ (base ++ done)) ?_
    ⟨h, by rwa [List.append_nil]⟩
  rintro done d rest r₁ w₁ rfl ⟨h₁, hcovers₁⟩
  have hd : d ∈ site.locals.tables := htables d (by simp)
  have hturn : Turn p₀ site r₁ d := by
    refine ⟨hd, fun x hx hsome => ?_⟩
    obtain ⟨e, he, hxe⟩ := (hcovers₁ x).1 hsome
    have hne : d ≠ e := by
      rintro rfl
      rw [← List.append_assoc] at hnodup
      exact (List.nodup_append.1 hnodup).2.2 d he d List.mem_cons_self rfl
    have he' : e ∈ base ++ (done ++ d :: rest) := by
      rw [← List.append_assoc]
      exact List.mem_append_left _ he
    exact .twice hd (htables e he') hne hx hxe
  refine (hf d (by simp) h₁ hcovers₁ hturn).mono ?_
  rintro _ r₂ w₂ henters
  refine ⟨henters.ledger, fun x => ?_⟩
  rw [henters.domain, hcovers₁, ← List.append_assoc]
  simp only [List.mem_append, List.mem_singleton, or_and_right, exists_or, exists_eq_left]

/-- **Every declaration gets its replacement** before the first class gets its member scope. -/
theorem relocateAll_yields (hsorted : w.program.Sorted site.root site.locals)
    (hcollects : w.program.Collects site.root) {ok : PUnit → Relocation → Work → Prop}
    {err : Fault → Work → Prop} (herr : ∀ f w', site.Blames w.program f w' → err f w')
    (hscopes : ∀ r w', Ledger w.program site none r w'.program →
      r.Covers w.program site.locals.tables →
      Yields (site.locals.classes.keys.forM setMemberScope) r w' ok err) :
    Yields (relocateAll site) {} w ok err := by
  obtain ⟨rootDecl, hroot, -⟩ := hcollects.ends
  have hnodup := hsorted.tables_nodup
  unfold Locals.tables at hnodup
  have hnodup₃ := (List.nodup_append.1 hnodup).1
  have hnodup₂ := (List.nodup_append.1 hnodup₃).1
  have hfunctions : Yields (site.locals.functions.keys.forM (liftFunction site))
      {} w (fun _ r' w' => Ledger w.program site none r' w'.program
        ∧ r'.Covers w.program ([] ++ site.locals.functions.keys))
      (site.Blames w.program) := by
    refine table_yields (by simpa using (List.nodup_append.1 hnodup₂).1)
      (by simp +contextual [Locals.tables])
      (fun d hd {r w' done} h _ hturn => liftFunction_yields hsorted hroot h hturn hd)
      (.start _ _) fun x => ?_
    simp only [List.not_mem_nil, false_and, exists_false, iff_false]
    rintro ⟨⟩
  unfold relocateAll
  refine .bind ((hfunctions.mono ?_).weaken herr)
  rintro _ r₁ w₁ ⟨h₁, hcovers₁⟩
  refine .bind (((table_yields hnodup₂ ?_
    (fun d hd {r w' done} h _ hturn => liftClass_yields hsorted hroot h hturn hd) h₁
    hcovers₁).mono ?_).weaken herr)
  · simp +contextual [Locals.tables, or_imp]
  rintro _ r₂ w₂ ⟨h₂, hcovers₂⟩
  refine .bind (((table_yields hnodup₃ ?_ (fun d hd {r w' done} h hcovers hturn =>
    liftConstructor_yields hsorted h hturn hd fun k hk =>
      hcovers.isSome_of_lifted hsorted (fun e he =>
      List.mem_append_left _ he) k (List.mem_append_right _ hk)) h₂ hcovers₂).mono ?_).weaken herr)
  · simp +contextual [Locals.tables, or_imp]
  rintro _ r₃ w₃ ⟨h₃, hcovers₃⟩
  refine .bind (((table_yields hnodup (fun d hd => hd) (fun d hd {r w' done} h hcovers hturn =>
    liftMember_yields hsorted hcollects hd h hturn (hcovers.isSome_of_lifted hsorted fun e he =>
      List.mem_append_left _ (List.mem_append_left _ he))) h₃ hcovers₃).mono ?_).weaken herr)
  rintro _ r₄ w₄ ⟨h₄, hcovers₄⟩
  exact hscopes r₄ w₄ h₄ hcovers₄

/-- **All signatures are built**: the ledger is consistent, every replacement has its form, and
exactly what the tables bring along has replacements. -/
theorem relocation_yields (hsorted : w.program.Sorted site.root site.locals)
    (hcollects : w.program.Collects site.root) :
    (relocation site).Yields w (fun r w' => Ledger w.program site none r w'.program
      ∧ r.Covers w.program site.locals.tables) (site.Blames w.program) := by
  have hall : Yields (relocateAll site) {} w (fun _ r w' => Ledger w.program site none r w'.program
      ∧ r.Covers w.program site.locals.tables) (site.Blames w.program) := by
    refine relocateAll_yields hsorted hcollects (fun _ _ h => h) fun r w' h hcovers => ?_
    refine (Yields.forM (fun _ r' w'' => r' = r ∧ Ledger w.program site none r w''.program)
      ?_ ⟨rfl, h⟩).mono ?_
    · rintro done d rest r' w'' hsplit ⟨rfl, h'⟩
      exact setMemberScope_yields hsorted (by simp [hsplit]) h' hcovers
    · rintro _ r' w'' ⟨rfl, h'⟩
      exact ⟨h', hcovers⟩
  exact Step.Yields.bind (Step.Yields.mono hall fun y w' h => .pure h)

end Lift

/-- The ledger after all signatures of a root were built. -/
theorem ledger_of_relocation {q : Program} {settings : Settings} {closures : Closures}
    {events' : List Event} (hlocals : p.locals root = .ok l)
    (hrelocation : Lift.relocation ⟨settings, root, l, closures⟩ ⟨p, events⟩ = .ok r ⟨q, events'⟩) :
    Ledger p ⟨settings, root, l, closures⟩ none r q ∧ r.Covers p l.tables := by
  obtain ⟨hsorted, hcollects⟩ := Program.locals_spec hlocals
  have h := @Lift.relocation_yields ⟨settings, root, l, closures⟩ ⟨p, events⟩ hsorted hcollects
  unfold Step.Yields at h
  rwa [hrelocation] at h

end LambdaLift
