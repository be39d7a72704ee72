/-
  LambdaLift.Proofs.Growth
  **WHILE SIGNATURES ARE BUILT, PROGRAM AND RELOCATION ONLY GROW.**

  Lifting adds declarations and values and records where things went.
  What was there stays, up to what a declaration overrides and which
  members can be named on a class (`Grows`); so a fact about an entry, once
  established, holds to the end.  In the end replacements and counterparts
  are new entries, no two of them are the same, and every handle leads
  somewhere (`Lifting`).

  Main results:
    * `Grows.trans` — growth composes;
    * `Grows.addValue`, `Grows.addDecl`, `Grows.carry`, `Grows.pair`,
      `Grows.relocate`, `Grows.setContext`, `Grows.setDecl` — each
      elementary step is growth.
-/
import Mathlib
import LambdaLift.Lift.Member
import LambdaLift.Proofs.Closed

namespace LambdaLift

variable {p : Program} {d : DeclId} {content : Declaration} {node : Expr}

/-! ## §1. Entries that stay. -/

namespace Arena

variable {kind : Entity} {α : Type}

/-- Every entry of the one arena is in the other. -/
def Keeps (a b : Arena kind α) : Prop := ∀ h x, a.get? h = some x → b.get? h = some x

theorem Keeps.refl (a : Arena kind α) : a.Keeps a := fun _ _ h => h

theorem Keeps.trans {a b c : Arena kind α} (h : a.Keeps b) (h' : b.Keeps c) : a.Keeps c :=
  fun x y hx => h' x y (h x y hx)

theorem keeps_alloc (a : Arena kind α) (x : α) : a.Keeps (a.alloc x).2 :=
  fun _ _ h => get?_alloc_of_some x h

theorem Keeps.size_le {a b : Arena kind α} (h : a.Keeps b) : a.size ≤ b.size := by
  rcases Nat.eq_zero_or_pos a.size with h0 | hpos
  · omega
  · obtain ⟨x, hx⟩ :=
      exists_get?_of_lt (a := a) (h := ⟨a.size - 1⟩) (by show a.size - 1 < a.size; omega)
    have hlt := lt_size_of_get? (h _ _ hx)
    simp only at hlt
    omega

end Arena

namespace Program

theorem size_allocDecl (p : Program) (content : Declaration) :
    (p.allocDecl content).2.decls.size = p.decls.size + 1 := Arena.size_alloc _ _

theorem size_allocValue (p : Program) (value : Value) :
    (p.allocValue value).2.values.size = p.values.size + 1 := Arena.size_alloc _ _

theorem size_allocExpr (p : Program) (node : Expr) :
    (p.allocExpr node).2.exprs.size = p.exprs.size + 1 := Arena.size_alloc _ _

theorem size_setDecl (p : Program) (d : DeclId) (content : Declaration) :
    (p.setDecl d content).decls.size = p.decls.size := Arena.size_set _ _ _

/-- Looking up declarations after one that was there has been written to. -/
theorem get?_setDecl {old : Declaration} (hd : p.decls.get? d = some old) (content : Declaration)
    (x : DeclId) :
    (p.setDecl d content).decls.get? x = if x = d then some content else p.decls.get? x := by
  show (p.decls.set d content).get? x = _
  rw [Arena.get?_set]
  simp only [Arena.lt_size_of_get? hd, and_true]

end Program

/-- A declaration without what it overrides and what can be named on it. -/
def Declaration.erase : Declaration → Declaration
  | .function f => .function { f with overrides := [] }
  | .constructor c => .constructor c
  | .cls c => .cls { c with scope := {} }
  | .property q => .property { q with overrides := [] }
  | .field f => .field f

namespace Declaration

variable {content : Declaration}

theorem eq_function_of_erase {f : FunctionDecl} (h : content.erase = .function f) :
    ∃ overrides, content = .function { f with overrides } := by
  cases content with
  | function g =>
    cases h
    exact ⟨g.overrides, rfl⟩
  | _ => cases h

theorem eq_constructor_of_erase {c : ConstructorDecl} (h : content.erase = .constructor c) :
    content = .constructor c := by
  cases content with
  | constructor c' => exact h
  | _ => cases h

theorem eq_cls_of_erase {c : ClassDecl} (h : content.erase = .cls c) :
    ∃ scope, content = .cls { c with scope } := by
  cases content with
  | cls c' =>
    cases h
    exact ⟨c'.scope, rfl⟩
  | _ => cases h

theorem eq_property_of_erase {q : PropertyDecl} (h : content.erase = .property q) :
    ∃ overrides, content = .property { q with overrides } := by
  cases content with
  | property q' =>
    cases h
    exact ⟨q'.overrides, rfl⟩
  | _ => cases h

theorem eq_field_of_erase {f : FieldDecl} (h : content.erase = .field f) : content = .field f := by
  cases content with
  | field f' => exact h
  | _ => cases h

@[simp]
theorem erase_erase (content : Declaration) : content.erase.erase = content.erase := by
  cases content <;> rfl

theorem parent_erase : content.erase.parent = content.parent := by
  cases content <;> rfl

theorem name_erase : content.erase.name = content.name := by
  cases content <;> rfl

theorem namedValues_erase : content.erase.namedValues = content.namedValues := by
  cases content <;> rfl

theorem code_erase : content.erase.code = content.code := by
  cases content <;> rfl

end Declaration

namespace OrderedMap

variable {κ α : Type} [DecidableEq κ] {m : OrderedMap κ α} {k j : κ} {a b : α}

theorem get?_insert_of_some (h : m.get? j = some b) : (m.insert k a).get? j = some b := by
  rw [get?_insert]
  split
  · rename_i hjk
    have hnone := get?_eq_none_iff.2 hjk.2
    rw [← hjk.1, h] at hnone
    cases hnone
  · exact h

theorem get?_insert_self (h : m.get? k = none) : (m.insert k a).get? k = some a := by
  rw [get?_insert, if_pos ⟨rfl, get?_eq_none_iff.1 h⟩]

/-- What an insertion can have changed. -/
theorem of_get?_insert (h : (m.insert k a).get? j = some b) :
    m.get? j = some b ∨ j = k ∧ b = a := by
  rw [get?_insert] at h
  split at h
  · rename_i hjk
    exact .inr ⟨hjk.1, (Option.some.inj h).symm⟩
  · exact .inl h

/-- Inserting a key that is there changes nothing. -/
theorem insert_of_some (h : m.get? k = some b) : m.insert k a = m := by
  have hk : k ∈ m.keys := by
    by_contra hn
    rw [get?_eq_none_iff.2 hn] at h
    cases h
  unfold insert
  rw [dif_pos (contains_iff.2 hk)]

theorem entries_insert (h : k ∉ m.keys) (a : α) :
    (m.insert k a).entries = m.entries ++ [(k, a)] := by
  unfold insert
  rw [dif_neg fun hc => h (contains_iff.1 hc)]

theorem entries_insertAll {es : List (κ × α)} (m : OrderedMap κ α)
    (h : (m.keys ++ es.map (·.1)).Nodup) : (m.insertAll es).entries = m.entries ++ es := by
  induction es generalizing m with
  | nil => simp [insertAll]
  | cons e es ih =>
    have hnew : e.1 ∉ m.keys := by
      intro hmem
      exact (List.nodup_append.1 h).2.2 _ hmem _ List.mem_cons_self rfl
    show ((m.insert e.1 e.2).insertAll es).entries = m.entries ++ e :: es
    rw [ih _ (by rw [keys_insert, if_neg hnew]; simpa using h),
      entries_insert hnew, List.append_assoc]
    rfl

/-- A list without repeated keys is the map's list of entries. -/
theorem entries_ofList {es : List (κ × α)} (h : (es.map (·.1)).Nodup) : (ofList es).entries = es :=
  entries_insertAll empty (by simpa [empty, keys] using h)

section

variable {ks : List κ} {as : List α} (hks : ks.Nodup) (hlength : ks.length = as.length)

include hks hlength

/-- What was put together from two lists is the map's list of entries. -/
theorem entries_ofList_zip : (ofList (ks.zip as)).entries = ks.zip as :=
  entries_ofList (by rwa [List.map_fst_zip hlength.le])

theorem keys_ofList_zip : (ofList (ks.zip as)).keys = ks := by
  unfold keys
  rw [entries_ofList_zip hks hlength, List.map_fst_zip hlength.le]

theorem values_ofList_zip : (ofList (ks.zip as)).values = as := by
  unfold values
  rw [entries_ofList_zip hks hlength, List.map_snd_zip hlength.ge]

end

end OrderedMap

namespace Bijection

variable {α β : Type} [DecidableEq α] [DecidableEq β] {t : Bijection α β} {a : α} {b : β}

/-- Neither side of the pair has another partner. -/
def Agrees (t : Bijection α β) (a : α) (b : β) : Prop :=
  (t.forth? a = none ∨ t.forth? a = some b) ∧ (t.back? b = none ∨ t.back? b = some a)

/-- Why a pair is refused: for the partner of its left side, and only if that agrees for the
partner of its right side. -/
def Refuses (t : Bijection α β) (a : α) (b : β) (c : Conflict α β) : Prop :=
  (∃ current, t.forth? a = some current ∧ current ≠ b ∧ c = .forth a current b)
    ∨ (t.forth? a = none ∨ t.forth? a = some b)
      ∧ ∃ current, t.back? b = some current ∧ current ≠ a ∧ c = .back b current a

theorem agrees_or_refuses (t : Bijection α β) (a : α) (b : β) :
    t.Agrees a b ∨ ∃ c, t.Refuses a b c := by
  have right (ha : t.forth? a = none ∨ t.forth? a = some b) :
      t.Agrees a b ∨ ∃ c, t.Refuses a b c := by
    cases hb : t.back? b with
    | none => exact .inl ⟨ha, .inl hb⟩
    | some current =>
      by_cases hne : current = a
      · exact .inl ⟨ha, .inr (hne ▸ hb)⟩
      · exact .inr ⟨_, .inr ⟨ha, current, hb, hne, rfl⟩⟩
  -- the left side is looked at first, and only if it agrees the right one
  cases ha : t.forth? a with
  | none => exact right (.inl ha)
  | some current =>
    by_cases hne : current = b
    · exact right (.inr (hne ▸ ha))
    · exact .inr ⟨_, .inl ⟨current, ha, hne, rfl⟩⟩

/-- A pair that agrees with the table is written to both indexes. -/
theorem insert_of_agrees (h : t.Agrees a b) :
    insert a b t = .ok () ⟨t.forward.insert a b, t.backward.insert b a⟩ := by
  obtain ⟨ha | ha, hb | hb⟩ := h
  all_goals
    simp only [insert, bind, EStateM.bind, get, getThe, MonadStateOf.get, EStateM.get, ha, hb,
      ne_eq, not_true_eq_false, if_false]
    rfl

/-- A pair is refused before anything is written. -/
theorem insert_of_refuses {c : Conflict α β} (h : t.Refuses a b c) : insert a b t = .error c t := by
  obtain ⟨current, ha, hne, rfl⟩ | ⟨ha | ha, current, hb, hne, rfl⟩ := h
  · simp only [insert, bind, EStateM.bind, get, getThe, MonadStateOf.get, EStateM.get, ha, ne_eq,
      hne, not_false_eq_true, if_true]
    rfl
  all_goals
    simp only [insert, bind, EStateM.bind, get, getThe, MonadStateOf.get, EStateM.get, ha, hb,
      ne_eq, hne, not_true_eq_false, not_false_eq_true, if_true, if_false]
    rfl

/-- A pair of new partners is accepted. -/
theorem insert_new (ha : t.forth? a = none) (hb : t.back? b = none) :
    insert a b t = .ok () ⟨t.forward.insert a b, t.backward.insert b a⟩ :=
  insert_of_agrees ⟨.inl ha, .inl hb⟩

/-- A pair that is there already is accepted and changes nothing. -/
theorem insert_same (ha : t.forth? a = some b) (hb : t.back? b = some a) :
    insert a b t = .ok () t := by
  rw [insert_of_agrees ⟨.inr ha, .inr hb⟩, OrderedMap.insert_of_some (m := t.forward) ha,
    OrderedMap.insert_of_some (m := t.backward) hb]

end Bijection

/-- The relocation with a pair of new counterparts. -/
def Relocation.pair (r : Relocation) (v x : ValueId) : Relocation :=
  { r with values := ⟨r.values.forward.insert v x, r.values.backward.insert x v⟩ }

namespace Relocation

variable {r : Relocation} {v x : ValueId}

theorem forth_pair (hv : r.values.forth? v = none) : (r.pair v x).values.forth? v = some x :=
  OrderedMap.get?_insert_self hv

theorem back_pair_of_ne {y : ValueId} (hy : y ≠ x) :
    (r.pair v x).values.back? y = r.values.back? y := by
  show OrderedMap.get? (r.values.backward.insert x v) y = _
  rw [OrderedMap.get?_insert, if_neg fun hyx => hy hyx.1]
  rfl

end Relocation

/-! ## §2. Growth. -/

/-- Records, values and fields have grown. -/
structure Records (r : Relocation) (p : Program) (r' : Relocation) (p' : Program) : Prop where
  fields : ∀ {d f}, p.decls.get? d = some (.field f) → p'.decls.get? d = some (.field f)
  values : p.values.Keeps p'.values
  moved : ∀ {d x}, r.get? d = some x → r'.get? d = some x
  forth : ∀ {v x}, r.values.forth? v = some x → r'.values.forth? v = some x
  carried : ∀ {x v}, r.carried.get? x = some v → r'.carried.get? x = some v
  contexts : ∀ {d c}, r.contexts.get? d = some c → r'.contexts.get? d = some c

/-- Program and relocation have grown. -/
structure Grows (r : Relocation) (p : Program) (r' : Relocation) (p' : Program) : Prop
    extends Records r p r' p' where
  decls : ∀ {d content}, p.decls.get? d = some content →
    ∃ content', p'.decls.get? d = some content' ∧ content'.erase = content.erase

section

variable {r r' r'' : Relocation} {p p' p'' : Program}

theorem Records.refl (r : Relocation) (p : Program) : Records r p r p where
  fields h := h
  values := .refl _
  moved h := h
  forth h := h
  carried h := h
  contexts h := h

theorem Records.trans (h : Records r p r' p') (h' : Records r' p' r'' p'') :
    Records r p r'' p'' where
  fields hd := h'.fields (h.fields hd)
  values := h.values.trans h'.values
  moved hd := h'.moved (h.moved hd)
  forth hv := h'.forth (h.forth hv)
  carried hx := h'.carried (h.carried hx)
  contexts hd := h'.contexts (h.contexts hd)

theorem Grows.refl (r : Relocation) (p : Program) : Grows r p r p where
  toRecords := .refl r p
  decls h := ⟨_, h, rfl⟩

theorem Grows.trans (h : Grows r p r' p') (h' : Grows r' p' r'' p'') : Grows r p r'' p'' where
  toRecords := h.toRecords.trans h'.toRecords
  decls hd := by
    obtain ⟨content', hd', heq⟩ := h.decls hd
    obtain ⟨content'', hd'', heq'⟩ := h'.decls hd'
    exact ⟨content'', hd'', heq'.trans heq⟩

theorem Grows.decls_size_le (h : Grows r p r' p') : p.decls.size ≤ p'.decls.size := by
  by_contra hlt
  obtain ⟨content, hd⟩ :=
    Arena.exists_get?_of_lt (a := p.decls) (h := ⟨p'.decls.size⟩) (Nat.lt_of_not_le hlt)
  obtain ⟨content', hd', -⟩ := h.decls hd
  exact absurd (Arena.lt_size_of_get? hd') (Nat.lt_irrefl _)

end

/-! ## §3. Names that lead somewhere, with one handle to spare. -/

namespace Program

/-- Every handle that a node names has an entry, if handles of declarations below `n` count as
having one. -/
def Knows (p : Program) (n : Nat) (node : Expr) : Prop :=
  (∀ d ∈ node.namedDecls, d.index < n) ∧ (∀ v ∈ node.namedValues, v.index < p.values.size)
    ∧ ∀ x ∈ node.operands, x.index < p.exprs.size

/-- Every handle that occurs anywhere in the program has an entry, if handles of declarations below
`n` count as having one. -/
structure ClosedAt (n : Nat) (p : Program) : Prop where
  decls : ∀ {d content}, p.decls.get? d = some content → (∀ x ∈ content.namedDecls, x.index < n)
    ∧ (∀ v ∈ content.namedValues, v.index < p.values.size) ∧ ∀ e ∈ content.code,
      e.index < p.exprs.size
  values : ∀ {v value}, p.values.get? v = some value → value.owner.index < n
    ∧ ∀ d ∈ value.ty.classes, d.index < n
  exprs : ∀ {e node}, p.exprs.get? e = some node → p.Knows n node
  top : ∀ d ∈ p.top, d.index < n

theorem closed_iff : p.Closed ↔ p.ClosedAt p.decls.size := by
  constructor
  · rintro ⟨hdecls, hvalues, hexprs, htop⟩
    refine ⟨fun hd => ?_, fun hv => ?_, fun he => ?_, htop⟩
    · obtain ⟨h₁, h₂, h₃⟩ := hdecls _ (Arena.mem_entries_of_get? hd)
      exact ⟨h₁, h₂, fun e he => h₃ e (by simpa using he)⟩
    · exact hvalues _ (Arena.mem_entries_of_get? hv)
    · exact hexprs _ (Arena.mem_entries_of_get? he)
  · rintro ⟨hdecls, hvalues, hexprs, htop⟩
    have entry : ∀ {kind : Entity} {α : Type} (a : Arena kind α) {x : α}, x ∈ a.entries.toList →
        ∃ h : Handle kind, a.get? h = some x := by
      intro kind α a x hx
      obtain ⟨i, hi, rfl⟩ := List.mem_iff_getElem.1 hx
      exact ⟨⟨i⟩, by simp only [Arena.get?]; simp at hi; simp [hi]⟩
    refine ⟨fun content hc => ?_, fun value hv => ?_, fun node hn => ?_, htop⟩
    · obtain ⟨d, hd⟩ := entry _ hc
      obtain ⟨h₁, h₂, h₃⟩ := hdecls hd
      exact ⟨h₁, h₂, fun e he => h₃ e (by simpa using he)⟩
    · obtain ⟨v, hv⟩ := entry _ hv
      exact hvalues hv
    · obtain ⟨e, he⟩ := entry _ hn
      exact hexprs he

end Program

/-! ## §4. The invariant. -/

/-- While the declarations below a root get their replacements.  Replacements stand in `dest` or in
a replacement that does; `done` are the declarations that have been dealt with. -/
structure Lifting (p₀ : Program) (dest : Option DeclId) (done : DeclId → Prop) (n : Nat)
    (r : Relocation) (p : Program) : Prop where
  exprs : p.exprs = p₀.exprs
  top : p.top = p₀.top
  decls : p₀.decls.Keeps p.decls
  values : p₀.values.Keeps p.values
  closed : p.ClosedAt n
  parents : ∀ {x content}, p₀.decls.size ≤ x.index → p.decls.get? x = some content →
    content.parent = dest ∨ ∃ y outer, content.parent = some y ∧ p.decls.get? y = some outer
    ∧ outer.parent = dest
  moved : ∀ {d x}, r.get? d = some x → done d ∧ p₀.decls.size ≤ x.index ∧ x.index < p.decls.size
  inj : ∀ {d d' x}, r.get? d = some x → r.get? d' = some x → d = d'
  forth : ∀ {v x}, r.values.forth? v = some x →
    (∃ value, p₀.values.get? v = some value ∧ done value.owner) ∧ r.values.back? x = some v
  back : ∀ {x v}, r.values.back? x = some v →
    r.values.forth? v = some x ∧ p₀.values.size ≤ x.index ∧ x.index < p.values.size
  carried : ∀ {x v}, r.carried.get? x = some v → p₀.values.size ≤ x.index ∧ x.index < p.values.size
  contexts : ∀ {d c}, r.contexts.get? d = some c → done d
  /-- fields of captured values are no replacements -/
  fields : ∀ {d this m}, r.contexts.get? d = some (.fields this m) → ∀ f ∈ m.values,
    p₀.decls.size ≤ f.index ∧ f.index < p.decls.size ∧ ∀ d', r.get? d' ≠ some f

namespace Program.ClosedAt

variable {n : Nat} {p : Program}

theorem mono {m : Nat} (h : p.ClosedAt n) (hle : n ≤ m) : p.ClosedAt m where
  decls hd := ⟨fun x hx => ((h.decls hd).1 x hx).trans_le hle, (h.decls hd).2⟩
  values hv := ⟨(h.values hv).1.trans_le hle, fun d hd => ((h.values hv).2 d hd).trans_le hle⟩
  exprs he := ⟨fun d hd => ((h.exprs he).1 d hd).trans_le hle, (h.exprs he).2⟩
  top d hd := (h.top d hd).trans_le hle

theorem allocExpr (h : p.ClosedAt n) (hnode : p.Knows n node) :
    (p.allocExpr node).2.ClosedAt n := by
  have hsize := p.size_allocExpr node
  refine ⟨fun hd => ?_, h.values, fun he => ?_, h.top⟩
  · obtain ⟨h₁, h₂, h₃⟩ := h.decls hd
    exact ⟨h₁, h₂, fun e he => by have := h₃ e he; omega⟩
  · have hknown : ∀ {node'}, p.Knows n node' → (p.allocExpr node).2.Knows n node' :=
      fun hk => ⟨hk.1, hk.2.1, fun x hx => by have := hk.2.2 x hx; omega⟩
    rw [show (p.allocExpr node).2.exprs = (p.exprs.alloc node).2 from rfl, Arena.get?_alloc] at he
    split at he
    · obtain rfl := Option.some.inj he
      exact hknown hnode
    · exact hknown (h.exprs he)

theorem setExpr (h : p.ClosedAt n) {e : ExprId} (hnode : p.Knows n node) :
    (p.setExpr e node).ClosedAt n := by
  have hsize : (p.setExpr e node).exprs.size = p.exprs.size := Arena.size_set _ _ _
  have hknown : ∀ {node'}, p.Knows n node' → (p.setExpr e node).Knows n node' :=
    fun hk => ⟨hk.1, hk.2.1, fun x hx => by have := hk.2.2 x hx; omega⟩
  refine ⟨fun hd => ?_, h.values, fun he => ?_, h.top⟩
  · obtain ⟨h₁, h₂, h₃⟩ := h.decls hd
    exact ⟨h₁, h₂, fun x hx => by have := h₃ x hx; omega⟩
  · rw [show (p.setExpr e node).exprs = p.exprs.set e node from rfl, Arena.get?_set] at he
    split at he
    · obtain rfl := Option.some.inj he
      exact hknown hnode
    · exact hknown (h.exprs he)

theorem setValue (h : p.ClosedAt n) {v : ValueId} {value : Value} (howner : value.owner.index < n)
    (hty : ∀ d ∈ value.ty.classes, d.index < n) : (p.setValue v value).ClosedAt n := by
  have hsize : (p.setValue v value).values.size = p.values.size := Arena.size_set _ _ _
  refine ⟨fun hd => ?_, fun hv => ?_, fun he => ?_, h.top⟩
  · obtain ⟨h₁, h₂, h₃⟩ := h.decls hd
    exact ⟨h₁, fun x hx => by have := h₂ x hx; omega, h₃⟩
  · rw [show (p.setValue v value).values = p.values.set v value from rfl, Arena.get?_set] at hv
    split at hv
    · obtain rfl := Option.some.inj hv
      exact ⟨howner, hty⟩
    · exact h.values hv
  · obtain ⟨h₁, h₂, h₃⟩ := h.exprs he
    exact ⟨h₁, fun x hx => by have := h₂ x hx; omega, h₃⟩

theorem setDecl (h : p.ClosedAt n) (hdecls : ∀ x ∈ content.namedDecls, x.index < n)
    (hvalues : ∀ v ∈ content.namedValues, v.index < p.values.size)
    (hcode : ∀ e ∈ content.code, e.index < p.exprs.size) : (p.setDecl d content).ClosedAt n where
  decls hd := by
    rw [show (p.setDecl d content).decls = p.decls.set d content from rfl, Arena.get?_set] at hd
    split at hd
    · obtain rfl := Option.some.inj hd
      exact ⟨hdecls, hvalues, hcode⟩
    · exact h.decls hd
  values := h.values
  exprs := h.exprs
  top := h.top

end Program.ClosedAt

/-! ## §5. Elementary steps. -/

namespace Grows

variable {r₀ r : Relocation} {q p : Program}

theorem addValue (h : Grows r₀ q r p) (value : Value) : Grows r₀ q r (p.allocValue value).2 :=
  { h with values := h.values.trans (Arena.keeps_alloc _ _) }

theorem addDecl (h : Grows r₀ q r p) (content : Declaration) :
    Grows r₀ q r (p.allocDecl content).2 :=
  { h with
    fields := fun hd => Arena.get?_alloc_of_some _ (h.fields hd)
    decls := fun hd => by
      obtain ⟨content', hd', heq⟩ := h.decls hd
      exact ⟨content', Arena.get?_alloc_of_some _ hd', heq⟩ }

theorem carry (h : Grows r₀ q r p) (x v : ValueId) :
    Grows r₀ q { r with carried := r.carried.insert x v } p :=
  { h with carried := fun hx => OrderedMap.get?_insert_of_some (h.carried hx) }

theorem pair (h : Grows r₀ q r p) (v x : ValueId) : Grows r₀ q (r.pair v x) p :=
  { h with forth := fun hv => OrderedMap.get?_insert_of_some (h.forth hv) }

theorem relocate (h : Grows r₀ q r p) (d x : DeclId) :
    Grows r₀ q { r with decls := r.decls.insert d x } p :=
  { h with moved := fun hd => OrderedMap.get?_insert_of_some (h.moved hd) }

theorem setContext (h : Grows r₀ q r p) (d : DeclId) (c : Context) :
    Grows r₀ q { r with contexts := r.contexts.insert d c } p :=
  { h with contexts := fun hd => OrderedMap.get?_insert_of_some (h.contexts hd) }

/-- A declaration is overwritten by one that differs in what is not looked at, or one that is
new. -/
theorem setDecl (h : Grows r₀ q r p)
    (hd : q.decls.get? d ≠ none → ∃ old, p.decls.get? d = some old ∧ content.erase = old.erase) :
    Grows r₀ q r (p.setDecl d content) := by
  have hdecls : ∀ {d' old}, q.decls.get? d' = some old → ∃ content',
      (p.setDecl d content).decls.get? d' = some content' ∧ content'.erase = old.erase := by
    intro d' old hd'
    obtain ⟨content', hkept, heq⟩ := h.decls hd'
    rw [show (p.setDecl d content).decls = p.decls.set d content from rfl, Arena.get?_set]
    split
    · rename_i hset
      obtain rfl := hset.1
      obtain ⟨old', hold, herase⟩ := hd (by rw [hd']; simp)
      obtain rfl := Option.mem_unique hkept hold
      exact ⟨content, rfl, herase.trans heq⟩
    · exact ⟨content', hkept, heq⟩
  exact { h with
    fields := fun hf => by
      obtain ⟨content', hkept, heq⟩ := hdecls hf
      rw [hkept, Declaration.eq_field_of_erase heq]
    decls := hdecls }

end Grows

/-! ## §6. Chains that stay. -/

namespace Program

variable {p p' : Program}

/-- A chain that ends is the same chain in a program that keeps its declarations. -/
theorem chainFrom_of_keeps (hkeeps : p.decls.Keeps p'.decls) {fuel fuel' : Nat} {d? : Option DeclId}
    (hfuel : fuel ≤ fuel') (hend : (p.chainFrom fuel d?).ending = .atModule) :
    p'.chainFrom fuel' d? = p.chainFrom fuel d? := by
  induction fuel generalizing fuel' d? with
  | zero =>
    cases d? with
    | none => unfold chainFrom; rfl
    | some d => unfold chainFrom at hend; cases hend
  | succ fuel ih =>
    cases d? with
    | none => unfold chainFrom; rfl
    | some d =>
      obtain ⟨fuel', rfl⟩ : ∃ m, fuel' = m + 1 := ⟨fuel' - 1, by omega⟩
      unfold chainFrom at hend ⊢
      cases hd : p.decls.get? d with
      | none => rw [hd] at hend; cases hend
      | some content =>
        rw [hd] at hend
        rw [hkeeps _ _ hd]
        simp only
        rw [ih (by omega) hend]

theorem chain_of_keeps (hp : p.ChainsEnd) (hkeeps : p.decls.Keeps p'.decls)
    (hd : p.decls.get? d = some content) : p'.chain d = p.chain d :=
  chainFrom_of_keeps hkeeps (Nat.succ_le_succ hkeeps.size_le) (hp.ending hd)

end Program

end LambdaLift
