/-
  LambdaLift.Proofs.Chores
  **WHAT HAS TO BE DONE BELOW A ROOT, ONE THING AFTER THE OTHER.**

  When all signatures are built it is settled what retargeting will do: it
  goes through the code of every replacement in the context that belongs to
  it, gives the fields of captured values their initializers and classes
  their members, and comes to the root last.  `Retarget.plan` lists that.
  Whatever each chore keeps, retargeting as a whole keeps (`Works.all`), and
  what is declared meanwhile is known (`Framed`): nothing but the classes
  and fields that the chores name has changed.

  Main results:
    * `Retarget.expr_stays` — code is all that retargeting an expression changes;
    * `Retarget.Works.all` — everything below one root.
-/
import Mathlib
import LambdaLift.Proofs.Rewrites

namespace LambdaLift

variable {P q p p' : Program} {d k x m : DeclId} {e : ExprId} {v : ValueId} {content : Declaration}
  {r : Relocation} {site : Site} {w : Work} {context? : Option Context}

namespace Program

/-- The declarations whose code a member brings: itself, or the accessors and the backing field of a
property.  Constructors are on their own. -/
def memberCodes (p : Program) (m : DeclId) : List DeclId :=
  match p.decls.get? m with
  | some (.function _) | some (.field _) => [m]
  | some (.property y) => y.getter.toList ++ y.setter.toList ++ y.backingField.toList
  | _ => []

/-- The members of a class. -/
def membersOf (p : Program) (k : DeclId) : List DeclId :=
  (((p.decls.get? k).bind (·.cls?)).map (·.members)).getD []

theorem mem_membersOf :
    m ∈ p.membersOf k ↔ ∃ c, p.decls.get? k = some (.cls c) ∧ m ∈ c.members := by
  cases hk : p.decls.get? k with
  | none => simp [membersOf, hk]
  | some content => cases content <;> simp [membersOf, hk, Declaration.cls?]

end Program

/-- The fields of a class for what it captured. -/
def Relocation.fieldsOf (r : Relocation) (k : DeclId) : List (ValueId × DeclId) :=
  match r.contexts.get? k with
  | some (.fields _ captured) => captured.entries
  | _ => []

theorem Relocation.mem_fieldsOf {f : DeclId} : (v, f) ∈ r.fieldsOf k
    ↔ ∃ this captured, r.contexts.get? k = some (.fields this captured)
      ∧ (v, f) ∈ captured.entries := by
  unfold fieldsOf
  split <;> simp_all

namespace Step.Yields

variable {α : Type} {x : Step α} {a : α} {f : Fault} {w' : Work} {ok : α → Work → Prop}
  {err : Fault → Work → Prop}

theorem ok_of (h : x.Yields w ok err) (hx : x w = .ok a w') : ok a w' := by
  unfold Yields at h
  rwa [hx] at h

theorem error_of (h : x.Yields w ok err) (hx : x w = .error f w') : err f w' := by
  unfold Yields at h
  rwa [hx] at h

theorem results (h : ∀ {a w'}, x w = .ok a w' → ok a w')
    (herr : ∀ {f w'}, x w = .error f w' → err f w') : x.Yields w ok err := by
  unfold Yields
  cases hx : x w with
  | ok a w' => exact h hx
  | error f w' => exact herr hx

end Step.Yields

/-- A replacement mirrors what it replaces. -/
theorem Raised.image (h : Raised P site r q) (hx : r.get? d = some x)
    (hd : P.decls.get? d = some content) :
    P.decls.size ≤ x.index ∧ ∃ new, q.decls.get? x = some new
      ∧ Mirrors P (site.destination P) r content new := by
  obtain ⟨hlow, old, new, ⟨hold, -⟩, hnew, hmirrors⟩ := h.images hx
  obtain rfl : old = content := Option.mem_unique hold hd
  exact ⟨hlow, new, hnew, hmirrors⟩

/-- Replacements have no replacements. -/
theorem Raised.fixed (h : Raised P site r q) (d x : DeclId) (hx : r.get? d = some x) :
    r.get? x = none := by
  cases hy : r.get? x with
  | none => rfl
  | some y =>
    obtain ⟨hlow, -⟩ := h.images hx
    obtain ⟨-, old, -, ⟨hold, -⟩, -⟩ := h.images hy
    exact absurd (Arena.lt_size_of_get? hold) (Nat.not_lt.2 hlow)

namespace Retarget

/-! ## §1. Chores. -/

/-- One thing to do below a root. -/
inductive Chore where
  /-- an expression is retargeted -/
  | expr (context? : Option Context) (e : ExprId)
  /-- the field of a captured value gets its initializer -/
  | capture (k : DeclId) (v : ValueId) (field : DeclId)
  /-- the replacement of a class gets its members -/
  | fill (k x : DeclId) (members : List DeclId)

/-- The code that a chore goes through. -/
def Chore.code? : Chore → Option ExprId
  | .expr _ e => some e
  | _ => none

/-- The declaration that a chore fills. -/
def Chore.target? : Chore → Option DeclId
  | .expr _ _ => none
  | .capture _ _ field => some field
  | .fill _ x _ => some x

/-- The code of a declaration. -/
def codePlan (q : Program) (context? : Option Context) (x : DeclId) : List Chore :=
  ((q.decls.get? x).bind (·.code)).toList.map (.expr context?)

/-- The code that the replacement of a member brings. -/
def memberPlan (r : Relocation) (q : Program) (context? : Option Context)
    (m : DeclId) : List Chore :=
  (r.get? m).toList.flatMap fun y => (q.memberCodes y).flatMap (codePlan q context?)

/-- A local callable. -/
def callablePlan (r : Relocation) (q : Program) (d : DeclId) : List Chore :=
  (r.get? d).toList.flatMap (codePlan q (r.contexts.get? d))

/-- A local class: its members, then the fields of what it captured. -/
def classPlan (P : Program) (r : Relocation) (q : Program) (k : DeclId) : List Chore :=
  (P.membersOf k).flatMap (memberPlan r q (r.contexts.get? k)) ++ (r.fieldsOf k).map
    (fun x => .capture k x.1 x.2)
    ++ (r.get? k).toList.map fun x =>
    .fill k x ((P.membersOf k).filterMap r.get? ++ (r.fieldsOf k).map Prod.snd)

/-- **Everything below one root**, in order. -/
def plan (P : Program) (site : Site) (r : Relocation) (q : Program) : List Chore :=
  site.locals.functions.keys.flatMap (callablePlan r q)
    ++ site.locals.constructors.toList.flatMap (callablePlan r q)
    ++ site.locals.classes.keys.flatMap (classPlan P r q)
    ++ ((P.decls.get? site.root).bind (·.body)).toList.map (.expr none)

/-- The code that is gone through, and in which context. -/
theorem expr_mem_plan : .expr context? e ∈ plan P site r q
    ↔ (∃ d x, (d ∈ site.locals.functions.keys ∨ d ∈ site.locals.constructors) ∧ r.get? d = some x
      ∧ r.contexts.get? d = context? ∧ (q.decls.get? x).bind (·.code) = some e)
    ∨ (∃ k ∈ site.locals.classes.keys, ∃ m ∈ P.membersOf k, ∃ y, r.get? m = some y
        ∧ ∃ x ∈ q.memberCodes y,
      r.contexts.get? k = context? ∧ (q.decls.get? x).bind (·.code) = some e)
    ∨ context? = none ∧ (P.decls.get? site.root).bind (·.body) = some e := by
  simp only [plan, callablePlan, classPlan, memberPlan, codePlan, List.mem_append, List.mem_flatMap,
    List.mem_map, Option.mem_toList, Chore.expr.injEq]
  grind [OrderedSet.mem_toList]

/-- What a member brings are replacements. -/
theorem exists_of_memberCodes {y : DeclId} (hraised : Raised P site r q) (hy : r.get? m = some y)
    (hx : x ∈ q.memberCodes y) : ∃ d, r.get? d = some x := by
  obtain ⟨-, old, new, -, hnew, hmirrors⟩ := hraised.images hy
  unfold Program.memberCodes at hx
  rw [hnew] at hx
  cases new with
  | function f => exact ⟨m, List.mem_singleton.1 hx ▸ hy⟩
  | field f => exact ⟨m, List.mem_singleton.1 hx ▸ hy⟩
  | property z =>
    cases old with
    | property z₀ =>
      obtain ⟨hgetter, hsetter, hbacking⟩ := hmirrors
      rcases List.mem_append.1 hx with hx | hx
      · rcases List.mem_append.1 hx with hx | hx
        · exact (hgetter x hx).imp fun _ ⟨_, _, _, _, ha⟩ => ha
        · exact (hsetter x hx).imp fun _ ⟨_, _, _, _, ha⟩ => ha
      · exact (hbacking x hx).imp fun _ ⟨_, _, _, _, ha⟩ => ha
    | _ => exact hmirrors.elim
  | _ => cases hx

/-- It is the code of a replacement or the body of the root, and the context was recorded. -/
theorem code_of_mem_plan (hraised : Raised P site r q) (hmem : .expr context? e ∈ plan P site r q) :
    (∀ c, context? = some c → ∃ d, r.contexts.get? d = some c)
      ∧ ((∃ d x content, r.get? d = some x ∧ q.decls.get? x = some content ∧ content.code = some e)
        ∨ ∃ content, P.decls.get? site.root = some content ∧ content.body = some e) := by
  rcases expr_mem_plan.1 hmem
    with ⟨d, x, -, hx, rfl, hcode⟩ | ⟨k, -, m, -, y, hy, x, hx, rfl, hcode⟩ | ⟨rfl, hcode⟩
  · obtain ⟨content, hcontent, hcode⟩ := Option.bind_eq_some_iff.1 hcode
    exact ⟨fun c hc => ⟨d, hc⟩, .inl ⟨d, x, content, hx, hcontent, hcode⟩⟩
  · obtain ⟨content, hcontent, hcode⟩ := Option.bind_eq_some_iff.1 hcode
    obtain ⟨a, ha⟩ := exists_of_memberCodes hraised hy hx
    exact ⟨fun c hc => ⟨k, hc⟩, .inl ⟨a, x, content, ha, hcontent, hcode⟩⟩
  · exact ⟨by rintro _ ⟨⟩, .inr (Option.bind_eq_some_iff.1 hcode)⟩

/-- What is gone through is reached from the root. -/
theorem below_of_mem_plan (hraised : Raised P site r q)
    (hmem : .expr context? e ∈ plan P site r q) : P.Below site.root (.expr e) := by
  obtain ⟨-, ⟨d, x, content, hx, hcontent, hcode⟩ | ⟨content, hroot, hbody⟩⟩ :=
    code_of_mem_plan hraised hmem
  · obtain ⟨-, old, new, ⟨-, hbelow, -⟩, hnew, hmirrors⟩ := hraised.images hx
    obtain rfl : new = content := Option.mem_unique hnew hcontent
    exact hbelow e (hmirrors.code_eq ▸ hcode)
  · refine ⟨content, hroot, .expr e, ?_, .refl⟩
    cases content <;> first | cases hbody | simp_all [Declaration.parts, Declaration.body]

/-- The fields that get initializers. -/
theorem capture_mem_plan {field : DeclId} :
    .capture k v field ∈ plan P site r q ↔ k ∈ site.locals.classes.keys
      ∧ (v, field) ∈ r.fieldsOf k := by
  simp [plan, callablePlan, classPlan, memberPlan, codePlan]

/-- The classes that get their members. -/
theorem fill_mem_plan {members : List DeclId} :
    .fill k x members ∈ plan P site r q ↔ k ∈ site.locals.classes.keys
      ∧ r.get? k = some x
      ∧ members = (P.membersOf k).filterMap r.get? ++ (r.fieldsOf k).map Prod.snd := by
  simp [plan, callablePlan, classPlan, memberPlan, codePlan, and_comm, eq_comm]

/-- A class gets what is listed for it. -/
theorem lists_of_mem_plan {members : List DeclId} {y : DeclId}
    (hmem : .fill k x members ∈ plan P site r q) (hy : y ∈ members) : r.Lists P x y := by
  obtain ⟨-, hx, rfl⟩ := fill_mem_plan.1 hmem
  refine ⟨k, hx, (List.mem_append.1 hy).imp (fun hy => ?_) fun hy => ?_⟩
  · obtain ⟨m, hm, hy⟩ := List.mem_filterMap.1 hy
    obtain ⟨c, hc, hm⟩ := Program.mem_membersOf.1 hm
    exact ⟨c, m, hc, hm, hy⟩
  · obtain ⟨⟨v, f⟩, hf, rfl⟩ := List.mem_map.1 hy
    obtain ⟨this, captured, hk, hf⟩ := Relocation.mem_fieldsOf.1 hf
    exact ⟨this, captured, hk, List.mem_map.2 ⟨_, hf, rfl⟩⟩

/-- What may have happened to a declaration: classes get their members, and fields initializers. -/
inductive Filled : Declaration → Declaration → Prop
  | same {content : Declaration} : Filled content content
  | cls {c : ClassDecl} {members : List DeclId} : Filled (.cls c) (.cls { c with members })
  | field {f : FieldDecl} {init : Option ExprId} : Filled (.field f) (.field { f with init })

theorem Filled.trans {a b c : Declaration} (h : Filled a b) (h' : Filled b c) : Filled a c := by
  cases h with
  | same => exact h'
  | cls =>
    cases h' with
    | same => exact .cls
    | cls => exact .cls
  | field =>
    cases h' with
    | same => exact .field
    | field => exact .field

theorem Filled.params {a b : Declaration} (h : Filled a b) : b.params = a.params := by
  cases h <;> rfl

/-- What is declared after some chores: what was there stays, replacements stay but for the members
of classes, and a field that was dealt with has code that was added. -/
structure Framed (P : Program) (r : Relocation) (q : Program) (done : List Chore)
    (p : Program) : Prop where
  size : q.exprs.size ≤ p.exprs.size
  filled : ∀ {x content}, q.decls.get? x = some content → ∃ content', p.decls.get? x = some content'
    ∧ Filled content content'
  old : ∀ {d}, d.index < P.decls.size → p.decls.get? d = q.decls.get? d
  images : ∀ {d x content}, r.get? d = some x → q.decls.get? x = some content →
    content.isClass = false →
    p.decls.get? x = some content
  same : ∀ {x content}, q.decls.get? x = some content → (∀ chore ∈ done, chore.target? ≠ some x) →
    p.decls.get? x = some content
  classes : ∀ {d x c}, r.get? d = some x → q.decls.get? x = some (.cls c) →
    ∃ members, p.decls.get? x = some (.cls { c with members })
      ∧ (members = c.members ∧ (∀ k members', .fill k x members' ∉ done)
          ∨ ∃ k, .fill k x members ∈ done)
  fields : ∀ {k v field}, .capture k v field ∈ done →
    ∃ f e, p.decls.get? field = some (.field f) ∧ f.init = some e
    ∧ q.exprs.size ≤ e.index ∧ e.index < p.exprs.size

/-! ## §2. Code is all that changes. -/

/-- Nothing is declared or taken away, and no expression is lost. -/
def Stays (p p' : Program) : Prop := p'.decls = p.decls ∧ p.exprs.size ≤ p'.exprs.size

theorem Stays.refl (p : Program) : Stays p p := ⟨rfl, le_rfl⟩

theorem Stays.trans {p'' : Program} (h : Stays p p') (h' : Stays p' p'') : Stays p p'' :=
  ⟨h'.1.trans h.1, h.2.trans h'.2⟩

theorem Stays.alloc (p : Program) (node : Expr) : Stays p (p.allocExpr node).2 :=
  ⟨rfl, by rw [Program.size_allocExpr]; exact Nat.le_succ _⟩

variable {t : Retarget}

/-- Whether it succeeds or not, the step changes nothing but code. -/
def OnlyCode {α : Type} (x : Step α) : Prop :=
  ∀ w, x.Leaves w (fun _ w' => Stays w.program w'.program) fun _ => True

theorem OnlyCode.bind {α β : Type} {x : Step α} {f : α → Step β} (h : OnlyCode x)
    (hf : ∀ a, OnlyCode (f a)) : OnlyCode (x >>= f) := fun w =>
  .bind ((h w).mono fun a w' hw => (hf a w').mono fun _ _ hw' => hw.trans hw')

theorem node_stays (node : Expr) : OnlyCode (t.node node) := fun _ =>
  ((node_yields node).mono fun _ _ h => ⟨h.1.decls, h.1.exprs.size_le⟩).weaken fun _ _ _ => trivial

/-- **An expression**: nothing but code changes. -/
theorem expr_stays (t : Retarget) (e : ExprId) : OnlyCode (t.expr e) := by
  have hupTo : ∀ fuel e, OnlyCode (t.exprUpTo fuel e) := by
    intro fuel
    induction fuel with
    | zero => exact fun e w => .throw trivial
    | succ fuel ih =>
      intro e
      refine .bind (fun w => .expr (fun _ _ => .refl _) trivial) fun old =>
        .bind (fun w => ?_) fun _ =>
        .bind (node_stays old) fun new w => .setExpr ⟨rfl, (Arena.size_set _ _ _).ge⟩
      exact .forM (fun _ w' => Stays w.program w'.program)
        (fun _ h => (ih _ _).mono fun _ _ h' => h.trans h') (.refl _)
  exact .bind (fun w => .program (.refl _)) fun p => hupTo _ e

/-! ## §3. What is declared meanwhile. -/

namespace Framed

variable {done : List Chore}

theorem start (P : Program) (r : Relocation) (q : Program) : Framed P r q [] q where
  size := le_rfl
  filled hx := ⟨_, hx, .same⟩
  old _ := rfl
  images _ hx _ := hx
  same hx _ := hx
  classes _ hx := ⟨_, hx, .inl ⟨rfl, by simp⟩⟩
  fields h := by cases h

/-- Code changes. -/
theorem stays (h : Framed P r q done p) (hstays : Stays p p') (c : Option Context) (e : ExprId) :
    Framed P r q (done ++ [.expr c e]) p' where
  size := h.size.trans hstays.2
  filled hx := hstays.1 ▸ h.filled hx
  old hd := hstays.1 ▸ h.old hd
  images hd hx hclass := hstays.1 ▸ h.images hd hx hclass
  same hx hnot := hstays.1 ▸ h.same hx fun chore hmem => hnot chore (List.mem_append_left _ hmem)
  classes hd hx := by
    obtain ⟨members, hp, hmembers⟩ := h.classes hd hx
    exact ⟨members, hstays.1 ▸ hp, by simpa using hmembers⟩
  fields hmem := by
    obtain ⟨f, e, hp, he, hlow, hlt⟩ := h.fields (by simpa using hmem)
    exact ⟨f, e, hstays.1 ▸ hp, he, hlow, hlt.trans_le hstays.2⟩

/-- A new declaration is filled by a chore: a class that replaces one, or a field that replaces
nothing. -/
theorem set {chore : Chore} {content' : Declaration} (h : Framed P r q done p)
    (hx : p.decls.get? x = some content) (hfilled : Filled content content')
    (hlow : P.decls.size ≤ x.index) (hdecls : p'.decls = p.decls)
    (hsize : p.exprs.size ≤ p'.exprs.size) (htarget : chore.target? = some x)
    (himage : ∀ {d}, r.get? d = some x → ∃ c k, content' = .cls c ∧ chore = .fill k x c.members)
    (hfield : content'.isClass = false → ∃ f e, content' = .field f ∧ f.init = some e
      ∧ q.exprs.size ≤ e.index
      ∧ e.index < p'.exprs.size)
    (hcapture : ∀ {k v field}, chore = .capture k v field → content'.isClass = false) :
    Framed P r q (done ++ [chore]) (p'.setDecl x content') := by
  have hget : ∀ y, (p'.setDecl x content').decls.get? y = if y = x then some content'
      else p.decls.get? y := fun y => by
    rw [Program.get?_setDecl (hdecls.symm ▸ hx), hdecls]
  refine ⟨h.size.trans hsize, fun {y c} hy => ?_, fun {d} hd => ?_, fun {d y c} hd hy hclass => ?_,
    fun {y c} hy hnot => ?_, fun {d y c} hd hy => ?_, fun {k v y} hmem => ?_⟩
  · obtain ⟨c', hc', hsame⟩ := h.filled hy
    by_cases heq : y = x
    · subst heq
      obtain rfl : content = c' := Option.mem_unique hx hc'
      exact ⟨content', by rw [hget, if_pos rfl], hsame.trans hfilled⟩
    · exact ⟨c', by rw [hget, if_neg heq]; exact hc', hsame⟩
  · rw [hget, if_neg (by rintro rfl; omega)]
    exact h.old hd
  · rw [hget, if_neg ?_]
    · exact h.images hd hy hclass
    rintro rfl
    obtain ⟨c', -, rfl, -⟩ := himage hd
    obtain rfl : content = c := Option.mem_unique hx (h.images hd hy hclass)
    cases hfilled <;> cases hclass
  · rw [hget, if_neg (by rintro rfl; exact hnot chore (by simp) htarget)]
    exact h.same hy fun chore' hmem => hnot chore' (List.mem_append_left _ hmem)
  · obtain ⟨members, hp, hmembers⟩ := h.classes hd hy
    by_cases heq : y = x
    · subst heq
      obtain ⟨c', k, rfl, rfl⟩ := himage hd
      obtain rfl : content = .cls { c with members } := Option.mem_unique hx hp
      refine ⟨c'.members, ?_, .inr ⟨k, by simp⟩⟩
      rw [hget, if_pos rfl]
      cases hfilled <;> rfl
    · refine ⟨members, by rw [hget, if_neg heq]; exact hp,
        hmembers.imp (fun hkept => ⟨hkept.1, fun k ms hmem => ?_⟩)
        fun ⟨k, hk⟩ => ⟨k, List.mem_append_left _ hk⟩⟩
      rcases List.mem_append.1 hmem with hmem | hmem
      · exact hkept.2 k ms hmem
      · obtain rfl := List.mem_singleton.1 hmem
        exact heq (Option.some.inj htarget)
  · rcases List.mem_append.1 hmem with hmem | hmem
    · obtain ⟨f, e, hf, he, hlow', hlt⟩ := h.fields hmem
      by_cases heq : y = x
      · subst heq
        obtain rfl : content = .field f := Option.mem_unique hx hf
        obtain ⟨f', e', rfl, hinit⟩ := hfield (by cases hfilled <;> rfl)
        exact ⟨f', e', by rw [hget, if_pos rfl], hinit⟩
      · exact ⟨f, e, by rw [hget, if_neg heq]; exact hf, he, hlow', hlt.trans_le hsize⟩
    · obtain rfl := List.mem_singleton.1 hmem
      obtain rfl : y = x := Option.some.inj htarget
      obtain ⟨f, e, rfl, hinit⟩ := hfield (hcapture rfl)
      exact ⟨f, e, by rw [hget, if_pos rfl], hinit⟩

end Framed

/-! ## §4. All chores, in order. -/

/-- There is a replacement, and it is no class. -/
def Replaced (r : Relocation) (q : Program) (m : DeclId) : Prop :=
  ∃ y content, r.get? m = some y ∧ q.decls.get? y = some content ∧ content.isClass = false

/-- A callable has a replacement and a context. -/
def ServesCallable (r : Relocation) (d : DeclId) : Prop :=
  (∃ x, r.get? d = some x) ∧ ∃ context, r.contexts.get? d = some context

/-- A class has a replacement and fields for what it captured, and its members have replacements. -/
def ServesClass (P : Program) (r : Relocation) (q : Program) (k : DeclId) : Prop :=
  (∃ x, r.get? k = some x) ∧ (∃ this captured, r.contexts.get? k = some (.fields this captured))
    ∧ ∀ m ∈ P.membersOf k, Replaced r q m

/-- Whatever retargeting looks up is there. -/
structure Serves (P : Program) (site : Site) (r : Relocation) (q : Program) : Prop where
  functions : ∀ d ∈ site.locals.functions.keys, ServesCallable r d
  constructors : ∀ d ∈ site.locals.constructors, ServesCallable r d
  classes : ∀ k ∈ site.locals.classes.keys, ServesClass P r q k

/-- At some time the primary constructor of a class was looked for, with this result. -/
def Finds (P : Program) (r : Relocation) (q : Program) (k : DeclId)
    (result : Option DeclId) : Prop :=
  ∃ done p, Framed P r q done p ∧ p.primaryConstructor? k = .ok result

/-- Members of classes are looked up where they were. -/
theorem Framed.primaryConstructor?_eq {done : List Chore} {c : ClassDecl} (h : Framed P r q done p)
    (hraised : Raised P site r q) (hclosed : P.Closed) (hk : P.decls.get? k = some (.cls c)) :
    p.primaryConstructor? k = .ok (c.members.find? P.isPrimary) := by
  have hold : ∀ {d content}, P.decls.get? d = some content →
      p.decls.get? d = some content := fun hd =>
    (h.old (Arena.lt_size_of_get? hd)).trans (hraised.grown.decls _ _ hd)
  refine Program.primaryConstructor?_eq (hold hk) fun before m after hsplit _ => ?_
  obtain ⟨content, hm⟩ := hclosed.exists_decl hk (x := m) (by simp [Declaration.namedDecls, hsplit])
  exact ⟨content, hold hm, hm⟩

/-- **Why something that is looked for is not there.** -/
inductive Lost (P : Program) (site : Site) (r : Relocation) (q p : Program) : Fault → Prop
  | unserved {f : Fault} : ¬ Serves P site r q → f.Reports → Lost P site r q p f
  /-- a class has no primary constructor -/
  | primary {k : DeclId} {f : Fault} : k ∈ site.locals.classes.keys → Finds P r q k none →
      f.Reports → Lost P site r q p f
  /-- the primary constructor of a class does not take what the class captured -/
  | untaken {k primary : DeclId} {f : Fault} : k ∈ site.locals.classes.keys →
      Finds P r q k (some primary) →
      (∀ context, r.contexts.get? primary = some context →
        ∃ x ∈ r.fieldsOf k, ∀ param, context.carrier? x.1 ≠ some (.param param)) →
        f.Reports → Lost P site r q p f
  | members {k : DeclId} {c : ClassDecl} {f : Fault} : P.decls.get? k = some (.cls c) →
      p.primaryConstructor? k = .error f → Lost P site r q p f

theorem Lost.reports {f : Fault} (h : Lost P site r q p f) :
    f.Reports ∨ ∃ k c, P.decls.get? k = some (.cls c) ∧ p.primaryConstructor? k = .error f := by
  cases h with
  | unserved _ hf => exact .inl hf
  | primary _ _ hf => exact .inl hf
  | untaken _ _ _ hf => exact .inl hf
  | members hk hf => exact .inr ⟨_, _, hk, hf⟩

/-- These chores are done. -/
def Done (P : Program) (r : Relocation) (q : Program) (J : List Chore → Work → Prop)
    (done : List Chore) (w : Work) : Prop :=
  Framed P r q done w.program ∧ J done w

/-- What is known of a state after some chores, and what each further chore makes of that. -/
structure Works (P : Program) (site : Site) (r : Relocation) (q : Program)
    (J : List Chore → Work → Prop) (err : Fault → Work → Prop) : Prop where
  expr : ∀ {done rest : List Chore} {c : Option Context} {e : ExprId} {w w' : Work},
    plan P site r q = done ++ .expr c e :: rest → Done P r q J done w →
    Retarget.expr ⟨site.locals, r, c⟩ e w = .ok () w' → J (done ++ [.expr c e]) w'
  fault : ∀ {done rest : List Chore} {c : Option Context} {e : ExprId} {w w' : Work} {f : Fault},
    plan P site r q = done ++ .expr c e :: rest → Done P r q J done w →
    Retarget.expr ⟨site.locals, r, c⟩ e w = .error f w' → err f w'
  capture : ∀ {done rest : List Chore} {k field primary : DeclId} {v param : ValueId} {w : Work}
    {context : Context} {f : FieldDecl},
    plan P site r q = done ++ .capture k v field :: rest → Done P r q J done w →
    Finds P r q k (some primary) → r.contexts.get? primary = some context →
    context.carrier? v = some (.param param) → w.program.decls.get? field = some (.field f) →
    J (done ++ [.capture k v field])
      { w with program := (w.program.allocExpr (.get param)).2.setDecl field
                            (.field { f with init := some w.program.exprs.next }) }
  fill : ∀ {done rest : List Chore} {k x : DeclId} {members : List DeclId} {w : Work}
    {c : ClassDecl}, plan P site r q = done ++ .fill k x members :: rest → Done P r q J done w →
    w.program.decls.get? x = some (.cls c) →
    J (done ++ [.fill k x members])
      { w with program := w.program.setDecl x (.cls { c with members }) }
  lost : ∀ {done : List Chore} {w : Work} {f : Fault}, Done P r q J done w →
    Lost P site r q w.program f → err f w

namespace Works

variable {J : List Chore → Work → Prop} {err : Fault → Work → Prop} {done rest : List Chore}
  (hraised : Raised P site r q) (h : Works P site r q J err)
include h

/-- Code that may be absent. -/
theorem code {o : Option ExprId}
    (hplan : plan P site r q = done ++ (o.toList.map (.expr context?) ++ rest))
    (hw : Done P r q J done w) : (o.forM (Retarget.expr ⟨site.locals, r, context?⟩)).Yields w
      (fun _ w' => Done P r q J (done ++ o.toList.map (.expr context?)) w') err := by
  refine .optionForM (fun hnone => by simpa [hnone] using hw) fun e he => ?_
  subst he
  have hstays := expr_stays ⟨site.locals, r, context?⟩ e w
  have hexpr : (Retarget.expr ⟨site.locals, r, context?⟩ e).Yields w
      (fun _ w' => J (done ++ [.expr context? e]) w') err :=
    .results (h.expr hplan hw) (h.fault hplan hw)
  exact (hexpr.and hstays).weaken (fun _ _ hf => hf.1) |>.mono fun _ w' hw' =>
    ⟨hw.1.stays hw'.2 context? e, hw'.1⟩

/-- The code of a replacement that is no class. -/
theorem codeOf (get : Declaration → Option ExprId) {new : Declaration} (hx : r.get? d = some x)
    (hnew : q.decls.get? x = some new) (hclass : new.isClass = false ∧ get new = new.code)
    (hplan : plan P site r q = done ++ (codePlan q context? x ++ rest)) (hw : Done P r q J done w) :
    (do (get (← Step.decl x)).forM (Retarget.expr ⟨site.locals, r, context?⟩) : Step PUnit).Yields w
      (fun _ w' => Done P r q J (done ++ codePlan q context? x) w') err := by
  unfold codePlan at hplan ⊢
  rw [hnew, Option.bind_some] at hplan ⊢
  refine .step (Step.decl_eq (hw.1.images hx hnew hclass.1)) ?_
  rw [hclass.2]
  exact h.code hplan hw

include hraised

/-- The body of a replacement. -/
theorem body (hx : r.get? d = some x) (hd : P.decls.get? d = some content)
    (hcallable : content.isCallable = true)
    (hplan : plan P site r q = done ++ (codePlan q context? x ++ rest)) (hw : Done P r q J done w) :
    (Retarget.body ⟨site.locals, r, context?⟩ x).Yields w
      (fun _ w' => Done P r q J (done ++ codePlan q context? x) w') err := by
  obtain ⟨-, new, hnew, hmirrors⟩ := hraised.image hx hd
  refine h.codeOf (·.body) hx hnew ?_ hplan hw
  cases content <;> cases new <;> first | exact ⟨rfl, rfl⟩ | exact hmirrors.elim | cases hcallable

/-- The initializer of a replacement. -/
theorem initializer (hx : r.get? d = some x) (hd : P.decls.get? d = some content)
    (hfield : ∃ f, content = .field f)
    (hplan : plan P site r q = done ++ (codePlan q context? x ++ rest)) (hw : Done P r q J done w) :
    (Retarget.initializer ⟨site.locals, r, context?⟩ x).Yields w
      (fun _ w' => Done P r q J (done ++ codePlan q context? x) w') err := by
  obtain ⟨-, new, hnew, hmirrors⟩ := hraised.image hx hd
  obtain ⟨f, rfl⟩ := hfield
  refine h.codeOf (fun content => content.field?.bind (·.init)) hx hnew ?_ hplan hw
  cases new <;> first | exact ⟨rfl, rfl⟩ | exact hmirrors.elim

omit hraised h in
/-- A part of a property that may be absent. -/
theorem part {kind : Declaration → Prop} {act : DeclId → Step PUnit} {old? x? : Option DeclId}
    (hparts : Parts P kind old? x? r)
    (hact : ∀ {a x content}, r.get? a = some x → P.decls.get? a = some content →
      kind content → plan P site r q = done ++ (codePlan q context? x ++ rest) →
      (act x).Yields w (fun _ w' => Done P r q J (done ++ codePlan q context? x) w') err)
    (hplan : plan P site r q = done ++ (x?.toList.flatMap (codePlan q context?) ++ rest))
    (hw : Done P r q J done w) :
    (x?.forM act).Yields w
      (fun _ w' => Done P r q J (done ++ x?.toList.flatMap (codePlan q context?)) w') err := by
  cases x? with
  | none => exact .pure (by simpa using hw)
  | some x =>
    obtain ⟨a, content, -, ha, hkind, hx⟩ := hparts x (by simp)
    simpa using hact hx ha hkind (by simpa using hplan)

/-- **A member.** -/
theorem member (hk : k ∈ site.locals.classes.keys)
    (hm : m ∈ P.membersOf k) (hplan : plan P site r q = done ++ (memberPlan r q context? m ++ rest))
    (hw : Done P r q J done w) : (Retarget.member ⟨site.locals, r, context?⟩ m).Yields w
      (fun y w' => r.get? m = some y ∧ Replaced r q m
        ∧ Done P r q J (done ++ memberPlan r q context? m) w') err := by
  unfold Retarget.member
  refine .bind (.ask (fun y hlifted => ?_) fun f hf => h.lost hw
    (.unserved (fun hs => ?_) (Relocation.reports_of_lifted hf)))
  rotate_left
  · obtain ⟨y, -, hy, -⟩ := (hs.classes k hk).2.2 m hm
    cases (Relocation.lifted_eq hy).symm.trans hf
  have hy := Relocation.get?_of_lifted hlifted
  obtain ⟨-, old, new, ⟨hold, -⟩, hnew, hmirrors⟩ := hraised.images hy
  have hmember : memberPlan r q context? m = (q.memberCodes y).flatMap (codePlan q context?) := by
    simp [memberPlan, hy]
  rw [hmember] at hplan ⊢
  unfold Program.memberCodes at hplan ⊢
  rw [hnew] at hplan ⊢
  cases new with
  | cls c =>
    obtain ⟨members, hp, -⟩ := hw.1.classes hy hnew
    refine .step (Step.decl_eq hp) (.bind (.throw (h.lost hw (.unserved (fun hs => ?_) rfl))))
    obtain ⟨y', content, hy', hnew', hclass⟩ := (hs.classes k hk).2.2 m hm
    obtain rfl : y = y' := Option.mem_unique hy hy'
    obtain rfl : .cls c = content := Option.mem_unique hnew hnew'
    cases hclass
  | constructor c =>
    exact .step (Step.decl_eq (hw.1.images hy hnew rfl))
      (.bind (.pure (.pure ⟨hy, ⟨y, _, hy, hnew, rfl⟩, by simpa using hw⟩)))
  | function f =>
    refine .step (Step.decl_eq (hw.1.images hy hnew rfl)) (.bind ?_)
    cases old with
    | function f₀ =>
      simp only [List.flatMap_cons, List.flatMap_nil, List.append_nil] at hplan ⊢
      exact (h.body hraised hy hold rfl hplan hw).mono fun _ w' hw' =>
        .pure ⟨hy, ⟨y, _, hy, hnew, rfl⟩, hw'⟩
    | _ => exact hmirrors.elim
  | field f =>
    refine .step (Step.decl_eq (hw.1.images hy hnew rfl)) (.bind ?_)
    cases old with
    | field f₀ =>
      simp only [List.flatMap_cons, List.flatMap_nil, List.append_nil] at hplan ⊢
      exact (h.initializer hraised hy hold ⟨f₀, rfl⟩ hplan hw).mono fun _ w' hw' =>
        .pure ⟨hy, ⟨y, _, hy, hnew, rfl⟩, hw'⟩
    | _ => exact hmirrors.elim
  | property x =>
    refine .step (Step.decl_eq (hw.1.images hy hnew rfl)) (.bind ?_)
    cases old with
    | property x₀ =>
      obtain ⟨hgetter, hsetter, hbacking⟩ := hmirrors
      simp only [List.flatMap_append, List.append_assoc] at hplan ⊢
      have hforM : ∀ act : DeclId → Step PUnit, (x.getter.toList ++ x.setter.toList).forM act
          = (do x.getter.forM act; x.setter.forM act) := fun act => by
        cases x.getter <;> cases x.setter <;> simp
      have accessor : ∀ {w done rest a y content}, Done P r q J done w → r.get? a = some y →
          P.decls.get? a = some content → (∃ f, content = .function f) →
          plan P site r q = done ++ (codePlan q context? y ++ rest) →
          (Retarget.body ⟨site.locals, r, context?⟩ y).Yields w
            (fun _ w' => Done P r q J (done ++ codePlan q context? y) w') err := by
        rintro w done rest a y _ hw hy ha ⟨f, rfl⟩ hplan
        exact h.body hraised hy ha rfl hplan hw
      rw [hforM]
      refine .bind ((part hgetter (accessor hw) hplan hw).mono fun _ w₁ hw₁ => ?_)
      refine (part hsetter (accessor hw₁) (by simpa using hplan) hw₁).mono fun _ w₂ hw₂ => ?_
      refine .bind
        ((part hbacking (fun ha hy hkind hplan => h.initializer hraised ha hy hkind hplan hw₂)
        (by simpa using hplan) hw₂).mono fun _ w₃ hw₃ =>
        .pure ⟨hy, ⟨y, _, hy, hnew, rfl⟩, by simpa using hw₃⟩)
    | _ => exact hmirrors.elim

/-- The members of a class, one after the other. -/
theorem members (hk : k ∈ site.locals.classes.keys) {ms : List DeclId}
    (hms : ∀ m ∈ ms, m ∈ P.membersOf k)
    (hplan : plan P site r q = done ++ (ms.flatMap (memberPlan r q context?) ++ rest))
    (hw : Done P r q J done w) : (ms.mapM (Retarget.member ⟨site.locals, r, context?⟩)).Yields w
      (fun ys w' => ys = ms.filterMap r.get? ∧ (∀ m ∈ ms, Replaced r q m)
        ∧ Done P r q J (done ++ ms.flatMap (memberPlan r q context?)) w') err := by
  refine .mapM (fun seen ys w' => ys = seen.filterMap r.get? ∧ (∀ m ∈ seen, Replaced r q m)
    ∧ Done P r q J (done ++ seen.flatMap (memberPlan r q context?)) w') ?_
    ⟨rfl, by simp, by simpa using hw⟩
  rintro seen m behind ys w' hsplit ⟨rfl, hseen, hw'⟩
  have hplan' : plan P site r q = done ++ seen.flatMap (memberPlan r q context?)
      ++ (memberPlan r q context? m ++ (behind.flatMap (memberPlan r q context?) ++ rest)) := by
    simp [hplan, hsplit]
  refine (h.member hraised hk (hms m (by simp [hsplit])) hplan' hw').mono ?_
  rintro y w'' ⟨hy, hreplaced, hw''⟩
  exact ⟨by simp [hy], by simpa [or_imp, forall_and] using ⟨hseen, hreplaced⟩, by simpa using hw''⟩

/-- **The field of a captured value.** -/
theorem field {this : ValueId} {captured : OrderedMap ValueId DeclId}
    (hk : r.contexts.get? k = some (.fields this captured)) {primary field : DeclId}
    {context : Context} (hmem : (v, field) ∈ captured.entries) (hkey : k ∈ site.locals.classes.keys)
    (hfinds : Finds P r q k (some primary)) (hcontext : r.contexts.get? primary = some context)
    (hplan : plan P site r q = done ++ .capture k v field :: rest) (hw : Done P r q J done w) :
    (initializeCaptured primary context v field).Yields w
      (fun y w' => y = field ∧ Done P r q J (done ++ [.capture k v field]) w') err := by
  obtain ⟨hnone, hlow, f₀, hq⟩ := hraised.fields hk field (List.mem_map.2 ⟨_, hmem, rfl⟩)
  obtain ⟨content, hp, hfilled⟩ := hw.1.filled hq
  obtain ⟨f, rfl⟩ : ∃ f, content = .field f := by
    cases hfilled with
    | same => exact ⟨_, rfl⟩
    | field => exact ⟨_, rfl⟩
  unfold initializeCaptured
  rcases hparam : context.carrier? v with _ | (param | _)
  case some.param =>
    have hlt : w.program.exprs.next.index < (w.program.allocExpr (.get param)).2.exprs.size := by
      rw [Program.size_allocExpr]
      exact Nat.lt_succ_self _
    refine .step Step.addExpr_eq (.step (Step.modifyDecl_eq hp)
      (.pure ⟨rfl, ?_, h.capture hplan hw hfinds hcontext hparam hp⟩))
    exact hw.1.set hp .field hlow rfl (Stays.alloc _ _).2 rfl (fun hd => absurd hd (hnone _))
      (fun _ => ⟨_, _, rfl, rfl, hw.1.size, hlt⟩) fun _ => rfl
  all_goals
    refine .throw (h.lost hw (.untaken hkey hfinds (fun context' hcontext' => ?_) rfl))
    obtain rfl : context = context' := Option.mem_unique hcontext hcontext'
    exact ⟨_, Relocation.mem_fieldsOf.2 ⟨this, captured, hk, hmem⟩,
    fun param hparam' => by cases hparam.symm.trans hparam'⟩

/-- **A local class.** -/
theorem cls {c : ClassDecl} (hkey : k ∈ site.locals.classes.keys)
    (hold : P.decls.get? k = some (.cls c))
    (hplan : plan P site r q = done ++ (classPlan P r q k ++ rest)) (hw : Done P r q J done w) :
    (localClass site.locals r k).Yields w
      (fun _ w' => (ServesClass P r q k ∧ ∃ primary, Finds P r q k (some primary))
        ∧ Done P r q J (done ++ classPlan P r q k) w') err := by
  unfold localClass
  refine .bind (.ask (fun context hask => ?_) fun f hf => h.lost hw
    (.unserved (fun hs => ?_) (Relocation.reports_of_context hf)))
  rotate_left
  · obtain ⟨-, ⟨this, captured, hcontext⟩, -⟩ := hs.classes k hkey
    cases (Relocation.context_eq hcontext).symm.trans hf
  have hcontext := Relocation.get?_of_context hask
  unfold Retarget.cls
  refine .bind (.ask (fun x hlifted => ?_) fun f hf => h.lost hw
    (.unserved (fun hs => ?_) (Relocation.reports_of_lifted hf)))
  rotate_left
  · obtain ⟨⟨x, hx⟩, -⟩ := hs.classes k hkey
    cases (Relocation.lifted_eq hx).symm.trans hf
  have hx := Relocation.get?_of_lifted hlifted
  obtain ⟨hlow, new, hnew, hmirrors⟩ := hraised.image hx hold
  have hp : w.program.decls.get? k = some (.cls c) :=
    (hw.1.old (Arena.lt_size_of_get? hold)).trans (hraised.grown.decls _ _ hold)
  refine .step (Step.decl_eq hp) ?_
  have hmembers : P.membersOf k = c.members := by simp [Program.membersOf, hold, Declaration.cls?]
  unfold classPlan at hplan ⊢
  rw [hmembers, hcontext, hx] at hplan ⊢
  simp only [List.append_assoc] at hplan
  refine .bind ((h.members hraised hkey (fun m hm => hmembers ▸ hm) hplan hw).mono ?_)
  rintro _ w₁ ⟨rfl, hreplaced, hw₁⟩
  cases context with
  | params captured =>
    refine .throw (h.lost hw₁ (.unserved (fun hs => ?_) rfl))
    obtain ⟨-, ⟨this, captured', hcontext'⟩, -⟩ := hs.classes k hkey
    cases hcontext.symm.trans hcontext'
  | fields this captured =>
    have hfieldsOf : r.fieldsOf k = captured.entries := by simp [Relocation.fieldsOf, hcontext]
    rw [hfieldsOf] at hplan ⊢
    refine .step Step.program_eq
      (.bind (.ask (fun primary? hprimary => ?_) fun f hf => h.lost hw₁ (.members hold hf)))
    have hfinds : Finds P r q k primary? := ⟨_, _, hw₁.1, hprimary⟩
    cases primary? with
    | none => exact .throw (h.lost hw₁ (.primary hkey hfinds rfl))
    | some primary =>
      refine .bind (.ask (fun context hask' => ?_) fun f hf => h.lost hw₁
        (.untaken hkey hfinds (fun context hcontext' => ?_)
        (Relocation.reports_of_context hf)))
      rotate_left
      · cases (Relocation.context_eq hcontext').symm.trans hf
      have hcontext' := Relocation.get?_of_context hask'
      refine .bind ((Step.Yields.mapM (fun seen ys w' => ys = seen.map Prod.snd ∧ Done P r q J (done
        ++ c.members.flatMap (memberPlan r q (some (.fields this captured)))
        ++ seen.map fun x => .capture k x.1 x.2) w') ?_ ⟨rfl, by simpa using hw₁⟩).mono ?_)
      · rintro seen entry behind ys w₂ hsplit ⟨rfl, hw₂⟩
        refine (h.field hraised hcontext (by simp [hsplit]) hkey hfinds hcontext'
          (by simp [hplan, hsplit]; rfl) hw₂).mono ?_
        rintro _ w₃ ⟨rfl, hw₃⟩
        exact ⟨by simp, by simpa using hw₃⟩
      rintro _ w₂ ⟨rfl, hw₂⟩
      cases new with
      | cls c' =>
        obtain ⟨members, hx₂, -⟩ := hw₂.1.classes hx hnew
        have hfill := h.fill (by simpa using hplan) hw₂ hx₂
        have hfilled : Filled (.cls { c' with members }) (.cls
            { c' with members := c.members.filterMap r.get? ++ captured.entries.map Prod.snd }) :=
          .cls
        have hframe :=
          hw₂.1.set hx₂ hfilled hlow rfl le_rfl rfl (fun _ => ⟨_, k, rfl, rfl⟩) (by rintro ⟨⟩)
          (by rintro _ _ _ ⟨⟩)
        refine .of_eq (Step.modifyDecl_eq hx₂)
          ⟨⟨⟨⟨x, hx⟩, ⟨this, captured, hcontext⟩, hmembers ▸ hreplaced⟩, primary, hfinds⟩, ?_, ?_⟩
        · simpa [Declaration.mapClass] using hframe
        · simpa [Declaration.mapClass] using hfill
      | _ => exact hmirrors.elim

/-- A local callable. -/
theorem callable (hlisted : d ∈ site.locals.functions.keys ∨ d ∈ site.locals.constructors)
    (hd : P.decls.get? d = some content) (hcallable : content.isCallable = true)
    (hplan : plan P site r q = done ++ (callablePlan r q d ++ rest)) (hw : Done P r q J done w) :
    (Retarget.callable site.locals r d).Yields w
      (fun _ w' => ServesCallable r d ∧ Done P r q J (done ++ callablePlan r q d) w') err := by
  have hserves : Serves P site r q → ServesCallable r d :=
    fun hs => hlisted.elim (hs.functions d) (hs.constructors d)
  unfold Retarget.callable
  refine .bind (.ask (fun context hask => ?_) fun f hf => h.lost hw
    (.unserved (fun hs => ?_) (Relocation.reports_of_context hf)))
  rotate_left
  · obtain ⟨-, context, hcontext⟩ := hserves hs
    cases (Relocation.context_eq hcontext).symm.trans hf
  refine .bind (.ask (fun x hlifted => ?_) fun f hf => h.lost hw
    (.unserved (fun hs => ?_) (Relocation.reports_of_lifted hf)))
  rotate_left
  · obtain ⟨⟨x, hx⟩, -⟩ := hserves hs
    cases (Relocation.lifted_eq hx).symm.trans hf
  have hx := Relocation.get?_of_lifted hlifted
  unfold callablePlan at hplan ⊢
  rw [hx, Relocation.get?_of_context hask] at hplan ⊢
  simp only [Option.toList_some, List.flatMap_cons, List.flatMap_nil, List.append_nil] at hplan ⊢
  exact (h.body hraised hx hd hcallable hplan hw).mono fun _ w' hw' =>
    ⟨⟨⟨x, hx⟩, context, Relocation.get?_of_context hask⟩, hw'⟩

omit hraised h in
/-- One part of the plan after the other. -/
theorem loop {act : DeclId → Step PUnit} {part : DeclId → List Chore} {S : DeclId → Prop}
    {ds : List DeclId} (hact : ∀ d ∈ ds, ∀ {done rest w},
      plan P site r q = done ++ (part d ++ rest) → Done P r q J done w →
      (act d).Yields w (fun _ w' => S d ∧ Done P r q J (done ++ part d) w') err)
    (hplan : plan P site r q = done ++ (ds.flatMap part ++ rest)) (hw : Done P r q J done w) :
    (ds.forM act).Yields w
      (fun _ w' => (∀ d ∈ ds, S d) ∧ Done P r q J (done ++ ds.flatMap part) w') err := by
  refine .forM (fun seen w' => (∀ d ∈ seen, S d) ∧ Done P r q J (done ++ seen.flatMap part) w') ?_
    ⟨by simp, by simpa using hw⟩
  rintro seen d behind w' hsplit ⟨hseen, hw'⟩
  have hplan' : plan P site r q = done ++ seen.flatMap part
      ++ (part d ++ (behind.flatMap part ++ rest)) := by
    simp [hplan, hsplit]
  refine (hact d (by simp [hsplit]) hplan' hw').mono fun _ w'' hw'' => ⟨?_, by simpa using hw''.2⟩
  simpa [or_imp, forall_and] using ⟨hseen, hw''.1⟩

/-- **Everything below one root.** -/
theorem all (hsorted : P.Sorted site.root site.locals)
    (hroot : P.decls.get? site.root = some content) (hw : Done P r q J [] w) :
    (Retarget.all site.locals r site.root).Yields w
      (fun _ w' => Serves P site r q
        ∧ (∀ k ∈ site.locals.classes.keys, ∃ primary, Finds P r q k (some primary))
        ∧ Done P r q J (plan P site r q) w') err := by
  have hplan : plan P site r q = [] ++ (site.locals.functions.keys.flatMap (callablePlan r q)
    ++ (site.locals.constructors.toList.flatMap (callablePlan r q)
    ++ (site.locals.classes.keys.flatMap (classPlan P r q)
    ++ (((P.decls.get? site.root).bind (·.body)).toList.map (.expr none) ++ [])))) := by simp [plan]
  refine .bind ((loop (S := ServesCallable r) (fun d hd => ?_) hplan hw).mono ?_)
  · obtain ⟨-, -, f, hf⟩ := (hsorted.functions d).1 hd
    exact h.callable hraised (.inl hd) hf rfl
  rintro _ w₁ ⟨hfunctions, hw₁⟩
  rw [← List.append_assoc] at hplan
  refine .bind ((loop (S := ServesCallable r) (fun d hd => ?_) hplan hw₁).mono ?_)
  · obtain ⟨-, c, hc⟩ := (hsorted.constructors d).1 hd
    exact h.callable hraised (.inr hd) hc rfl
  rintro _ w₂ ⟨hconstructors, hw₂⟩
  rw [← List.append_assoc] at hplan
  refine .bind ((loop (S := fun k => ServesClass P r q k ∧ ∃ primary, Finds P r q k (some primary))
    (fun d hd => ?_) hplan hw₂).mono ?_)
  · obtain ⟨-, -, c, hc⟩ := (hsorted.classes d).1 hd
    exact h.cls hraised hd hc
  rintro _ w₃ ⟨hclasses, hw₃⟩
  rw [← List.append_assoc, hroot] at hplan
  have hp : w₃.program.decls.get? site.root = some content :=
    (hw₃.1.old (Arena.lt_size_of_get? hroot)).trans (hraised.grown.decls _ _ hroot)
  refine .step (Step.decl_eq hp) ((h.code hplan hw₃).mono fun _ w' hw' => ?_)
  rw [List.append_nil] at hplan
  exact ⟨⟨hfunctions, hconstructors, fun k hk => (hclasses k hk).1⟩,
    fun k hk => (hclasses k hk).2, by rwa [hplan]⟩

end Works

end Retarget

end LambdaLift
