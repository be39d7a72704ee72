/-
  LambdaLift.Proofs.Simulation
  **FUNCTIONS THAT ARE HANDED WHAT THEY CAPTURED COMPUTE THE SAME.**

  A translation turns functions that read along links into functions that
  take what they need.  Both programs are run side by side, with the same
  fuel and the same places.  While an activation is under way, only its own
  values change in its place, so what it was handed at the start stays what
  it would read along the links (`Matches`).  Returning to a caller finds
  the caller's values as they were (`Evolves`).

  Main results:
    * `Translation.eval_agrees` — expressions evaluate alike;
    * `Translation.run_eq` — runs come to the same.
-/
import Mathlib
import LambdaLift.Proofs.Codes
import LambdaLift.Proofs.Evaluation
import LambdaLift.Proofs.Terms

namespace LambdaLift

variable {g : DeclId} {e : ExprId} {v : ValueId} {node : Expr} {f f' : FunctionDecl}
  {args caps : List ExprId} {a fuel : Nat}

/-! ## §1. Linked activations. -/

/-- The value that a node assigns. -/
def Expr.written? : Expr → Option ValueId
  | .set v _ => some v
  | .var v _ => some v
  | _ => none

namespace Program

/-- A function stands directly in another. -/
def Inner (P : Program) (d o : DeclId) : Prop :=
  ∃ f, P.decls.get? d = some (.function f) ∧ f.parent = some o

/-- A function is another, or stands somewhere in it. -/
def Within (P : Program) (d o : DeclId) : Prop := Relation.ReflTransGen P.Inner d o

/-- Evaluating an expression may assign a value, calls aside. -/
def Writes (P : Program) (e : ExprId) (v : ValueId) : Prop :=
  ∃ x node, P.Inside e x ∧ P.exprs.get? x = some node ∧ node.written? = some v

theorem Writes.operand {P : Program} {x : ExprId} (h : P.Writes x v)
    (he : P.exprs.get? e = some node) (hx : x ∈ node.operands) : P.Writes e v := by
  obtain ⟨y, node', hin, hy⟩ := h
  exact ⟨y, node', .head ⟨node, he, hx⟩ hin, hy⟩

end Program

/-- Each activation is linked to one of the function around its own, which was there before. -/
inductive Linked (P : Program) : Activation → Prop
  | outermost {d : DeclId} {a : Nat} {f : FunctionDecl} :
      P.decls.get? d = some (.function f) → f.parent = none →
      Linked P [(d, a)]
  | inner {d o : DeclId} {a b : Nat} {rest : Activation} {f : FunctionDecl} :
      P.decls.get? d = some (.function f) →
      f.parent = some o → b < a → Linked P ((o, b) :: rest) → Linked P ((d, a) :: (o, b) :: rest)

namespace Linked

variable {P : Program} {d o : DeclId} {a a' : Nat} {rest rest' act : Activation}

/-- What is linked to a function is the same for all of its activations. -/
theorem functions_eq (h : Linked P ((d, a) :: rest)) (h' : Linked P ((d, a') :: rest')) :
    rest.map Prod.fst = rest'.map Prod.fst := by
  induction rest generalizing d a a' rest' with
  | nil =>
    cases h with
    | outermost hd hnone =>
      cases h' with
      | outermost => rfl
      | inner hd' hsome =>
        cases hd.symm.trans hd'
        cases hnone.symm.trans hsome
  | cons x rest ih =>
    cases h with
    | inner hd hsome _ hrest =>
      cases h' with
      | outermost hd' hnone =>
        cases hd.symm.trans hd'
        cases hnone.symm.trans hsome
      | inner hd' hsome' _ hrest' =>
        cases hd.symm.trans hd'
        cases hsome.symm.trans hsome'
        simpa using ih hrest hrest'

theorem tail (h : Linked P ((d, a) :: rest)) {x : DeclId × Nat} {more : Activation}
    (hrest : rest = x :: more) : Linked P rest := by
  cases h with
  | outermost => cases hrest
  | inner _ _ _ htail => exact htail

theorem suffix (before : Activation) {x : DeclId × Nat} (h : Linked P (before ++ x :: rest)) :
    Linked P (x :: rest) := by
  induction before with
  | nil => exact h
  | cons y before ih =>
    cases hrest : before ++ x :: rest with
    | nil => simp at hrest
    | cons z more =>
      rw [List.cons_append, hrest] at h
      exact ih (hrest ▸ h.tail rfl)

/-- No function is linked to itself. -/
theorem nodup (h : Linked P act) : (act.map Prod.fst).Nodup := by
  induction act with
  | nil => exact .nil
  | cons x rest ih =>
    obtain ⟨d, a⟩ := x
    cases hrest : rest with
    | nil => simp
    | cons y more =>
      rw [hrest] at h ih
      rw [List.map_cons, List.nodup_cons]
      refine ⟨fun hmem => ?_, ih (h.tail rfl)⟩
      -- from the second activation of the function on, the links would be as long as from the first
      obtain ⟨⟨d', b⟩, hx, hd⟩ := List.mem_map.1 hmem
      obtain ⟨before, after, hsplit⟩ := List.append_of_mem hx
      have hd : d' = d := hd
      subst hd
      have hsuffix : Linked P ((d', b) :: after) := by
        rw [hsplit] at h
        exact suffix ((d', a) :: before) h
      have hlength := congrArg List.length (h.functions_eq hsuffix)
      rw [hsplit] at hlength
      simp at hlength
      omega

/-- An activation is linked to one of each function around its own. -/
theorem mem_of_within (h : Linked P ((d, a) :: rest)) (hwithin : P.Within d o) :
    ∃ b, (o, b) ∈ (d, a) :: rest := by
  induction hwithin using Relation.ReflTransGen.head_induction_on generalizing a rest with
  | refl => exact ⟨a, List.mem_cons_self⟩
  | head hinner _ ih =>
    obtain ⟨f, hd, hparent⟩ := hinner
    cases h with
    | outermost hd' hnone =>
      cases hd.symm.trans hd'
      cases hnone.symm.trans hparent
    | inner hd' hsome _ hrest =>
      cases hd.symm.trans hd'
      cases hsome.symm.trans hparent
      obtain ⟨b, hb⟩ := ih hrest
      exact ⟨b, List.mem_cons_of_mem _ hb⟩

theorem lookup_eq_some (h : Linked P act) {b : Nat} (hmem : (o, b) ∈ act) :
    act.lookup o = some b := by
  have hnodup := h.nodup
  clear h
  induction act with
  | nil => cases hmem
  | cons x rest ih =>
    rw [List.map_cons, List.nodup_cons] at hnodup
    rcases List.mem_cons.1 hmem with rfl | hmem
    · simp
    · have hne : o ≠ x.1 := by
        rintro rfl
        exact hnodup.1 (List.mem_map.2 ⟨_, hmem, rfl⟩)
      rw [List.lookup_cons, beq_eq_false_iff_ne.2 hne]
      exact ih hmem hnodup.2

/-- A function that stands in a function around the caller's finds its link. -/
theorem exists_link (h : Linked P ((d, a) :: rest)) (hwithin : P.Within d o) :
    ∃ b before more, (d, a) :: rest = before ++ (o, b) :: more
      ∧ Eval.link? ((d, a) :: rest) (some o) = some ((o, b) :: more)
      ∧ Linked P ((o, b) :: more) := by
  obtain ⟨b, hb⟩ := h.mem_of_within hwithin
  obtain ⟨before, more, hsplit⟩ := List.append_of_mem hb
  have hnodup := h.nodup
  rw [hsplit] at h hnodup ⊢
  refine ⟨b, before, more, rfl, ?_, suffix before h⟩
  have hbefore : ∀ x ∈ before, decide (x.1 ≠ o) = true := by
    intro x hx
    rw [decide_eq_true_iff]
    rintro rfl
    rw [List.map_append, List.nodup_append] at hnodup
    exact hnodup.2.2 x.1 (List.mem_map.2 ⟨x, hx, rfl⟩) x.1 (by simp) rfl
  have hdrop : (before ++ (o, b) :: more).dropWhile (fun x => decide (x.1 ≠ o))
      = (o, b) :: more := by
    rw [List.dropWhile_append_of_pos hbefore]
    simp
  simp only [Eval.link?, hdrop]

end Linked

/-! ## §2. Translations. -/

/-- What every function of a program becomes in another: the functions that are translated, what
each becomes, what it is handed, the values that its code may name, and what it names instead. -/
structure Dictionary where
  dom : DeclId → Prop
  image : DeclId → DeclId
  taken : DeclId → List ValueId
  knows : DeclId → ValueId → Prop
  seen : DeclId → ValueId → ValueId

/-- A node that was added to the code of `d` reads a value there. -/
def Dictionary.Hands (T : Dictionary) (P p : Program) (d : DeclId) (u : ValueId)
    (x : ExprId) : Prop :=
  P.exprs.size ≤ x.index ∧ p.exprs.get? x = some (.get (T.seen d u))

/-- What becomes of a node in the code of `d`. -/
inductive Dictionary.NodeTo (T : Dictionary) (P p : Program) (d : DeclId) : Expr → Expr → Prop
  | lit {value : Literal} : NodeTo T P p d (.lit value) (.lit value)
  | get {v : ValueId} : T.knows d v → NodeTo T P p d (.get v) (.get (T.seen d v))
  | set {v : ValueId} {source : ExprId} : T.knows d v → v ∉ T.taken d →
      NodeTo T P p d (.set v source) (.set (T.seen d v) source)
  | var {v : ValueId} {init : Option ExprId} : T.knows d v → v ∉ T.taken d →
      NodeTo T P p d (.var v init) (.var (T.seen d v) init)
  | decl {x : DeclId} : NodeTo T P p d (.decl x) (.block [])
  /-- the callee is handed what it captured first, by nodes of its own -/
  | call {a : Access} {f : FunctionDecl} {caps : List ExprId} : T.dom a.callee →
      P.decls.get? a.callee = some (.function f) → (∀ o, f.parent = some o → P.Within d o) →
      a.args.length = f.params.length →
      List.Forall₂ (T.Hands P p d) (T.taken a.callee) caps →
      (∀ u ∈ T.taken a.callee, T.knows d u ∧ ∀ e, some e ∈ a.args → ¬ P.Writes e u) →
      NodeTo T P p d (.access .call a)
        (.access .call { a with callee := T.image a.callee, args := caps.map some ++ a.args })
  | ret {target : DeclId} {value : ExprId} : T.dom target →
      NodeTo T P p d (.ret target value) (.ret (T.image target) value)
  | block {stmts : List ExprId} : NodeTo T P p d (.block stmts) (.block stmts)
  | branch {cond thenE : ExprId} {elseE : Option ExprId} :
      NodeTo T P p d (.branch cond thenE elseE) (.branch cond thenE elseE)
  | loop {cond body : ExprId} : NodeTo T P p d (.loop cond body) (.loop cond body)
  | binary {op : BinOp} {lhs rhs : ExprId} :
      NodeTo T P p d (.binary op lhs rhs) (.binary op lhs rhs)

/-- A function takes what it is handed, then what it took before, and stands at module level. -/
structure Dictionary.FunctionTo (T : Dictionary) (d : DeclId) (f f' : FunctionDecl) : Prop where
  parent : f'.parent = none
  body : f'.body = f.body
  params : f'.params = (T.taken d).map (T.seen d) ++ f.params.map (T.seen d)
  receiver : f'.extensionReceiver = f.extensionReceiver.map (T.seen d)
  bodiless : f.body = none → T.taken d = []
  knows : ∀ v ∈ T.taken d ++ f.extensionReceiver.toList ++ f.params, T.knows d v
  apart : ∀ v ∈ f.extensionReceiver.toList ++ f.params, v ∉ T.taken d

/-- What becomes of one function: of its declaration, of its code, and of the values that its code
names. -/
structure Dictionary.Covers (T : Dictionary) (P p : Program) (d : DeclId) : Prop where
  function : ∃ f f', P.decls.get? d = some (.function f)
    ∧ p.decls.get? (T.image d) = some (.function f')
    ∧ T.FunctionTo d f f'
  nodes : ∀ {e}, CodeOf P d e →
    ∃ node node', P.exprs.get? e = some node ∧ p.exprs.get? e = some node'
    ∧ T.NodeTo P p d node node'
  owner : ∀ {v}, T.knows d v → ∃ o, P.Owns o v ∧ P.Within d o ∧ (o = d ↔ v ∉ T.taken d)
    ∧ p.Owns (T.image d) (T.seen d v)
  seen_inj : ∀ {u v}, T.knows d u → T.knows d v → T.seen d u = T.seen d v → u = v

/-- **A translation** of one program into another. -/
structure Translation (T : Dictionary) (P p : Program) : Prop where
  covers : ∀ {d}, T.dom d → T.Covers P p d
  image_inj : ∀ {d target}, T.dom d → T.dom target → T.image target = T.image d → target = d

/-! ## §3. Stores side by side. -/

section

variable {V : Type} {T : Dictionary} {P p : Program}

/-- The stores agree on what the activation of `d` in place `a` may name. -/
structure Matches (T : Dictionary) (P : Program) (d : DeclId) (a : Nat) (rest : Activation)
    (σ σ' : Store V) : Prop where
  next : σ'.next = σ.next
  below : ∀ x ∈ (d, a) :: rest, x.2 < σ.next
  cells : ∀ {v place}, T.knows d v → P.place? ((d, a) :: rest) v = some place →
    σ'.cells a (T.seen d v) = σ.cells place v

/-- Of the places that were there, only `a` may have changed, and there only these values. -/
structure Evolves (W : ValueId → Prop) (a : Nat) (σ σ₁ : Store V) : Prop where
  next : σ.next ≤ σ₁.next
  others : ∀ b < σ.next, b ≠ a → σ₁.cells b = σ.cells b
  kept : ∀ v, ¬ W v → σ₁.cells a v = σ.cells a v

theorem Evolves.refl (W : ValueId → Prop) (a : Nat) (σ : Store V) : Evolves W a σ σ :=
  ⟨le_rfl, fun _ _ _ => rfl, fun _ _ => rfl⟩

theorem Evolves.trans {W : ValueId → Prop} {σ σ₁ σ₂ : Store V} (h : Evolves W a σ σ₁)
    (h' : Evolves W a σ₁ σ₂) : Evolves W a σ σ₂ :=
  ⟨h.next.trans h'.next,
    fun b hb hne => (h'.others b (hb.trans_le h.next) hne).trans (h.others b hb hne),
    fun v hv => (h'.kept v hv).trans (h.kept v hv)⟩

theorem Evolves.mono {W W' : ValueId → Prop} {σ σ₁ : Store V} (h : Evolves W a σ σ₁)
    (hW : ∀ v, W v → W' v) : Evolves W' a σ σ₁ :=
  ⟨h.next, h.others, fun v hv => h.kept v fun hw => hv (hW v hw)⟩

/-- The stores before and after a part of the activation of `d` in place `a`. -/
structure After (T : Dictionary) (P : Program) (d : DeclId) (a : Nat) (rest : Activation)
    (W : ValueId → Prop) (σ σ' σ₁ σ₁' : Store V) : Prop where
  matched : Matches T P d a rest σ₁ σ₁'
  source : Evolves W a σ σ₁
  target : Evolves (fun _ => True) a σ' σ₁'

/-- Two results agree: the same value, or a return on its way to functions that correspond, with
stores as they should be; or both are stuck, or both are out of fuel. -/
inductive Agree {α : Type} (T : Dictionary) (post : Store V → Store V → Prop) :
    EStateM.Result (Exit V) (Store V) α → EStateM.Result (Exit V) (Store V) α → Prop
  | ok {x : α} {σ σ' : Store V} : post σ σ' → Agree T post (.ok x σ) (.ok x σ')
  | returned {target : DeclId} {x : V} {σ σ' : Store V} : T.dom target → post σ σ' →
      Agree T post (.error (.returned target x) σ) (.error (.returned (T.image target) x) σ')
  | stuck {σ σ' : Store V} : Agree T post (.error .stuck σ) (.error .stuck σ')
  | endless {σ σ' : Store V} : Agree T post (.error .endless σ) (.error .endless σ')

theorem Agree.mono {α : Type} {post post' : Store V → Store V → Prop}
    {x y : EStateM.Result (Exit V) (Store V) α} (h : Agree T post x y)
    (hpost : ∀ σ σ', post σ σ' → post' σ σ') : Agree T post' x y := by
  cases h with
  | ok h => exact .ok (hpost _ _ h)
  | returned htarget h => exact .returned htarget (hpost _ _ h)
  | stuck => exact .stuck
  | endless => exact .endless

/-- Results that agree come to the same. -/
theorem Agree.ofResult_eq {post : Store V → Store V → Prop}
    {x y : EStateM.Result (Exit V) (Store V) V} (h : Agree T post x y) :
    Program.Outcome.ofResult y = Program.Outcome.ofResult x := by
  cases h <;> rfl

variable {d : DeclId} {a : Nat} {rest : Activation} {W : ValueId → Prop} {σ σ' : Store V}

theorem After.refl (h : Matches T P d a rest σ σ') : After T P d a rest W σ σ' σ σ' :=
  ⟨h, .refl _ _ _, .refl _ _ _⟩

theorem After.trans {σ₁ σ₁' σ₂ σ₂' : Store V} (h : After T P d a rest W σ σ' σ₁ σ₁')
    (h' : After T P d a rest W σ₁ σ₁' σ₂ σ₂') : After T P d a rest W σ σ' σ₂ σ₂' :=
  ⟨h'.matched, h.source.trans h'.source, h.target.trans h'.target⟩

theorem After.mono {W' : ValueId → Prop} {σ₁ σ₁' : Store V} (h : After T P d a rest W' σ σ' σ₁ σ₁')
    (hW : ∀ v, W' v → W v) : After T P d a rest W σ σ' σ₁ σ₁' :=
  ⟨h.matched, h.source.mono hW, h.target⟩

/-- One part after the other. -/
theorem Agree.bind {α β : Type} {U : ValueId → Prop} {x y : Eval V α} {f g : α → Eval V β}
    (h : Agree T (After T P d a rest U σ σ') (x σ) (y σ')) (hW : ∀ v, U v → W v)
    (hk : ∀ v σ₁ σ₁', After T P d a rest U σ σ' σ₁ σ₁' →
      Agree T (After T P d a rest W σ₁ σ₁') (f v σ₁) (g v σ₁')) :
    Agree T (After T P d a rest W σ σ') ((x >>= f) σ) ((y >>= g) σ') := by
  show Agree T _ (EStateM.bind x f σ) (EStateM.bind y g σ')
  unfold EStateM.bind
  generalize x σ = rx at h ⊢
  generalize y σ' = ry at h ⊢
  cases h with
  | ok hafter => exact (hk _ _ _ hafter).mono fun _ _ h' => (hafter.mono hW).trans h'
  | returned htarget hafter => exact .returned htarget (hafter.mono hW)
  | stuck => exact .stuck
  | endless => exact .endless

theorem Agree.pure {α : Type} {x : α} (h : Matches T P d a rest σ σ') :
    Agree T (After T P d a rest W σ σ') ((Pure.pure x : Eval V α) σ)
      ((Pure.pure x : Eval V α) σ') :=
  .ok (.refl h)

theorem Agree.optionMapM {α β : Type} {f g : α → Eval V β} {x? : Option α}
    (hf : ∀ x ∈ x?, ∀ σ σ', Matches T P d a rest σ σ' →
      Agree T (After T P d a rest W σ σ') (f x σ) (g x σ'))
    (h : Matches T P d a rest σ σ') :
    Agree T (After T P d a rest W σ σ') (x?.mapM f σ) (x?.mapM g σ') := by
  cases x? with
  | none => exact .pure h
  | some x =>
    show Agree T _ ((some <$> f x) σ) ((some <$> g x) σ')
    rw [← bind_pure_comp, ← bind_pure_comp]
    exact .bind (hf x rfl σ σ' h) (fun _ => id) fun v σ₁ σ₁' h₁ => .pure h₁.matched

theorem Agree.mapM {α β : Type} {f g : α → Eval V β} {as : List α}
    (hf : ∀ x ∈ as, ∀ σ σ', Matches T P d a rest σ σ' →
      Agree T (After T P d a rest W σ σ') (f x σ) (g x σ'))
    (h : Matches T P d a rest σ σ') :
    Agree T (After T P d a rest W σ σ') (as.mapM f σ) (as.mapM g σ') := by
  induction as generalizing σ σ' with
  | nil => exact .pure h
  | cons x as ih =>
    rw [List.mapM_cons, List.mapM_cons]
    refine .bind (hf x List.mem_cons_self σ σ' h) (fun _ => id) fun v σ₁ σ₁' h₁ => ?_
    refine .bind (ih (fun y hy => hf y (List.mem_cons_of_mem _ hy)) h₁.matched)
      (fun _ => id) fun vs σ₂ σ₂' h₂ => ?_
    exact .pure h₂.matched

theorem Agree.foldlM {α β : Type} {f g : β → α → Eval V β} {as : List α} {b : β}
    (hf : ∀ b, ∀ x ∈ as, ∀ σ σ', Matches T P d a rest σ σ' →
      Agree T (After T P d a rest W σ σ') (f b x σ) (g b x σ'))
    (h : Matches T P d a rest σ σ') :
    Agree T (After T P d a rest W σ σ') (as.foldlM f b σ) (as.foldlM g b σ') := by
  induction as generalizing σ σ' b with
  | nil => exact .pure h
  | cons x as ih =>
    rw [List.foldlM_cons, List.foldlM_cons]
    refine .bind (hf b x List.mem_cons_self σ σ' h) (fun _ => id) fun v σ₁ σ₁' h₁ => ?_
    exact ih (fun b y hy => hf b y (List.mem_cons_of_mem _ hy)) h₁.matched

end

/-! ## §4. Reading, writing and entering. -/

theorem lookup_map_of_inj {α β γ : Type} [DecidableEq α] [DecidableEq β] {f : α → β}
    {l : List (α × γ)} {v : α} (hinj : ∀ x ∈ l, f v = f x.1 → v = x.1) :
    (l.map fun x => (f x.1, x.2)).lookup (f v) = l.lookup v := by
  induction l with
  | nil => rfl
  | cons x l ih =>
    rw [List.map_cons, List.lookup_cons, List.lookup_cons,
      ih fun y hy => hinj y (List.mem_cons_of_mem _ hy)]
    have : (f v == f x.1) = (v == x.1) := by
      rw [Bool.eq_iff_iff, beq_iff_eq, beq_iff_eq]
      exact ⟨hinj x List.mem_cons_self, congrArg f⟩
    rw [this]

theorem exists_lookup_zip {α β : Type} [DecidableEq α] {ks : List α} {xs : List β} {v : α}
    (hv : v ∈ ks) (hlength : ks.length = xs.length) :
    ∃ x, (ks.zip xs).lookup v = some x ∧ (v, x) ∈ ks.zip xs := by
  cases hx : (ks.zip xs).lookup v with
  | none =>
    rw [← List.map_fst_zip hlength.le] at hv
    obtain ⟨y, hy, rfl⟩ := List.mem_map.1 hv
    simpa using List.lookup_eq_none_iff.1 hx y hy
  | some x =>
    obtain ⟨before, after, hsplit, -⟩ := List.lookup_eq_some_iff.1 hx
    exact ⟨x, rfl, by simp [hsplit]⟩

namespace Translation

variable {V : Type} {T : Dictionary} {P p : Program} (h : Translation T P p) {d : DeclId} {a : Nat}
  {rest : Activation} {W : ValueId → Prop} {σ σ' : Store V} (m : Meaning V)
include h

/-- Known values have a place, in the activation of a function around. -/
theorem exists_place (hd : T.dom d) (hlinked : Linked P ((d, a) :: rest)) (hv : T.knows d v) :
    ∃ o place, P.Owns o v ∧ (o, place) ∈ (d, a) :: rest ∧ P.place? ((d, a) :: rest) v = some place
      ∧ (o = d ↔ v ∉ T.taken d) := by
  obtain ⟨o, howns, hwithin, htaken, -⟩ := (h.covers hd).owner hv
  obtain ⟨place, hmem⟩ := hlinked.mem_of_within hwithin
  refine ⟨o, place, howns, hmem, ?_, htaken⟩
  obtain ⟨value, hvalue, rfl⟩ := howns
  simp [Program.place?, hvalue, hlinked.lookup_eq_some hmem]

/-- In the translated function every known value is in its own place. -/
theorem place?_seen (hd : T.dom d) (hv : T.knows d v) :
    p.place? [(T.image d, a)] (T.seen d v) = some a := by
  obtain ⟨o, -, -, -, value, hvalue, howner⟩ := (h.covers hd).owner hv
  simp [Program.place?, hvalue, howner]

/-- **Reads agree.** -/
theorem read_agrees (hd : T.dom d) (hlinked : Linked P ((d, a) :: rest))
    (hm : Matches T P d a rest σ σ') (hv : T.knows d v) :
    Agree T (After T P d a rest W σ σ') (Eval.read P ((d, a) :: rest) v σ)
      (Eval.read p [(T.image d, a)] (T.seen d v) σ') := by
  obtain ⟨o, place, -, -, hplace, -⟩ := h.exists_place hd hlinked hv
  unfold Eval.read
  rw [hplace, h.place?_seen hd hv]
  show Agree T _ (.ok (σ.cells place v) σ) (.ok (σ'.cells a (T.seen d v)) σ')
  rw [hm.cells hv hplace]
  exact .ok (.refl hm)

/-- **Writes agree.**  What a function was handed is not written. -/
theorem write_agrees (hd : T.dom d) (hlinked : Linked P ((d, a) :: rest))
    (hm : Matches T P d a rest σ σ') (hv : T.knows d v) (htaken : v ∉ T.taken d)
    (hW : W v) (x : V) : Agree T (After T P d a rest W σ σ') (Eval.write P ((d, a) :: rest) v x σ)
      (Eval.write p [(T.image d, a)] (T.seen d v) x σ') := by
  obtain ⟨o, place, -, hmem, hplace, ho⟩ := h.exists_place hd hlinked hv
  obtain rfl := ho.2 htaken
  obtain rfl : place = a := by
    have := hlinked.lookup_eq_some hmem
    simpa using this.symm
  unfold Eval.write
  rw [hplace, h.place?_seen hd hv]
  refine .ok ⟨⟨hm.next, hm.below, fun {u b} hu hb => ?_⟩, ⟨le_rfl, ?_, ?_⟩, ⟨le_rfl, ?_, by simp⟩⟩
  · by_cases huv : u = v
    · subst huv
      cases hplace.symm.trans hb
      simp [Store.set]
    · have hseen : T.seen o u ≠ T.seen o v := fun heq => huv ((h.covers hd).seen_inj hu hv heq)
      have hold := hm.cells hu hb
      by_cases hba : b = place
      · subst hba
        simpa [Store.set, hseen, huv] using hold
      · simpa [Store.set, hseen, hba] using hold
  · intro b _ hb
    simp [Store.set, hb]
  · intro u hu
    have huv : u ≠ v := by
      rintro rfl
      exact hu hW
    simp [Store.set, huv]
  · intro b _ hb
    simp [Store.set, hb]

omit h in
/-- What a translated function is handed comes between the receiver and the arguments. -/
theorem initial_seen (hto : T.FunctionTo d f f')
    (hinj : ∀ u, T.knows d u → T.seen d v = T.seen d u → v = u) (receiver : Option V)
    {caps : List V} (args : List V) (hlength : caps.length = (T.taken d).length) :
    Eval.initial m f' receiver (caps ++ args) (T.seen d v)
      = (((f.extensionReceiver.toList.zip receiver.toList
      ++ ((T.taken d).zip caps ++ f.params.zip args)).lookup v)).getD m.unit := by
  unfold Eval.initial
  rw [hto.params, hto.receiver, List.zip_append (by simp [hlength])]
  have htoList : (f.extensionReceiver.map (T.seen d)).toList
      = f.extensionReceiver.toList.map (T.seen d) := by
    cases f.extensionReceiver <;> rfl
  rw [htoList, List.zip_map_left, List.zip_map_left,
    List.zip_map_left, ← List.map_append, ← List.map_append]
  refine congrArg (Option.getD · m.unit) ?_
  refine lookup_map_of_inj fun x hx => hinj x.1 (hto.knows x.1 ?_)
  simp only [List.mem_append] at hx ⊢
  rcases hx with hx | hx | hx
  · exact .inl (.inr (List.of_mem_zip hx).1)
  · exact .inl (.inl (List.of_mem_zip hx).1)
  · exact .inr (List.of_mem_zip hx).1

/-- **A new activation** finds what it was handed as it would find it along its links. -/
theorem enter_matches (hd : T.dom d) (hto : T.FunctionTo d f f') {link : Activation}
    (hlinked : Linked P ((d, σ.next) :: link)) (hnext : σ'.next = σ.next)
    (hbelow : ∀ x ∈ link, x.2 < σ.next) (receiver : Option V) (caps args : List V)
    (hcaps : List.Forall₂ (fun u x => ∀ place, P.place? link u = some place →
      σ.cells place u = x) (T.taken d) caps) :
    Matches T P d σ.next link (σ.push (Eval.initial m f receiver args))
      (σ'.push (Eval.initial m f' receiver (caps ++ args))) := by
  refine ⟨by simp [Store.push, hnext], fun x hx => ?_, fun {v place} hv hplace => ?_⟩
  · rcases List.mem_cons.1 hx with rfl | hx
    · exact Nat.lt_succ_self _
    · exact (hbelow x hx).trans (Nat.lt_succ_self _)
  have hinitial :=
    initial_seen m hto (fun u hu => (h.covers hd).seen_inj hv hu) receiver args hcaps.length_eq.symm
  have htarget : (σ'.push (Eval.initial m f' receiver (caps ++ args))).cells σ.next (T.seen d v)
      = Eval.initial m f' receiver (caps ++ args) (T.seen d v) := by
    simp [Store.push, hnext]
  rw [htarget, hinitial, List.lookup_append, List.lookup_append]
  obtain ⟨o, place', ⟨value, hvalue, howner⟩, hmem, hplace', ho⟩ := h.exists_place hd hlinked hv
  obtain rfl : place = place' := Option.mem_unique hplace hplace'
  by_cases htaken : v ∈ T.taken d
  · -- handed over: neither the receiver nor a parameter
    have hne : o ≠ d := fun heq => ho.1 heq htaken
    have hlink : (o, place) ∈ link := by
      rcases List.mem_cons.1 hmem with heq | hlink
      · exact absurd (Prod.mk.inj heq).1 hne
      · exact hlink
    have hplaceLink : P.place? link v = some place := by
      simp only [Program.place?, hvalue, Option.bind_some, howner] at hplace ⊢
      rwa [List.lookup_cons, beq_eq_false_iff_ne.2 hne] at hplace
    have hreceiver : (f.extensionReceiver.toList.zip receiver.toList).lookup v = none := by
      rw [List.lookup_eq_none_iff]
      intro x hx
      have := hto.apart x.1 (List.mem_append_left _ (List.of_mem_zip hx).1)
      simp only [bne_iff_ne, ne_eq]
      rintro rfl
      exact this htaken
    have hsource : (σ.push (Eval.initial m f receiver args)).cells place v = σ.cells place v := by
      have := hbelow _ hlink
      simp [Store.push, Nat.ne_of_lt this]
    obtain ⟨x, hx, hmemx⟩ := exists_lookup_zip htaken hcaps.length_eq
    rw [hsource, hreceiver, hx]
    have := (List.forall₂_iff_zip.1 hcaps).2 hmemx place hplaceLink
    simpa using this.symm
  · obtain rfl := ho.2 htaken
    have hnone : ((T.taken o).zip caps).lookup v = none := by
      rw [List.lookup_eq_none_iff]
      intro x hx
      simp only [bne_iff_ne, ne_eq]
      rintro rfl
      exact htaken (List.of_mem_zip hx).1
    have hsource : place = σ.next := by
      have := hlinked.lookup_eq_some hmem
      simpa using this.symm
    rw [hnone, hsource]
    simp [Store.push, Eval.initial, List.lookup_append]

/-! ## §5. Calls. -/

/-- Returns are caught by functions that correspond. -/
theorem catching_agrees (hd : T.dom d) {post : Store V → Store V → Prop} {x y : Eval V V}
    (hxy : Agree T post (x σ) (y σ')) :
    Agree T post (Eval.catching d x σ) (Eval.catching (T.image d) y σ') := by
  unfold Eval.catching
  generalize x σ = rx at hxy ⊢
  generalize y σ' = ry at hxy ⊢
  cases hxy with
  | ok hpost => exact .ok hpost
  | stuck => exact .stuck
  | endless => exact .endless
  | @returned target v _ _ hdom hpost =>
    by_cases htarget : target = d
    · subst htarget
      simpa using .ok hpost
    · have : T.image target ≠ T.image d := fun heq => htarget (h.image_inj hd hdom heq)
      simpa [htarget, this] using .returned hdom hpost

omit h in
/-- After a call the caller finds everything as it was: the callee had a place of its own. -/
theorem after_call {link : Activation} {cells cells' : ValueId → V} {W' : ValueId → Prop}
    {σ₂ σ₂' : Store V} (hm : Matches T P d a rest σ σ')
    (h₂ : After T P g σ.next link W' (σ.push cells) (σ'.push cells') σ₂ σ₂')
    (hplaces : ∀ {v place}, P.place? ((d, a) :: rest) v = some place → place < σ.next) :
    After T P d a rest W σ σ' σ₂ σ₂' := by
  have ha : a < σ.next := hm.below (d, a) List.mem_cons_self
  have hsource : ∀ b < σ.next, σ₂.cells b = σ.cells b := by
    intro b hb
    rw [h₂.source.others b (hb.trans (Nat.lt_succ_self _)) (Nat.ne_of_lt hb)]
    simp [Store.push, Nat.ne_of_lt hb]
  have htarget : ∀ b < σ.next, σ₂'.cells b = σ'.cells b := by
    intro b hb
    rw [h₂.target.others b
      (by rw [← hm.next] at hb; exact hb.trans (Nat.lt_succ_self _)) (Nat.ne_of_lt hb)]
    simp [Store.push, hm.next, Nat.ne_of_lt hb]
  have hnext : σ.next ≤ σ₂.next := (Nat.le_succ _).trans h₂.source.next
  refine ⟨⟨h₂.matched.next, fun x hx => (hm.below x hx).trans_le hnext,
    fun {v place} hv hplace => ?_⟩,
    ⟨hnext, fun b hb _ => hsource b hb, fun v _ => by rw [hsource a ha]⟩,
    ⟨(Nat.le_succ _).trans h₂.target.next, fun b hb _ => htarget b (hm.next ▸ hb), by simp⟩⟩
  rw [htarget a ha, hsource place (hplaces hplace)]
  exact hm.cells hv hplace

omit h in
/-- A place that a value has belongs to one of the activations at hand. -/
theorem place_lt (hm : Matches T P d a rest σ σ') {place : Nat}
    (hplace : P.place? ((d, a) :: rest) v = some place) : place < σ.next := by
  obtain ⟨value, -, hlookup⟩ := Option.bind_eq_some_iff.1 hplace
  obtain ⟨before, after, hsplit, -⟩ := List.lookup_eq_some_iff.1 hlookup
  exact hm.below (value.owner, place) (by rw [hsplit]; simp)

/-- Evaluation agrees in every activation of a translated function, with this much fuel. -/
def EvalAgrees (T : Dictionary) (P p : Program) (m : Meaning V) (fuel : Nat) : Prop :=
  ∀ {d : DeclId} {a : Nat} {rest : Activation} {e : ExprId} {σ σ' : Store V},
    T.dom d → CodeOf P d e →
    Linked P ((d, a) :: rest) → Matches T P d a rest σ σ' →
    Agree T (After T P d a rest (P.Writes e) σ σ') (P.eval m fuel ((d, a) :: rest) e σ)
      (p.eval m fuel [(T.image d, a)] e σ')

/-- The body of a function that has been entered. -/
theorem body_agrees (ih : EvalAgrees T P p m fuel) (hd : T.dom d)
    (hf : P.decls.get? d = some (.function f)) (hto : T.FunctionTo d f f')
    (hlinked : Linked P ((d, a) :: rest)) (hm : Matches T P d a rest σ σ') :
    ∃ W, Agree T (After T P d a rest W σ σ')
      (Eval.catching d (Eval.optional m (P.eval m fuel ((d, a) :: rest)) f.body) σ)
      (Eval.catching (T.image d)
        (Eval.optional m (p.eval m fuel [(T.image d, a)]) f'.body) σ') := by
  rw [hto.body]
  cases hbody : f.body with
  | none => exact ⟨fun _ => False, h.catching_agrees hd (.pure hm)⟩
  | some e => exact ⟨_, h.catching_agrees hd (ih hd (.code hf hbody) hlinked hm)⟩

/-- **An invocation agrees** if what is handed over is what the callee would read along its
links. -/
theorem invoke_agrees (ih : EvalAgrees T P p m fuel) (hlinked : Linked P ((d, a) :: rest))
    (hm : Matches T P d a rest σ σ') (hg : T.dom g) (hf : P.decls.get? g = some (.function f))
    (hto : T.FunctionTo g f f') (hparent : ∀ o, f.parent = some o → P.Within d o)
    {receiver : Option V} {caps args : List V}
    (hcaps : List.Forall₂ (fun u x => ∀ place, P.place? ((d, a) :: rest) u = some place →
      σ.cells place u = x) (T.taken g) caps) :
    Agree T (After T P d a rest W σ σ')
      (Eval.invoke m (P.eval m fuel) ((d, a) :: rest) g f receiver args σ) (Eval.invoke m
        (p.eval m fuel) [(T.image d, a)] (T.image g) f' receiver (caps ++ args) σ') := by
  obtain ⟨link, hlink, hinner, hsub⟩ : ∃ link, Eval.link? ((d, a) :: rest) f.parent = some link
      ∧ Linked P ((g, σ.next) :: link) ∧ ∀ x ∈ link, x ∈ (d, a) :: rest := by
    cases hp : f.parent with
    | none => exact ⟨[], rfl, .outermost hf hp, by simp⟩
    | some o =>
      obtain ⟨b, before, more, hsplit, hlink, hlinked'⟩ := hlinked.exists_link (hparent o hp)
      have hsub : ∀ x ∈ (o, b) :: more, x ∈ (d, a) :: rest :=
        fun x hx => hsplit ▸ List.mem_append_right _ hx
      exact ⟨_, hlink, .inner hf hp (hm.below _ (hsub _ List.mem_cons_self)) hlinked', hsub⟩
  -- what the callee is linked to, the caller is linked to as well
  have hplaces : ∀ {u place}, P.place? link u = some place →
      P.place? ((d, a) :: rest) u = some place := by
    intro u place hplace
    obtain ⟨value, hvalue, hlookup⟩ := Option.bind_eq_some_iff.1 hplace
    obtain ⟨before, after, hsplit, -⟩ := List.lookup_eq_some_iff.1 hlookup
    have hmem : (value.owner, place) ∈ (d, a) :: rest := hsub _ (by rw [hsplit]; simp)
    simp [Program.place?, hvalue, hlinked.lookup_eq_some hmem]
  have hmatches :=
    h.enter_matches m hg hto hinner hm.next (fun x hx => hm.below x (hsub x hx)) receiver _ args
    (hcaps.imp fun u x hux place hplace => hux place (hplaces hplace))
  obtain ⟨W', hbody⟩ := h.body_agrees m ih hg hf hto hinner hmatches
  have hlink' : Eval.link? [(T.image d, a)] f'.parent = some [] := by rw [hto.parent]; rfl
  have hsource : Eval.invoke m (P.eval m fuel) ((d, a) :: rest) g f receiver args σ
      = Eval.catching g (Eval.optional m (P.eval m fuel ((g, σ.next) :: link)) f.body)
        (σ.push (Eval.initial m f receiver args)) := by
    unfold Eval.invoke Eval.enter
    rw [hlink]
    rfl
  have htarget : Eval.invoke m (p.eval m fuel) [(T.image d, a)]
      (T.image g) f' receiver (caps ++ args) σ'
      = Eval.catching (T.image g) (Eval.optional m (p.eval m fuel [(T.image g, σ.next)]) f'.body)
        (σ'.push (Eval.initial m f' receiver (caps ++ args))) := by
    unfold Eval.invoke Eval.enter
    rw [hlink', ← hm.next]
    rfl
  rw [hsource, htarget]
  exact hbody.mono fun σ₂ σ₂' h₂ => after_call hm h₂ fun hplace => place_lt hm hplace

/-- What is handed over reads as it does in place, and nothing changes. -/
theorem captured_eval (fuel : Nat) (hd : T.dom d) {us : List ValueId}
    (hknows : ∀ u ∈ us, T.knows d u) (hcaps : List.Forall₂ (T.Hands P p d) us caps) :
    caps.mapM (p.eval m (fuel + 1) [(T.image d, a)]) σ'
      = .ok (us.map fun u => σ'.cells a (T.seen d u)) σ' := by
  induction hcaps with
  | nil => rfl
  | @cons u x us caps hx _ ih =>
    have hread : p.eval m (fuel + 1) [(T.image d, a)] x σ' = .ok (σ'.cells a (T.seen d u)) σ' := by
      unfold Program.eval
      rw [hx.2]
      show Eval.read p [(T.image d, a)] (T.seen d u) σ' = _
      unfold Eval.read
      rw [h.place?_seen hd (hknows u List.mem_cons_self)]
      rfl
    rw [List.mapM_cons]
    show EStateM.bind _ _ σ' = _
    unfold EStateM.bind
    rw [hread]
    show EStateM.bind _ _ σ' = _
    unfold EStateM.bind
    rw [ih fun u hu => hknows u (List.mem_cons_of_mem _ hu)]
    rfl

omit h in
/-- Without fuel nothing is passed to a function that has a body. -/
theorem pass_without_fuel {act : Activation} {link : Activation}
    (hlink : Eval.link? act f.parent = some link) (hbody : f.body ≠ none) (receiver : Option ExprId)
    (args : List ExprId) :
    ∃ σ₁, Eval.pass m (P.eval m 0) act g f receiver args σ = .error .endless σ₁ := by
  cases receiver with
  | some e => exact ⟨σ, rfl⟩
  | none =>
    cases args with
    | cons e args =>
      refine ⟨σ, ?_⟩
      unfold Eval.pass
      rw [List.mapM_cons]
      rfl
    | nil =>
      obtain ⟨e, he⟩ := Option.ne_none_iff_exists'.1 hbody
      refine ⟨σ.push (Eval.initial m f none []), ?_⟩
      unfold Eval.pass Eval.invoke Eval.enter
      rw [hlink, he]
      rfl

omit h in
/-- Without fuel no arguments are passed. -/
theorem pass_args_without_fuel {act : Activation} (receiver : Option ExprId) (hargs : args ≠ []) :
    Eval.pass m (p.eval m 0) act g f receiver args σ' = .error .endless σ' := by
  cases receiver with
  | some e => rfl
  | none =>
    obtain ⟨e, args, rfl⟩ := List.exists_cons_of_ne_nil hargs
    unfold Eval.pass
    rw [List.mapM_cons]
    rfl

/-- **Passing agrees.**  What is handed over comes before the arguments, which do not write it. -/
theorem pass_agrees (ih : EvalAgrees T P p m fuel) (hd : T.dom d)
    (hlinked : Linked P ((d, a) :: rest)) (hm : Matches T P d a rest σ σ') (hg : T.dom g)
    (hf : P.decls.get? g = some (.function f)) (hto : T.FunctionTo g f f')
    (hparent : ∀ o, f.parent = some o → P.Within d o) {receiver : Option ExprId}
    (hoperands : ∀ x ∈ receiver.toList ++ args, CodeOf P d x ∧ ∀ v, P.Writes x v → W v)
    (hcaps : List.Forall₂ (T.Hands P p d) (T.taken g) caps)
    (hhanded : ∀ u ∈ T.taken g, T.knows d u ∧ ∀ x ∈ args, ¬ P.Writes x u) :
    Agree T (After T P d a rest W σ σ')
      (Eval.pass m (P.eval m fuel) ((d, a) :: rest) g f receiver args σ) (Eval.pass m
        (p.eval m fuel) [(T.image d, a)] (T.image g) f' receiver (caps ++ args) σ') := by
  by_cases hzero : fuel = 0 ∧ caps ≠ []
  · obtain ⟨rfl, hne⟩ := hzero
    have hbody : f.body ≠ none := by
      intro hnone
      rw [hto.bodiless hnone] at hcaps
      cases hcaps
      exact hne rfl
    obtain ⟨link, hlink⟩ : ∃ link, Eval.link? ((d, a) :: rest) f.parent = some link := by
      cases hp : f.parent with
      | none => exact ⟨[], rfl⟩
      | some o =>
        obtain ⟨b, before, more, -, hlink, -⟩ := hlinked.exists_link (hparent o hp)
        exact ⟨_, hlink⟩
    obtain ⟨σ₁, hsource⟩ := pass_without_fuel (P := P) (σ := σ) (g := g) m hlink hbody receiver args
    rw [hsource, pass_args_without_fuel m receiver (by simp [hne])]
    exact .endless
  unfold Eval.pass
  refine .bind (.optionMapM (fun x hx σ σ' hm => ?_) hm) (fun _ => id) fun receiver' σ₁ σ₁' h₁ => ?_
  · obtain ⟨hcode, hW⟩ := hoperands x (List.mem_append_left _ (by simpa using hx))
    exact (ih hd hcode hlinked hm).mono fun _ _ hafter => hafter.mono hW
  -- the target reads what it hands over before it evaluates the arguments
  have hread : caps.mapM (p.eval m fuel [(T.image d, a)]) σ₁'
      = .ok ((T.taken g).map fun u => σ₁'.cells a (T.seen d u)) σ₁' := by
    cases fuel with
    | succ fuel => exact h.captured_eval m fuel hd (fun u hu => (hhanded u hu).1) hcaps
    | zero =>
      obtain rfl : caps = [] := by
        by_contra hne
        exact hzero ⟨rfl, hne⟩
      cases htaken : T.taken g with
      | nil => rfl
      | cons u us =>
        rw [htaken] at hcaps
        cases hcaps
  have htarget : ∀ k : List V → Eval V V,
      ((caps ++ args).mapM (p.eval m fuel [(T.image d, a)]) >>= k) σ₁'
      = (args.mapM (p.eval m fuel [(T.image d, a)])
          >>= fun vs => k ((T.taken g).map (fun u => σ₁'.cells a (T.seen d u)) ++ vs)) σ₁' := by
    intro k
    rw [List.mapM_append, bind_assoc]
    show EStateM.bind _ _ σ₁' = _
    unfold EStateM.bind
    rw [hread]
    simp only [bind_assoc, pure_bind]
  rw [htarget]
  refine .bind (U := fun v => ∃ x ∈ args, P.Writes x v)
    (.mapM (fun x hx σ σ' hm => ?_) h₁.matched) ?_
    fun vs σ₂ σ₂' h₂ => ?_
  · obtain ⟨hcode, -⟩ := hoperands x (List.mem_append_right _ hx)
    exact (ih hd hcode hlinked hm).mono fun _ _ hafter => hafter.mono fun v hv => ⟨x, hx, hv⟩
  · rintro v ⟨x, hx, hv⟩
    exact (hoperands x (List.mem_append_right _ hx)).2 v hv
  · refine h.invoke_agrees m ih hlinked h₂.matched hg hf hto hparent ?_
    rw [List.forall₂_map_right_iff, List.forall₂_same]
    intro u hu place hplace
    obtain ⟨hknown, hwrites⟩ := hhanded u hu
    rw [h₁.matched.cells hknown hplace]
    by_cases hplace' : place = a
    · subst hplace'
      exact h₂.source.kept u fun ⟨x, hx, hw⟩ => hwrites x hx hw
    · rw [h₂.source.others place (place_lt h₁.matched hplace) hplace']

omit h in
theorem mapM_id_eq_some {α : Type} {xs : List (Option α)} {ys : List α}
    (hxs : xs.mapM id = some ys) : xs = ys.map some := by
  induction xs generalizing ys with
  | nil =>
    cases hxs
    rfl
  | cons x xs ih =>
    simp only [List.mapM_cons, id_eq, Option.bind_eq_bind, Option.pure_def, Option.bind_eq_some_iff,
      Option.some.injEq] at hxs
    obtain ⟨y, rfl, ys', hys', rfl⟩ := hxs
    rw [ih hys']
    rfl

omit h in
theorem mapM_id_append {α : Type} (ys : List α) (xs : List (Option α)) :
    (ys.map some ++ xs).mapM id = (xs.mapM id).map (ys ++ ·) := by
  induction ys with
  | nil => simp
  | cons y ys ih =>
    rw [List.map_cons, List.cons_append, List.mapM_cons, ih]
    cases xs.mapM id <;> rfl

omit h in
/-- Arguments fit a translated function if they fitted before. -/
theorem fits_eq (hto : T.FunctionTo d f f') {α β : Type} (receiver : Option α) (caps args : List β)
    (hlength : caps.length = (T.taken d).length) :
    Eval.fits f' receiver (caps ++ args) = Eval.fits f receiver args := by
  simp [Eval.fits, hto.receiver, hto.params, hlength]

/-- **Calls agree.** -/
theorem call_agrees (ih : EvalAgrees T P p m fuel) (hd : T.dom d)
    (hlinked : Linked P ((d, a) :: rest)) (hm : Matches T P d a rest σ σ') {x : Access}
    (hg : T.dom x.callee) (hf : P.decls.get? x.callee = some (.function f))
    (hparent : ∀ o, f.parent = some o → P.Within d o)
    (hoperands : ∀ y ∈ x.operands, CodeOf P d y ∧ ∀ v, P.Writes y v → W v)
    (hcaps : List.Forall₂ (T.Hands P p d) (T.taken x.callee) caps)
    (hhanded : ∀ u ∈ T.taken x.callee, T.knows d u ∧ ∀ y, some y ∈ x.args → ¬ P.Writes y u) :
    Agree T (After T P d a rest W σ σ') (Eval.call m P (P.eval m fuel) ((d, a) :: rest) x σ)
      (Eval.call m p (p.eval m fuel) [(T.image d, a)]
        { x with callee := T.image x.callee, args := caps.map some ++ x.args } σ') := by
  obtain ⟨f₁, f', hf₁, hf', hto⟩ := (h.covers hg).function
  cases hf.symm.trans hf₁
  unfold Eval.call
  rw [mapM_id_append, hf, hf']
  cases hdispatch : x.dispatch with
  | some e => exact .stuck
  | none =>
    cases hargs : x.args.mapM id with
    | none => exact .stuck
    | some args =>
      have hsome := mapM_id_eq_some hargs
      have hmem : ∀ y ∈ x.extension.toList ++ args, y ∈ x.operands := by
        intro y hy
        simp only [Access.operands, hdispatch, hsome, List.mem_append, List.mem_filterMap] at hy ⊢
        rcases hy with hy | hy
        · exact .inl (.inr hy)
        · exact .inr ⟨some y, by simpa using hy, rfl⟩
      simp only [Option.map_some, fits_eq hto x.extension _ args hcaps.length_eq.symm]
      split
      · refine h.pass_agrees m ih hd hlinked hm hg hf hto hparent
          (fun y hy => hoperands y (hmem y hy)) hcaps
          fun u hu => ⟨(hhanded u hu).1, fun y hy => (hhanded u hu).2 y ?_⟩
        rw [hsome]
        exact List.mem_map_of_mem hy
      · exact .stuck

/-! ## §6. Expressions and runs. -/

omit h in
/-- An expression that may be absent. -/
theorem optional_agrees {f g : ExprId → Eval V V} {e? : Option ExprId}
    (hf : ∀ e ∈ e?, Agree T (After T P d a rest W σ σ') (f e σ) (g e σ'))
    (hm : Matches T P d a rest σ σ') :
    Agree T (After T P d a rest W σ σ') (Eval.optional m f e? σ) (Eval.optional m g e? σ') := by
  cases e? with
  | none => exact .pure hm
  | some e => exact hf e rfl

/-- **Nodes agree** if what they are made of does. -/
theorem node_agrees (ih : EvalAgrees T P p m fuel) (hd : T.dom d) {node' : Expr} (he : CodeOf P d e)
    (hnode : P.exprs.get? e = some node) (hto : T.NodeTo P p d node node')
    (hlinked : Linked P ((d, a) :: rest)) (hm : Matches T P d a rest σ σ') :
    Agree T (After T P d a rest (P.Writes e) σ σ')
      (Eval.node m P (P.eval m fuel) ((d, a) :: rest) e node σ)
        (Eval.node m p (p.eval m fuel) [(T.image d, a)] e node' σ') := by
  have hinside : ∀ x ∈ node.operands, ∀ {σ σ' : Store V}, Matches T P d a rest σ σ' →
      Agree T (After T P d a rest (P.Writes e) σ σ') (P.eval m fuel ((d, a) :: rest) x σ)
        (p.eval m fuel [(T.image d, a)] x σ') := by
    intro x hx σ σ' hm
    exact (ih hd (.operand he hnode hx) hlinked hm).mono fun _ _ h =>
      h.mono fun v hv => hv.operand hnode hx
  have hwritten : ∀ {v}, node.written? = some v → P.Writes e v :=
    fun hv => ⟨e, node, .refl, hnode, hv⟩
  cases hto with
  | lit => exact .pure hm
  | get hv => exact h.read_agrees hd hlinked hm hv
  | @set v source hv htaken =>
    refine .bind (hinside source (by simp [Expr.operands]) hm) (fun _ => id) fun x σ₁ σ₁' h₁ => ?_
    refine .bind (h.write_agrees hd hlinked h₁.matched hv htaken (hwritten rfl) x)
      (fun _ => id) fun _ σ₂ σ₂' h₂ => ?_
    exact .pure h₂.matched
  | @var v init hv htaken =>
    refine .bind (optional_agrees m
      (fun x hx => hinside x (by simpa [Expr.operands] using hx) hm) hm) (fun _ => id)
      fun x σ₁ σ₁' h₁ => ?_
    refine .bind (h.write_agrees hd hlinked h₁.matched hv htaken (hwritten rfl) x)
      (fun _ => id) fun _ σ₂ σ₂' h₂ => ?_
    exact .pure h₂.matched
  | decl => exact .pure hm
  | call hg hf hparent _ hcaps hhanded =>
    refine h.call_agrees m ih hd hlinked hm hg hf hparent
      (fun y hy => ⟨.operand he hnode hy, fun v hv => ?_⟩) hcaps hhanded
    exact hv.operand hnode hy
  | @ret target value htarget =>
    refine .bind (hinside value (by simp [Expr.operands]) hm) (fun _ => id) fun x σ₁ σ₁' h₁ => ?_
    exact .returned htarget (.refl h₁.matched)
  | @block stmts => exact .foldlM (fun _ x hx σ σ' hm => hinside x hx hm) hm
  | @branch cond thenE elseE =>
    refine .bind (hinside cond (by simp [Expr.operands]) hm) (fun _ => id) fun x σ₁ σ₁' h₁ => ?_
    by_cases hx : m.holds x = true
    · rw [if_pos hx, if_pos hx]
      exact hinside thenE (by simp [Expr.operands]) h₁.matched
    · rw [if_neg hx, if_neg hx]
      exact optional_agrees m
        (fun y hy => hinside y (by simp at hy; simp [Expr.operands, hy]) h₁.matched) h₁.matched
  | @loop cond body =>
    refine .bind (hinside cond (by simp [Expr.operands]) hm) (fun _ => id) fun x σ₁ σ₁' h₁ => ?_
    by_cases hx : m.holds x = true
    · rw [if_pos hx, if_pos hx]
      refine .bind (hinside body (by simp [Expr.operands]) h₁.matched)
        (fun _ => id) fun _ σ₂ σ₂' h₂ => ?_
      exact ih hd he hlinked h₂.matched
    · rw [if_neg hx, if_neg hx]
      exact .pure h₁.matched
  | @binary op lhs rhs =>
    refine .bind (hinside lhs (by simp [Expr.operands]) hm) (fun _ => id) fun x σ₁ σ₁' h₁ => ?_
    refine .bind (hinside rhs (by simp [Expr.operands]) h₁.matched)
      (fun _ => id) fun y σ₂ σ₂' h₂ => ?_
    exact .pure h₂.matched

/-- **Expressions evaluate alike**, with any fuel.  The induction is on the fuel: a call goes on
with the body of the callee, and a loop with itself. -/
theorem eval_agrees (fuel : Nat) : EvalAgrees T P p m fuel := by
  induction fuel with
  | zero => exact fun _ _ _ _ => .endless
  | succ fuel ih =>
    intro d a rest e σ σ' hd he hlinked hm
    obtain ⟨node, node', hnode, hnode', hto⟩ := (h.covers hd).nodes he
    simp only [Program.eval, hnode, hnode']
    exact h.node_agrees m ih hd he hnode hto hlinked hm

/-- **Runs come to the same.** -/
theorem run_eq (hd : T.dom d) (himage : T.image d = d) (htaken : T.taken d = [])
    (houter : ∀ f, P.decls.get? d = some (.function f) → f.parent = none) (fuel : Nat)
    (receiver : Option V) (args : List V) :
    p.run m fuel d receiver args = P.run m fuel d receiver args := by
  obtain ⟨f, f', hf, hf', hto⟩ := (h.covers hd).function
  have hfits : Eval.fits f' receiver args = Eval.fits f receiver args :=
    fits_eq hto receiver [] args (by simp [htaken])
  unfold Program.run
  rw [himage] at hf'
  simp only [hf, hf', hfits]
  split
  · set σ : Store V := { next := 0, cells := fun _ _ => m.unit }
    have hlinked : Linked P [(d, σ.next)] := .outermost hf (houter f hf)
    have hmatches :=
      h.enter_matches m hd hto hlinked (rfl : σ.next = σ.next) (by simp) receiver [] args
      (by rw [htaken]; exact .nil)
    obtain ⟨W, hbody⟩ := h.body_agrees m (h.eval_agrees m fuel) hd hf hto hlinked hmatches
    have hsource : Eval.invoke m (P.eval m fuel) [] d f receiver args σ
        = Eval.catching d (Eval.optional m (P.eval m fuel [(d, σ.next)]) f.body)
          (σ.push (Eval.initial m f receiver args)) := by
      unfold Eval.invoke Eval.enter
      rw [houter f hf]
      rfl
    have htarget : Eval.invoke m (p.eval m fuel) [] d f' receiver args σ
        = Eval.catching d (Eval.optional m (p.eval m fuel [(d, σ.next)]) f'.body)
          (σ.push (Eval.initial m f' receiver args)) := by
      unfold Eval.invoke Eval.enter
      rw [hto.parent]
      rfl
    rw [himage] at hbody
    rw [hsource, htarget]
    exact hbody.ofResult_eq
  · rfl

end Translation

end LambdaLift
