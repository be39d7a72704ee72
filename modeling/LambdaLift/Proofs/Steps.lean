/-
  LambdaLift.Proofs.Steps
  **HOW STEPS END.**

  A step ends with an answer or with a fault, and in either case it leaves
  a state behind.  `Yields` says what holds then, so one statement about a
  step covers that it does not fault unless it may, and what it has changed.
  Most results look at one side of a fault: `Ends` at the fault itself, and
  `Leaves`, in its own module, at the state.  The rules below take a step
  apart: one for each way to make a step from smaller ones, and one for each
  loop.

  Main results:
    * `Step.Yields.bind`, `Lift.Yields.bind` — one step after the other;
    * `Step.Yields.foldlM`, `Lift.Yields.foldlM` — loops, by an invariant over
      the part of the list that is done.
-/
import Mathlib
import LambdaLift.Lift.Signature
import LambdaLift.Proofs.Closed

namespace LambdaLift

variable {d : DeclId} {e : ExprId} {v : ValueId} {content : Declaration} {node : Expr} {f : Fault}
  {events : List Event} {w' : Work}

/-- A loop that answers nothing is a fold. -/
theorem forM_eq_foldlM {m : Type → Type} [Monad m] {α : Type} (f : α → m PUnit) (as : List α) :
    as.forM f = as.foldlM (fun _ a => f a) ⟨⟩ := by
  induction as with
  | nil => rfl
  | cons a as ih => exact congrArg (f a >>= ·) (funext fun _ => ih)

namespace Step

variable {α β : Type}

/-! ## §1. Steps. -/

/-- How a step ends: in a state in which `ok` holds of its answer, or with a fault and in a state
that `err` allows. -/
def Yields (x : Step α) (w : Work) (ok : α → Work → Prop) (err : Fault → Work → Prop) : Prop :=
  match x w with
  | .ok a w' => ok a w'
  | .error f w' => err f w'

/-- Where a step ends: in a state in which `ok` holds of its answer, or in a fault that `err`
allows. -/
abbrev Ends (x : Step α) (w : Work) (ok : α → Work → Prop) (err : Fault → Prop) : Prop :=
  x.Yields w ok fun f _ => err f

namespace Yields

variable {w : Work} {ok ok' : α → Work → Prop} {err err' : Fault → Work → Prop}

theorem mono {x : Step α} (h : x.Yields w ok err) (hok : ∀ a w', ok a w' → ok' a w') :
    x.Yields w ok' err := by
  unfold Yields at h ⊢
  cases hx : x w with
  | ok a w' => rw [hx] at h; exact hok a w' h
  | error f w' => rw [hx] at h; exact h

/-- After a fault less may be said. -/
theorem weaken {x : Step α} (h : x.Yields w ok err) (herr : ∀ f w', err f w' → err' f w') :
    x.Yields w ok err' := by
  unfold Yields at h ⊢
  cases hx : x w with
  | ok a w' => rw [hx] at h; exact h
  | error f w' => rw [hx] at h; exact herr f w' h

/-- Two results about one step. -/
theorem and {x : Step α} (h : x.Yields w ok err) (h' : x.Yields w ok' err') :
    x.Yields w (fun a w' => ok a w' ∧ ok' a w') fun f w' => err f w' ∧ err' f w' := by
  unfold Yields at *
  cases hx : x w with
  | ok a w' => rw [hx] at h h'; exact ⟨h, h'⟩
  | error f w' => rw [hx] at h h'; exact ⟨h, h'⟩

/-- The result of the step is at hand in what is said of it. -/
theorem with_result {x : Step α} (h : x.Yields w ok err) :
    x.Yields w (fun a w' => x w = .ok a w' ∧ ok a w') fun f w' => x w = .error f w' ∧ err f w' := by
  unfold Yields at h ⊢
  cases hx : x w with
  | ok a w' => rw [hx] at h; exact ⟨rfl, h⟩
  | error f w' => rw [hx] at h; exact ⟨rfl, h⟩

theorem pure {a : α} (h : ok a w) : (Pure.pure a : Step α).Yields w ok err := h

theorem throw (h : err f w) : (MonadExcept.throw f : Step α).Yields w ok err := h

/-- One step after the other. -/
theorem bind {x : Step α} {f : α → Step β} {ok : β → Work → Prop}
    (h : x.Yields w (fun a w' => (f a).Yields w' ok err) err) : (x >>= f).Yields w ok err := by
  unfold Yields at h ⊢
  show match EStateM.bind x f w with
    | .ok a w' => ok a w'
    | .error f w' => err f w'
  unfold EStateM.bind
  cases hx : x w with
  | ok a w' => rw [hx] at h; exact h
  | error g w' => rw [hx] at h; exact h

theorem of_eq {x : Step α} {a : α} (hx : x w = .ok a w') (h : ok a w') : x.Yields w ok err := by
  unfold Yields
  rw [hx]
  exact h

/-- A step whose result is known, then another. -/
theorem step {x : Step α} {f : α → Step β} {ok : β → Work → Prop} {a : α} (hx : x w = .ok a w')
    (h : (f a).Yields w' ok err) : (x >>= f).Yields w ok err :=
  bind (of_eq hx h)

theorem map {x : Step α} {f : α → β} {ok : β → Work → Prop}
    (h : x.Yields w (fun a w' => ok (f a) w') err) : (f <$> x).Yields w ok err := by
  rw [← bind_pure_comp]
  exact bind h

/-- A question about the program. -/
theorem ask {e : Except Fault α} (h : ∀ a, e = .ok a → ok a w)
    (herr : ∀ f, e = .error f → err f w) : (liftM e : Step α).Yields w ok err := by
  cases e with
  | ok a => exact h a rfl
  | error f => exact herr f rfl

theorem program {ok : Program → Work → Prop} (h : ok w.program w) :
    Step.program.Yields w ok err := h

theorem decl {ok : Declaration → Work → Prop}
    (h : ∀ content, w.program.decls.get? d = some content → ok content w)
    (herr : ∀ f, w.program.decl d = .error f → err f w) : (Step.decl d).Yields w ok err :=
  bind (program (ask (fun content hc => h content (Program.decl_eq_ok.1 hc)) herr))

theorem value {v : ValueId} {ok : Value → Work → Prop}
    (h : ∀ value, w.program.values.get? v = some value → ok value w)
    (herr : ∀ f, w.program.value v = .error f → err f w) : (Step.value v).Yields w ok err :=
  bind (program (ask (fun value hv => h value (Program.value_eq_ok.1 hv)) herr))

theorem expr {ok : Expr → Work → Prop} (h : ∀ node, w.program.exprs.get? e = some node → ok node w)
    (herr : ∀ f, w.program.expr e = .error f → err f w) : (Step.expr e).Yields w ok err :=
  bind (program (ask (fun node he => h node (Program.expr_eq_ok.1 he)) herr))

theorem addDecl {ok : DeclId → Work → Prop}
    (h : ok w.program.decls.next { w with program := (w.program.allocDecl content).2 }) :
    (Step.addDecl content).Yields w ok err := h

theorem addValue {value : Value} {ok : ValueId → Work → Prop}
    (h : ok w.program.values.next { w with program := (w.program.allocValue value).2 }) :
    (Step.addValue value).Yields w ok err := h

theorem report {ok : Unit → Work → Prop} (h : ok () { w with events := w.events ++ events }) :
    (Step.report events).Yields w ok err := h

theorem modifyDecl {f : Declaration → Declaration} {ok : Unit → Work → Prop}
    (h : ∀ content, w.program.decls.get? d = some content →
      ok () { w with program := w.program.setDecl d (f content) })
    (herr : ∀ g, w.program.decl d = .error g → err g w) :
    (Step.modifyDecl d f).Yields w ok err := by
  refine bind
    (program (bind (?_ : (liftM (w.program.modifyDecl d f) : Step Program).Yields w _ err)))
  unfold Program.modifyDecl
  cases hd : w.program.decl d with
  | error g => exact throw (herr g hd)
  | ok content => exact pure (h content (Program.decl_eq_ok.1 hd))

theorem modifyValue {f : Value → Value} {ok : Unit → Work → Prop}
    (h : ∀ value, w.program.values.get? v = some value →
      ok () { w with program := w.program.setValue v (f value) })
    (herr : ∀ g, w.program.value v = .error g → err g w) :
    (Step.modifyValue v f).Yields w ok err := by
  refine bind
    (program (bind (?_ : (liftM (w.program.modifyValue v f) : Step Program).Yields w _ err)))
  unfold Program.modifyValue
  cases hv : w.program.value v with
  | error g => exact throw (herr g hv)
  | ok value => exact pure (h value (Program.value_eq_ok.1 hv))

/-- A loop that passes a result on keeps an invariant over the part of the list that is done. -/
theorem foldlM {f : β → α → Step β} {as : List α} {b : β} (inv : List α → β → Work → Prop)
    (hstep : ∀ {done a rest b w}, as = done ++ a :: rest → inv done b w →
      (f b a).Yields w (fun b' w' => inv (done ++ [a]) b' w') err) (hinit : inv [] b w) :
    (as.foldlM f b).Yields w (fun b' w' => inv as b' w') err := by
  have go : ∀ (rest done : List α) (b : β) (w : Work), as = done ++ rest → inv done b w →
      (rest.foldlM f b).Yields w (fun b' w' => inv as b' w') err := by
    intro rest
    induction rest with
    | nil =>
      intro done b w has hdone
      rw [List.append_nil] at has
      exact pure (has ▸ hdone)
    | cons a rest ih =>
      intro done b w has hdone
      rw [List.foldlM_cons]
      refine bind ((hstep has hdone).mono fun b' w' hw' => ?_)
      exact ih (done ++ [a]) b' w' (by simpa using has) hw'
  exact go as [] b w rfl hinit

/-- A loop keeps an invariant over the part of the list that is done. -/
theorem forM {f : α → Step PUnit} {as : List α} (inv : List α → Work → Prop)
    (hstep : ∀ {done a rest w}, as = done ++ a :: rest → inv done w →
      (f a).Yields w (fun _ w' => inv (done ++ [a]) w') err) (hinit : inv [] w) :
    (as.forM f).Yields w (fun _ w' => inv as w') err := by
  rw [forM_eq_foldlM]
  exact foldlM (fun done _ => inv done) hstep hinit

/-- A loop that answers for each element keeps an invariant over what is done and what was
answered. -/
theorem mapM {f : α → Step β} {as : List α} (inv : List α → List β → Work → Prop)
    (hstep : ∀ {done a rest bs w}, as = done ++ a :: rest → inv done bs w →
      (f a).Yields w (fun b w' => inv (done ++ [a]) (bs ++ [b]) w') err) (hinit : inv [] [] w) :
    (as.mapM f).Yields w (fun bs w' => inv as bs w') err := by
  rw [List.mapM_eq_reverse_foldlM_cons]
  refine map
    (foldlM (fun done (bs : List β) => inv done bs.reverse) (fun has hdone => map ?_) hinit)
  exact (hstep has hdone).mono fun b w' hw' => by simpa using hw'

/-- A step that may be absent. -/
theorem optionForM {f : α → Step PUnit} {a? : Option α} {ok : PUnit → Work → Prop}
    (hnone : a? = none → ok () w) (hsome : ∀ a, a? = some a → (f a).Yields w ok err) :
    (a?.forM f).Yields w ok err := by
  cases a? with
  | none => exact hnone rfl
  | some a => exact hsome a rfl

/-- An optional element is answered for if it is there. -/
theorem optionMapM {f : α → Step β} {a? : Option α} {ok : Option β → Work → Prop}
    (hnone : a? = none → ok none w)
    (hsome : ∀ a, a? = some a → (f a).Yields w (fun b w' => ok (some b) w') err) :
    (a?.mapM f).Yields w ok err := by
  cases a? with
  | none => exact hnone rfl
  | some a => exact map (hsome a rfl)

end Yields

/-! ## §2. What the elementary steps answer. -/

variable {w : Work}

/-- A step whose result is known, then another. -/
theorem bind_eq {x : Step α} {f : α → Step β} {a : α} (hx : x w = .ok a w') :
    (x >>= f) w = f a w' := by
  show EStateM.bind x f w = f a w'
  unfold EStateM.bind
  rw [hx]

theorem liftExcept_eq {e : Except Fault α} {a : α} (h : e = .ok a) :
    (liftM e : Step α) w = .ok a w := by
  subst h
  rfl

theorem program_eq : Step.program w = .ok w.program w := rfl

theorem decl_eq (h : w.program.decls.get? d = some content) : Step.decl d w = .ok content w := by
  show (liftM (w.program.decl d) : Step Declaration) w = .ok content w
  exact liftExcept_eq (Program.decl_eq_ok.2 h)

theorem expr_eq (h : w.program.exprs.get? e = some node) : Step.expr e w = .ok node w := by
  show (liftM (w.program.expr e) : Step Expr) w = .ok node w
  exact liftExcept_eq (Program.expr_eq_ok.2 h)

theorem addExpr_eq :
    Step.addExpr node w = .ok w.program.exprs.next
      { w with program := (w.program.allocExpr node).2 } := rfl

theorem setExpr_eq :
    Step.setExpr e node w = .ok () { w with program := w.program.setExpr e node } := rfl

theorem modifyDecl_eq {f : Declaration → Declaration} (h : w.program.decls.get? d = some content) :
    Step.modifyDecl d f w = .ok () { w with program := w.program.setDecl d (f content) } := by
  have hp : w.program.modifyDecl d f = .ok (w.program.setDecl d (f content)) := by
    unfold Program.modifyDecl
    rw [Program.decl_eq_ok.2 h]
    rfl
  unfold Step.modifyDecl
  show (liftM (w.program.modifyDecl d f) >>= fun p => Step.change fun _ => ((), p)) w = _
  rw [hp]
  rfl

theorem modifyValue_eq {f : Value → Value} {value : Value}
    (h : w.program.values.get? v = some value) :
    Step.modifyValue v f w = .ok () { w with program := w.program.setValue v (f value) } := by
  have hp : w.program.modifyValue v f = .ok (w.program.setValue v (f value)) := by
    unfold Program.modifyValue
    rw [Program.value_eq_ok.2 h]
    rfl
  unfold Step.modifyValue
  show (liftM (w.program.modifyValue v f) >>= fun p => Step.change fun _ => ((), p)) w = _
  rw [hp]
  rfl

theorem report_eq : Step.report events w = .ok () { w with events := w.events ++ events } := rfl

theorem reportStage_eq {stage : Stage} {root : DeclId}
    (h : w.program.decls.get? root = some content) :
    Step.reportStage stage root w
      = .ok () { w with events := w.events ++ [.stage stage content.name] } := by
  unfold Step.reportStage
  rw [bind_eq (decl_eq h)]
  rfl

end Step

namespace Lift

variable {α β : Type}

/-! ## §3. Steps that record where things went. -/

/-- How a recording step ends.  A fault loses the records. -/
def Yields (x : Lift α) (r : Relocation) (w : Work) (ok : α → Relocation → Work → Prop)
    (err : Fault → Work → Prop) : Prop :=
  Step.Yields (x r) w (fun y w' => ok y.1 y.2 w') err

namespace Yields

variable {r : Relocation} {w : Work} {ok ok' : α → Relocation → Work → Prop}
  {err err' : Fault → Work → Prop}

theorem mono {x : Lift α} (h : Yields x r w ok err) (hok : ∀ a r' w', ok a r' w' → ok' a r' w') :
    Yields x r w ok' err :=
  Step.Yields.mono h fun y w' => hok y.1 y.2 w'

theorem weaken {x : Lift α} (h : Yields x r w ok err) (herr : ∀ f w', err f w' → err' f w') :
    Yields x r w ok err' :=
  Step.Yields.weaken h herr

theorem pure {a : α} (h : ok a r w) : Yields (Pure.pure a : Lift α) r w ok err := h

theorem throw (h : err f w) : Yields (MonadExcept.throw f : Lift α) r w ok err := h

/-- One step after the other. -/
theorem bind {x : Lift α} {f : α → Lift β} {ok : β → Relocation → Work → Prop}
    (h : Yields x r w (fun a r' w' => Yields (f a) r' w' ok err) err) :
    Yields (x >>= f) r w ok err :=
  Step.Yields.bind h

theorem map {x : Lift α} {f : α → β} {ok : β → Relocation → Work → Prop}
    (h : Yields x r w (fun a r' w' => ok (f a) r' w') err) : Yields (f <$> x) r w ok err := by
  rw [← bind_pure_comp]
  exact bind h

/-- A step that goes by the records. -/
theorem read {f : Relocation → Lift β} {ok : β → Relocation → Work → Prop}
    (h : Yields (f r) r w ok err) : Yields (get >>= f) r w ok err := h

/-- A step that records nothing. -/
theorem lift {x : Step α} (h : x.Yields w (fun a w' => ok a r w') err) :
    Yields (liftM x : Lift α) r w ok err :=
  Step.Yields.bind (h.mono fun _ _ h => Step.Yields.pure h)

/-- A question about the program. -/
theorem ask {e : Except Fault α} (h : ∀ a, e = .ok a → ok a r w)
    (herr : ∀ f, e = .error f → err f w) : Yields (liftM e : Lift α) r w ok err := by
  cases e with
  | ok a => exact h a rfl
  | error f => exact herr f rfl

theorem foldlM_eq {f : β → α → Lift β} {as : List α} {b : β} :
    as.foldlM f b r = as.foldlM (fun (y : β × Relocation) a => f y.1 a y.2) (b, r) := by
  induction as generalizing b r with
  | nil => rfl
  | cons a as ih => exact congrArg (f b a r >>= ·) (funext fun _ => ih)

/-- A loop that passes a result on keeps an invariant over the part of the list that is done. -/
theorem foldlM {f : β → α → Lift β} {as : List α} {b : β}
    (inv : List α → β → Relocation → Work → Prop)
    (hstep : ∀ {done a rest b r w}, as = done ++ a :: rest → inv done b r w →
      Yields (f b a) r w (fun b' r' w' => inv (done ++ [a]) b' r' w') err) (hinit : inv [] b r w) :
    Yields (as.foldlM f b) r w (fun b' r' w' => inv as b' r' w') err := by
  unfold Yields
  rw [foldlM_eq]
  exact Step.Yields.foldlM (fun done (y : β × Relocation) => inv done y.1 y.2) hstep hinit

/-- A loop keeps an invariant over the part of the list that is done. -/
theorem forM {f : α → Lift PUnit} {as : List α} (inv : List α → Relocation → Work → Prop)
    (hstep : ∀ {done a rest r w}, as = done ++ a :: rest → inv done r w →
      Yields (f a) r w (fun _ r' w' => inv (done ++ [a]) r' w') err) (hinit : inv [] r w) :
    Yields (as.forM f) r w (fun _ r' w' => inv as r' w') err := by
  rw [forM_eq_foldlM]
  exact foldlM (fun done _ => inv done) hstep hinit

/-- A loop that answers for each element keeps an invariant over what is done and what was
answered. -/
theorem mapM {f : α → Lift β} {as : List α} (inv : List α → List β → Relocation → Work → Prop)
    (hstep : ∀ {done a rest bs r w}, as = done ++ a :: rest → inv done bs r w →
      Yields (f a) r w (fun b r' w' => inv (done ++ [a]) (bs ++ [b]) r' w') err)
    (hinit : inv [] [] r w) : Yields (as.mapM f) r w (fun bs r' w' => inv as bs r' w') err := by
  rw [List.mapM_eq_reverse_foldlM_cons]
  refine map
    (foldlM (fun done (bs : List β) => inv done bs.reverse) (fun has hdone => map ?_) hinit)
  exact (hstep has hdone).mono fun b r' w' hw' => by simpa using hw'

/-- An optional element is answered for if it is there. -/
theorem optionMapM {f : α → Lift β} {a? : Option α} {ok : Option β → Relocation → Work → Prop}
    (hnone : a? = none → ok none r w)
    (hsome : ∀ a, a? = some a → Yields (f a) r w (fun b r' w' => ok (some b) r' w') err) :
    Yields (a?.mapM f) r w ok err := by
  cases a? with
  | none => exact hnone rfl
  | some a => exact map (hsome a rfl)

end Yields

end Lift

end LambdaLift
