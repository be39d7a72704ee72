/-
  LambdaLift.Proofs.Leaves
  **WHAT A STEP LEAVES BEHIND, ALSO WHEN IT FAULTS.**

  A step that faults keeps what it changed up to there.  `Leaves` says what
  holds of the state after an answer and what holds of it after a fault,
  whichever fault it is.  The rules are those of `Yields`, read without the
  fault: a question that may go unanswered asks only what holds of the state
  as it is.
-/
import Mathlib
import LambdaLift.Proofs.Steps

namespace LambdaLift

variable {d : DeclId} {e : ExprId} {node : Expr}

namespace Step

variable {α β : Type}

/-- What a step leaves behind: a state in which `ok` holds of its answer, or after a fault one in
which `err` holds. -/
def Leaves (x : Step α) (w : Work) (ok : α → Work → Prop) (err : Work → Prop) : Prop :=
  x.Yields w ok fun _ w' => err w'

namespace Leaves

variable {w : Work} {ok ok' : α → Work → Prop} {err err' : Work → Prop}

theorem mono {x : Step α} (h : x.Leaves w ok err) (hok : ∀ a w', ok a w' → ok' a w') :
    x.Leaves w ok' err :=
  Yields.mono h hok

theorem pure {a : α} (h : ok a w) : (Pure.pure a : Step α).Leaves w ok err := h

theorem throw {f : Fault} (h : err w) : (MonadExcept.throw f : Step α).Leaves w ok err := h

theorem weaken {x : Step α} (h : x.Leaves w ok err) (herr : ∀ w', err w' → err' w') :
    x.Leaves w ok err' :=
  Yields.weaken h fun _ => herr

theorem and {x : Step α} (h : x.Leaves w ok err) (h' : x.Leaves w ok' err) :
    x.Leaves w (fun a w' => ok a w' ∧ ok' a w') err :=
  (Yields.and h h').weaken fun _ _ => And.left

theorem with_result {x : Step α} (h : x.Leaves w ok err) :
    x.Leaves w (fun a w' => x w = .ok a w' ∧ ok a w')
      (fun w' => (∃ f, x w = .error f w') ∧ err w') :=
  (Yields.with_result h).weaken fun f _ hf => ⟨⟨f, hf.1⟩, hf.2⟩

/-- One step after the other. -/
theorem bind {x : Step α} {f : α → Step β} {ok : β → Work → Prop}
    (h : x.Leaves w (fun a w' => (f a).Leaves w' ok err) err) :
    (x >>= f).Leaves w ok err := Yields.bind h

/-- A question about the program. -/
theorem ask {e : Except Fault α} (h : ∀ a, e = .ok a → ok a w) (herr : err w) :
    (liftM e : Step α).Leaves w ok err :=
  Yields.ask h fun _ _ => herr

theorem decl {ok : Declaration → Work → Prop}
    (h : ∀ content, w.program.decls.get? d = some content → ok content w) (herr : err w) :
    (Step.decl d).Leaves w ok err := Yields.decl h fun _ _ => herr

theorem value {v : ValueId} {ok : Value → Work → Prop}
    (h : ∀ value, w.program.values.get? v = some value → ok value w) (herr : err w) :
    (Step.value v).Leaves w ok err := Yields.value h fun _ _ => herr

theorem expr {ok : Expr → Work → Prop} (h : ∀ node, w.program.exprs.get? e = some node → ok node w)
    (herr : err w) : (Step.expr e).Leaves w ok err := Yields.expr h fun _ _ => herr

theorem addExpr {ok : ExprId → Work → Prop}
    (h : ok w.program.exprs.next { w with program := (w.program.allocExpr node).2 }) :
    (Step.addExpr node).Leaves w ok err := h

theorem setExpr {ok : Unit → Work → Prop}
    (h : ok () { w with program := w.program.setExpr e node }) :
    (Step.setExpr e node).Leaves w ok err := h

theorem reportStage {stage : Stage} {root : DeclId} {ok : Unit → Work → Prop}
    (h : ∀ events, ok () { w with events }) (herr : err w) :
    (Step.reportStage stage root).Leaves w ok err :=
  bind (decl (fun _ _ => Yields.report (h _)) herr)

theorem modifyValue {v : ValueId} {f : Value → Value} {ok : Unit → Work → Prop}
    (h : ∀ value, w.program.values.get? v = some value →
      ok () { w with program := w.program.setValue v (f value) }) (herr : err w) :
    (Step.modifyValue v f).Leaves w ok err := Yields.modifyValue h fun _ _ => herr

end Leaves

/-- What is left behind holds beside what is answered. -/
theorem Yields.and_leaves {x : Step α} {w : Work} {ok ok' : α → Work → Prop}
    {err : Fault → Work → Prop} {err' : Work → Prop} (h : x.Yields w ok err)
    (h' : x.Leaves w ok' err') : x.Yields w (fun a w' => ok a w' ∧ ok' a w') err :=
  (h.and h').weaken fun _ _ hboth => hboth.1

end Step

end LambdaLift
