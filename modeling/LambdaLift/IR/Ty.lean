/-
  LambdaLift.IR.Ty
  **TYPES.**

  Types are carried along and printed.  Nothing here computes with them.
-/
import LambdaLift.Data.Arena

namespace LambdaLift

/-- A type. -/
inductive Ty where
  /-- the type of the value without content -/
  | unit
  /-- signed 64-bit integers -/
  | int
  /-- truth values -/
  | bool
  /-- texts -/
  | str
  /-- a type parameter that is in scope -/
  | param (name : String)
  /-- the instances of a class -/
  | cls (decl : DeclId)
  /-- functions -/
  | fn (params : List Ty) (ret : Ty)
  deriving Repr, Inhabited

namespace Ty

mutual
/-- Compares two types. -/
def beq : Ty → Ty → Bool
  | .unit, .unit => true
  | .int, .int => true
  | .bool, .bool => true
  | .str, .str => true
  | .param a, .param b => a == b
  | .cls a, .cls b => a == b
  | .fn ps r, .fn qs s => beqList ps qs && beq r s
  | _, _ => false
/-- Compares two lists of types. -/
def beqList : List Ty → List Ty → Bool
  | [], [] => true
  | a :: as, b :: bs => beq a b && beqList as bs
  | _, _ => false
end

mutual
/-- The comparison decides equality. -/
theorem beq_iff : ∀ a b : Ty, beq a b = true ↔ a = b
  | .unit, b => by cases b <;> simp [beq]
  | .int, b => by cases b <;> simp [beq]
  | .bool, b => by cases b <;> simp [beq]
  | .str, b => by cases b <;> simp [beq]
  | .param _, b => by cases b <;> simp [beq]
  | .cls _, b => by cases b <;> simp [beq]
  | .fn ps r, b => by
    cases b with
    | fn qs s => simp [beq, beqList_iff ps qs, beq_iff r s]
    | _ => simp [beq]
/-- The comparison decides equality of lists. -/
theorem beqList_iff : ∀ as bs : List Ty, beqList as bs = true ↔ as = bs
  | [], bs => by cases bs <;> simp [beqList]
  | a :: as, bs => by
    cases bs with
    | nil => simp [beqList]
    | cons b bs => simp [beqList, beq_iff a b, beqList_iff as bs]
end

instance : DecidableEq Ty := fun a b => decidable_of_iff _ (beq_iff a b)

end Ty

end LambdaLift
