/-
  LambdaLift.Data.Bijection
  **A TABLE THAT IS READ IN BOTH DIRECTIONS.**

  Renumbered parameters are looked up from old to new when a read is
  redirected, and from new to old when the arguments of a call are sorted
  into their new places.  The two directions are two indexes, which
  `insert` writes one after the other; a pair that disagrees with either
  index is refused.
-/
import LambdaLift.Data.OrderedMap

namespace LambdaLift

/-- Two indexes over the same pairs. -/
structure Bijection (α β : Type) where
  /-- From left to right, in insertion order. -/
  forward : OrderedMap α β := .empty
  /-- From right to left. -/
  backward : OrderedMap β α := .empty
  deriving DecidableEq

/-- The entry that a refused pair disagrees with. -/
inductive Conflict (α β : Type) where
  /-- the left side already has another partner -/
  | forth (key : α) (current proposed : β)
  /-- the right side already has another partner -/
  | back (key : β) (current proposed : α)
  deriving DecidableEq, Repr

/-- The conflict as messages show it, given how the two sides are shown. -/
def Conflict.describe {α β : Type} (left : α → String) (right : β → String) :
    Conflict α β → String
  | .forth key current proposed => record "Forth" (left key) (right current) (right proposed)
  | .back key current proposed => record "Back" (right key) (left current) (left proposed)
where
  /-- The three parts of a conflict under its name. -/
  record (name key current proposed : String) : String :=
    name ++ " \x7b key: " ++ key ++ ", current: " ++ current ++ ", proposed: "
      ++ proposed ++ " \x7d"

namespace Bijection

variable {α β : Type} [DecidableEq α] [DecidableEq β]

/-- The table without pairs. -/
def empty : Bijection α β := {}

instance : Inhabited (Bijection α β) := ⟨empty⟩

/-- The partner on the right. -/
def forth? (t : Bijection α β) (a : α) : Option β := t.forward.get? a

/-- The partner on the left. -/
def back? (t : Bijection α β) (b : β) : Option α := t.backward.get? b

/-- The pairs, in insertion order. -/
def pairs (t : Bijection α β) : List (α × β) := t.forward.entries

/-- The number of pairs. -/
def size (t : Bijection α β) : Nat := t.forward.size

/-- Adds a pair to a table.  Each side must be new or already have this partner; the left side is
checked first.  Whoever catches the conflict goes on with the table as it was left. -/
def insert (a : α) (b : β) : EStateM (Conflict α β) (Bijection α β) Unit := do
  if let some current := (← get).forth? a then
    if current ≠ b then throw (.forth a current b)
  if let some current := (← get).back? b then
    if current ≠ a then throw (.back b current a)
  modify fun t => { t with forward := t.forward.insert a b }
  modify fun t => { t with backward := t.backward.insert b a }

/-- The table as it is left when a pair was offered to it, accepted or not. -/
def offer (t : Bijection α β) (p : α × β) : Bijection α β :=
  match insert p.1 p.2 t with
  | .ok _ t' => t'
  | .error _ t' => t'

/-- The table after the pairs of a list were offered to it from left to right. -/
def ofList (ps : List (α × β)) : Bijection α β := ps.foldl offer empty

end Bijection

end LambdaLift
