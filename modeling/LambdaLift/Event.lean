/-
  LambdaLift.Event
  **WHAT LIFTING REPORTS WHILE IT RUNS.**
-/
import LambdaLift.IR.Name

namespace LambdaLift

/-- The stages that a root goes through, in order. -/
inductive Stage where
  | collected
  | closuresComputed
  | signaturesBuilt
  | bodiesRetargeted
  | spliced
  deriving DecidableEq, Repr

namespace Stage

/-- The stage in words. -/
def display : Stage → String
  | .collected => "collected"
  | .closuresComputed => "closures computed"
  | .signaturesBuilt => "descriptors transformed"
  | .bodiesRetargeted => "bodies rewritten"
  | .spliced => "spliced"

/-- All stages in order. -/
def all : List Stage :=
  [.collected, .closuresComputed, .signaturesBuilt, .bodiesRetargeted, .spliced]

end Stage

/-- Something that lifting reports. -/
inductive Event where
  /-- a root finished a stage -/
  | stage (reached : Stage) (root : Name)
  /-- a local declaration captures these values by itself -/
  | captures (decl : Name) (values : List Name)
  /-- a local declaration captures a value because it refers to a callee that does -/
  | capturesThrough (decl value callee : Name)
  /-- a local declaration gets a new name -/
  | renamed (old new : Name)
  /-- a lifted declaration, by its header -/
  | lifted (header : String)
  /-- a root after lifting, by its text -/
  | lowered (text : String)
  deriving DecidableEq, Repr

/-- The line that reports an event, with its level first. -/
def Event.line : Event → String
  | .stage reached root => "DEBUG [" ++ reached.display ++ "] " ++ root.display
  | .captures decl values =>
      "TRACE [closure] " ++ decl.display ++ " <- ["
        ++ String.intercalate ", " (values.map Name.display) ++ "]"
  | .capturesThrough decl value callee =>
      "TRACE [closure] " ++ decl.display ++ " <- " ++ value.display ++ " (through "
        ++ callee.display ++ ")"
  | .renamed old new => "TRACE [lift] " ++ old.display ++ " -> " ++ new.display
  | .lifted header => "TRACE [lifted] " ++ header
  | .lowered text => "TRACE [lowered]\n" ++ text

end LambdaLift
