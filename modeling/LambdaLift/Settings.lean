/-
  LambdaLift.Settings
  **WHAT CAN BE CHOSEN ABOUT LIFTING.**

  Names of lifted declarations are composed from the names around them;
  the settings say how.  They also say whether the finished program is
  checked.
-/
namespace LambdaLift

/-- The choices, each with its default. -/
structure Settings where
  /-- stands between the parts of a composed name -/
  separator : String := "$"
  /-- begins the name of an anonymous function -/
  lambdaStem : String := "lambda"
  /-- begins the name of an anonymous object -/
  objectStem : String := "object"
  /-- begins the name of a captured value whose own name is special -/
  capturedMarker : String := "$"
  /-- whether the finished program is checked -/
  validate : Bool := true
  deriving DecidableEq, Repr, Inhabited

namespace Settings

/-- The name of an anonymous function, by its number. -/
def lambdaName (s : Settings) (index : Nat) : String := s.lambdaStem ++ "-" ++ toString index

/-- The name of an anonymous object, by its number. -/
def objectName (s : Settings) (index : Nat) : String := s.objectStem ++ "-" ++ toString index

end Settings

end LambdaLift
