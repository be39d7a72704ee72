/-
  LambdaLift.Fault
  **WHY A COMPUTATION STOPS WITHOUT A RESULT.**

  Four causes are kept apart.  A handle may lead nowhere, or the nesting
  of a program may never end: then the program is no program, and nothing
  more can be said.  A program may break a rule that lifting relies on, or
  have a shape that lifting does not cover: then the declaration at fault
  is named.  And a finished program may fail the final check, with every
  finding listed.

  The wording of all of them is in `Fault.message`.
-/
import LambdaLift.Data.Bijection
import LambdaLift.IR.Name
import LambdaLift.Data.Arena

namespace LambdaLift

/-! ## §1. Causes. -/

/-- A rule that lifting relies on, and that the program breaks. -/
inductive Violation where
  /-- a constructor whose parent is no class -/
  | strayConstructor
  /-- a class in a class that is not inner -/
  | nestedNotInner
  /-- a property or a field whose parent is no class -/
  | strayMember
  /-- a declaration that should have a replacement and has none -/
  | notRelocated
  /-- a lifted declaration without a way to read its captured values -/
  | noContext
  /-- a local declaration without a closure -/
  | noClosure
  /-- a declaration with two replacements -/
  | relocatedTwice (current proposed : DeclId)
  /-- a value with two counterparts -/
  | remapConflict (conflict : Conflict ValueId ValueId)
  /-- a declaration listed as a local function that is none -/
  | functionExpected
  /-- a local function that is called on an instance -/
  | dispatchOnLocal
  /-- a declaration listed as a local class that is none -/
  | classExpected
  /-- a declaration listed as a constructor that is none -/
  | constructorExpected
  /-- a lifted class that is no class -/
  | liftedClassExpected
  /-- a constructor listed among the other members -/
  | constructorAmongMembers
  /-- a backing field that is no field -/
  | backingFieldExpected
  /-- an accessor that is no function -/
  | accessorExpected
  /-- a member that is not called on an instance -/
  | memberWithoutDispatch
  /-- a lifted class that does not keep its captured values in fields -/
  | noFieldContext
  /-- a local class without a primary constructor -/
  | noPrimaryConstructor
  /-- a captured value that the primary constructor does not take -/
  | notPassedToPrimary
  /-- a parameter whose counterpart belongs to another callable -/
  | foreignParameter
  /-- a parameter without a counterpart that carries no captured value -/
  | unmappedParameter (name : Name)
  /-- an assignment to a captured value -/
  | capturedWrite
  /-- a placed declaration that was never collected -/
  | strayDeclaration
  /-- a container that is neither the module nor a class -/
  | noListing
  /-- a declaration that its container does not list -/
  | unlisted
  deriving DecidableEq, Repr

/-- A shape of program that lifting does not cover. -/
inductive Unsupported where
  /-- a constructor of a class that stays where it is -/
  | constructorOfOther
  /-- a member of a class that stays where it is -/
  | memberOfOther
  /-- a class in a local class -/
  | innerClass
  /-- a member that can be named on a class and has no replacement -/
  | scopeEntry
  /-- a lifted class as a value -/
  | classLiteral
  deriving DecidableEq, Repr

/-- What the check of a finished program finds. -/
inductive Finding where
  /-- a declaration that is listed twice -/
  | redeclared (decl : DeclId)
  /-- a reference to a declaration that nothing lists -/
  | undeclared (target source : DeclId)
  /-- a use of a value that is not visible -/
  | outOfScope (value : ValueId) (source : DeclId)
  /-- a declaration left in a body -/
  | residual (decl source : DeclId)
  deriving DecidableEq, Repr

/-- Why a computation stops without a result. -/
inductive Fault where
  /-- a handle was followed that has no entry -/
  | dangling
  /-- parents, members or operands form a circle -/
  | endless
  /-- the program breaks a rule, at this declaration -/
  | violation (what : Violation) (decl : DeclId)
  /-- the program has a shape that is not covered, at this declaration -/
  | unsupported (what : Unsupported) (decl : DeclId)
  /-- the finished program fails the check -/
  | illFormed (findings : List Finding)
  deriving DecidableEq, Repr

/-! ## §2. Wording. -/

/-- The rule that is broken. -/
def Violation.message : Violation → String
  | .strayConstructor => "constructor outside of a class"
  | .nestedNotInner => "nested class in a local class must be inner"
  | .strayMember => "property or field outside of a class"
  | .notRelocated => "declaration was not transformed"
  | .noContext => "no local context"
  | .noClosure => "no closure was computed"
  | .relocatedTwice current proposed =>
      "transformed twice, to " ++ current.label ++ " and to " ++ proposed.label
  | .remapConflict conflict => "conflicting remap: " ++ conflict.describe Handle.label Handle.label
  | .functionExpected => "local function expected"
  | .dispatchOnLocal => "local functions must not have a dispatch receiver"
  | .classExpected => "local class expected"
  | .constructorExpected => "constructor expected"
  | .liftedClassExpected => "lifted class expected"
  | .constructorAmongMembers => "constructors are not plain members"
  | .backingFieldExpected => "backing field expected"
  | .accessorExpected => "accessor expected"
  | .memberWithoutDispatch => "members of local classes must have a dispatch receiver"
  | .noFieldContext => "local class without a field context"
  | .noPrimaryConstructor => "local classes must have a primary constructor"
  | .notPassedToPrimary => "captured value is not passed to the primary constructor"
  | .foreignParameter => "parameter remapped from another callee"
  | .unmappedParameter name => "non-mapped parameter " ++ name.display
  | .capturedWrite => "captured values cannot be written"
  | .strayDeclaration => "declaration is neither local itself nor a member of a local class"
  | .noListing => "container lists no declarations"
  | .unlisted => "root is not listed by its container"

/-- The shape that is not covered. -/
def Unsupported.message : Unsupported → String
  | .constructorOfOther => "constructor of a class that is not lifted"
  | .memberOfOther => "member of a class that is not lifted"
  | .innerClass => "inner class of a local class"
  | .scopeEntry => "member scope entry that was not transformed"
  | .classLiteral => "class literal of a lifted class"

/-- The finding in one line. -/
def Finding.message : Finding → String
  | .redeclared decl => decl.label ++ " is declared twice"
  | .undeclared target source =>
      target.label ++ " is referenced from " ++ source.label ++ " but not declared"
  | .outOfScope value source => value.label ++ " is read out of scope in " ++ source.label
  | .residual decl source =>
      "local declaration " ++ decl.label ++ " is left in the body of " ++ source.label

/-- The fault as it is reported. -/
def Fault.message : Fault → String
  | .dangling => "a handle leads nowhere"
  | .endless => "the nesting does not end"
  | .violation what decl => "invariant violated: " ++ what.message ++ place decl
  | .unsupported what decl => "not implemented: " ++ what.message ++ place decl
  | .illFormed findings =>
      "IR validation failed:" ++ String.join (findings.map fun f => "\n\t" ++ f.message)
where
  /-- Where the program is at fault. -/
  place (decl : DeclId) : String := " (at Some(" ++ decl.label ++ "))"

end LambdaLift
