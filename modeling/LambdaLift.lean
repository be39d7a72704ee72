import LambdaLift.Data.Arena
import LambdaLift.Data.Bijection
import LambdaLift.Data.OrderedMap
import LambdaLift.Data.OrderedSet
import LambdaLift.Decimal.Binary64
import LambdaLift.Text.Classes
import LambdaLift.Text.Hidden
import LambdaLift.Text.Quoted
import LambdaLift.Text.Layout
import LambdaLift.IR.Name
import LambdaLift.IR.Ty
import LambdaLift.IR.Value
import LambdaLift.IR.Declaration
import LambdaLift.IR.Expr
import LambdaLift.Fault
import LambdaLift.IR.Program
import LambdaLift.IR.Build
import LambdaLift.IR.Printer
import LambdaLift.IR.Tree
import LambdaLift.WellFormed
import LambdaLift.Event
import LambdaLift.Scope
import LambdaLift.Locals
import LambdaLift.Captures
import LambdaLift.Relocation
import LambdaLift.Settings
import LambdaLift.Work
import LambdaLift.Lift.Signature
import LambdaLift.Lift.Member
import LambdaLift.Retarget
import LambdaLift.Lowering
import LambdaLift.Toml.Text
import LambdaLift.Toml.Scalar
import LambdaLift.Toml.Table
import LambdaLift.Toml.Document
import LambdaLift.Toml.Codec
import LambdaLift.Settings.Text
import LambdaLift.Sample
import LambdaLift.Proofs.Unfolding
import LambdaLift.Proofs.Closed
import LambdaLift.Proofs.CaptureRules
import LambdaLift.Proofs.CaptureWalk
import LambdaLift.Proofs.LeastClosures
import LambdaLift.Proofs.Steps
import LambdaLift.Proofs.Placement
import LambdaLift.Proofs.Collected
import LambdaLift.Proofs.Growth
import LambdaLift.Proofs.Renewal
import LambdaLift.Proofs.Relocated
import LambdaLift.Proofs.Codes
import LambdaLift.Proofs.Retargeting
import LambdaLift.Proofs.Retargeted
import LambdaLift.Proofs.Liftable
import LambdaLift.Proofs.Below
import LambdaLift.Proofs.Leaves
import LambdaLift.Proofs.Raised
import LambdaLift.Proofs.Touched
import LambdaLift.Proofs.Emptied
import LambdaLift.Proofs.Confined
import LambdaLift.Proofs.Bare
import LambdaLift.Proofs.Runs
import LambdaLift.Proofs.Listings
import LambdaLift.Proofs.FixedPoint
import LambdaLift.Proofs.Terms
import LambdaLift.Proofs.Substituted
import LambdaLift.Proofs.Evaluation
import LambdaLift.Proofs.Simulation
import LambdaLift.Proofs.Discovery
import LambdaLift.Proofs.Visibility
import LambdaLift.Proofs.Violations
import LambdaLift.Proofs.Agreement
import LambdaLift.Proofs.Independent
import LambdaLift.Proofs.Answers
import LambdaLift.Proofs.Founded
import LambdaLift.Proofs.Followed
import LambdaLift.Proofs.Safety
import LambdaLift.Proofs.Hosts
import LambdaLift.Proofs.Ownership
import LambdaLift.Proofs.Locality
import LambdaLift.Proofs.Bookkeeping
import LambdaLift.Proofs.Construction
import LambdaLift.Proofs.Externality
import LambdaLift.Proofs.Titles
import LambdaLift.Proofs.Distinct
import LambdaLift.Proofs.Nesting
import LambdaLift.Proofs.Intact
import LambdaLift.Proofs.Handed
import LambdaLift.Proofs.Preservation
import LambdaLift.Proofs.Ledger
import LambdaLift.Proofs.Correspondence
import LambdaLift.Proofs.ScopePaths
import LambdaLift.Proofs.MemberScopes
import LambdaLift.Proofs.Rewrites
import LambdaLift.Proofs.Chores
import LambdaLift.Proofs.QuotedText
import LambdaLift.Proofs.SettingsText
import LambdaLift.Proofs.Inverses
import LambdaLift.Proofs.DepthFirst
import LambdaLift.Proofs.PostOrder
