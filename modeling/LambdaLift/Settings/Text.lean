/-
  LambdaLift.Settings.Text
  **SETTINGS AS TEXT.**

  Settings are written as a table of the configuration format, and a codec
  of the format makes a text of it.  Reading takes the default for every
  key that is left out, refuses unknown keys and values of the wrong kind,
  and reports the first problem in the order of the keys.
-/
import LambdaLift.Settings
import LambdaLift.Text.Quoted
import LambdaLift.Toml.Codec

namespace LambdaLift.Settings

open LambdaLift.Toml (Codec Scalar Item Entries)

/-! ## §1. Writing. -/

/-- The settings as a table. -/
def entries (s : Settings) : Entries :=
  [("separator", .scalar (.string s.separator)), ("lambda_prefix", .scalar (.string s.lambdaStem)),
    ("object_prefix", .scalar (.string s.objectStem)),
    ("captured_marker", .scalar (.string s.capturedMarker)),
    ("validate", .scalar (.boolean s.validate))]

/-- The settings as text. -/
def write (toml : Codec) (s : Settings) : Option String := toml.print s.entries

/-! ## §2. Reading. -/

/-- What a key takes. -/
inductive Kind where
  | string
  | boolean
  deriving DecidableEq, Repr

/-- Why a text is refused. -/
inductive Problem where
  /-- it is no document of the format -/
  | malformed
  /-- a key that does not exist -/
  | unknownKey (key : String)
  /-- a value of the wrong kind -/
  | wrongKind (found : Item) (expected : Kind)

/-- A value in words. -/
def describe : Item → String
  | .scalar (.string text) => "string " ++ Text.quote text
  | .scalar (.integer n) => "integer `" ++ toString n ++ "`"
  | .scalar (.float x) => "floating point `" ++ x.display ++ "`"
  | .scalar (.boolean b) => "boolean `" ++ toString b ++ "`"
  | .array _ | .tables _ _ => "sequence"
  | .scalar .moment | .table _ _ => "map"

/-- What a key takes, in words. -/
def Kind.describe : Kind → String
  | .string => "a string"
  | .boolean => "a boolean"

/-- The problem as it is reported. -/
def Problem.message : Problem → String
  | .malformed => "the text is malformed"
  | .unknownKey key =>
      "unknown field `" ++ key
        ++ "`, expected one of `separator`, `lambda_prefix`, `object_prefix`, "
        ++ "`captured_marker`, `validate`"
  | .wrongKind found expected =>
    "invalid type: " ++ Settings.describe found ++ ", expected " ++ expected.describe

/-- A text out of a value. -/
def asString : Item → Except Problem String
  | .scalar (.string text) => .ok text
  | found => .error (.wrongKind found .string)

/-- A truth value out of a value. -/
def asBoolean : Item → Except Problem Bool
  | .scalar (.boolean b) => .ok b
  | found => .error (.wrongKind found .boolean)

/-- Sets one key. -/
def setKey (s : Settings) (key : String) (value : Item) : Except Problem Settings :=
  if key = "separator" then return { s with separator := ← asString value }
  else if key = "lambda_prefix" then return { s with lambdaStem := ← asString value }
  else if key = "object_prefix" then return { s with objectStem := ← asString value }
  else if key = "captured_marker" then return { s with capturedMarker := ← asString value }
  else if key = "validate" then return { s with validate := ← asBoolean value }
  else throw (.unknownKey key)

/-- The default with the keys of a document set, in the order of the keys. -/
def ofEntries (es : Entries) : Except Problem Settings :=
  (es.mergeSort fun a b => a.1 ≤ b.1).foldlM (fun s e => s.setKey e.1 e.2) {}

/-- Reads settings. -/
def read (toml : Codec) (text : String) : Except Problem Settings :=
  match toml.parse text with
  | none => throw .malformed
  | some es => ofEntries es

end LambdaLift.Settings
