/-
  LambdaLift.Toml.Table
  **TABLES OF THE CONFIGURATION FORMAT.**

  A table may come into being in four ways, and the way decides what may
  still be added to it: under its own header, as a step on the way to
  another header, as a step of a dotted key, or between braces.  A key that
  has a value, and a table that is complete, are never defined again.
-/
import LambdaLift.Toml.Scalar

namespace LambdaLift.Toml

/-- How a table came into being. -/
inductive Form where
  /-- under a header of its own -/
  | header
  /-- as a step on the way to a header -/
  | implied
  /-- as a step of a dotted key -/
  | dotted
  /-- between braces -/
  | inline
  deriving DecidableEq, Repr

/-- A value. -/
inductive Item where
  | scalar (value : Scalar)
  /-- values between brackets -/
  | array (items : List Item)
  /-- tables under headers with two brackets, the current one first -/
  | tables (current : List (String × Item)) (earlier : List (List (String × Item)))
  | table (form : Form) (entries : List (String × Item))
  deriving Repr

/-- The entries of a table, oldest first. -/
abbrev Entries := List (String × Item)

namespace Entries

/-- Adds a key that is not there yet. -/
def insertNew? (es : Entries) (key : String) (value : Item) : Option Entries :=
  if es.any fun e => e.1 = key then none else some (es ++ [(key, value)])

/-- Replaces the value of a key, or adds the key. -/
def put (es : Entries) (key : String) (value : Item) : Entries :=
  if es.any fun e => e.1 = key then es.map fun e => if e.1 = key then (key, value) else e
  else es ++ [(key, value)]

/-- Changes the table at the end of a dotted key.  Tables on the way are made; those that are there
must have come from dotted keys or headers further down, and the last one from dotted keys. -/
def updateDotted (f : Entries → Option Entries) : (path : List String) → Entries → Option Entries
  | [], es => f es
  | key :: path, es =>
    match es.lookup key with
    | none => return es ++ [(key, .table .dotted (← updateDotted f path []))]
    | some (.table form inner) =>
      if form = .dotted || (form = .implied && !path.isEmpty) then
        return put es key (.table form (← updateDotted f path inner))
      else none
    | some (.tables current earlier) =>
      if path.isEmpty then none
      else return put es key (.tables (← updateDotted f path current) earlier)
    | some _ => none

/-- Changes the table that a header stands in.  Tables on the way are made; of several tables under
one key the current one is meant. -/
def updateHeader (f : Entries → Option Entries) : (path : List String) → Entries → Option Entries
  | [], es => f es
  | key :: path, es =>
    match es.lookup key with
    | none => return es ++ [(key, .table .implied (← updateHeader f path []))]
    | some (.table form inner) =>
      if form = .inline then none else return put es key (.table form (← updateHeader f path inner))
    | some (.tables current earlier) =>
      return put es key (.tables (← updateHeader f path current) earlier)
    | some _ => none

/-- Adds a value under a key with steps. -/
def define? (es : Entries) (path : List String) (key : String) (value : Item) : Option Entries :=
  updateDotted (insertNew? · key value) path es

/-- Opens the table of a header.  It is new, or was only a step on the way to other headers. -/
def openTable? (key : String) (es : Entries) : Option Entries :=
  match es.lookup key with
  | none => some (es ++ [(key, .table .header [])])
  | some (.table .implied inner) => some (put es key (.table .header inner))
  | some _ => none

/-- Opens a further table of a header with two brackets. -/
def openItem? (key : String) (es : Entries) : Option Entries :=
  match es.lookup key with
  | none => some (es ++ [(key, .tables [] [])])
  | some (.tables current earlier) => some (put es key (.tables [] (earlier ++ [current])))
  | some _ => none

end Entries

end LambdaLift.Toml
