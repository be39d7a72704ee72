/-
  LambdaLift.Toml.Document
  **DOCUMENTS OF THE CONFIGURATION FORMAT.**

  A document is a sequence of lines: a key with its value, a header, or
  nothing, each followed by an optional comment.  Keys go to the table of
  the header above them.  A text that breaks a rule is refused as a whole.
-/
import LambdaLift.Toml.Table

namespace LambdaLift.Toml

/-! ## §1. Blanks, comments and line ends. -/

/-- Skips blanks of a line. -/
def skipBlanks (cs : List Char) : List Char := cs.dropWhile isBlank

/-- Skips a comment up to the end of its line.  Controls other than tabs are refused. -/
def skipComment : List Char → Option (List Char)
  | [] => some []
  | '\n' :: rest => some ('\n' :: rest)
  | '\r' :: '\n' :: rest => some ('\n' :: rest)
  | c :: rest => if isText c then skipComment rest else none

/-- Skips blanks, a comment and the end of the line. -/
def endLine (cs : List Char) : Option (List Char) := do
  let rest ← match skipBlanks cs with
    | '#' :: rest => skipComment rest
    | rest => some rest
  match rest with
  | [] => some []
  | '\n' :: rest => some rest
  | '\r' :: '\n' :: rest => some rest
  | _ => none

/-- Skips blanks, comments and line ends; `inComment` says whether a comment has begun. -/
def skipFree : (inComment : Bool) → List Char → Option (List Char)
  | _, [] => some []
  | _, '\r' :: '\n' :: rest => skipFree false rest
  | true, c :: rest =>
    if c = '\n' then skipFree false rest else if isText c then skipFree true rest else none
  | false, c :: rest =>
    if c = '\n' || isBlank c then skipFree false rest
    else if c = '#' then skipFree true rest
    else some (c :: rest)

/-! ## §2. Keys. -/

/-- A character of a key without quotes. -/
def isBare (c : Char) : Bool := c.isAlphanum || c = '_' || c = '-'

/-- One part of a key. -/
def keyPart (cs : List Char) : Option (String × List Char) :=
  match cs with
  | '"' :: rest => (basicBody .text rest).map fun (text, rest) => (String.ofList text, rest)
  | '\'' :: rest => (literalBody rest).map fun (text, rest) => (String.ofList text, rest)
  | cs =>
    let bare := cs.takeWhile isBare
    if bare.isEmpty then none else some (String.ofList bare, cs.dropWhile isBare)

/-- Keys have at most so many parts, and values nest at most so deep. -/
def nestingLimit : Nat := 80

/-- A key of at most so many parts: the parts before the last, the last part, and what follows it
and its blanks. -/
def keyUpTo : (room : Nat) → List Char → Option (List String × String × List Char)
  | 0, _ => none
  | room + 1, cs => do
    let (part, rest) ← keyPart (skipBlanks cs)
    match skipBlanks rest with
    | '.' :: rest =>
      let (path, last, rest) ← keyUpTo room rest
      return (part :: path, last, rest)
    | rest => return ([], part, rest)

/-- A key: the parts before the last, the last part, and what follows it and its blanks. -/
def key (cs : List Char) : Option (List String × String × List Char) := keyUpTo nestingLimit cs

/-! ## §3. Values. -/

mutual
/-- A value.  `room` is how many arrays and tables may still be opened inside each other. -/
def valueUpTo : (fuel room : Nat) → List Char → Option (Item × List Char)
  | 0, _, _ => none
  | fuel + 1, room, cs =>
    match cs with
    | '"' :: _ | '\'' :: _ =>
      (readString cs).map fun (text, rest) => (.scalar (.string (String.ofList text)), rest)
    | '[' :: rest => do
      let inner + 1 := room | none
      let (items, rest) ← items fuel inner (← skipFree false rest)
      return (.array items, rest)
    | '\x7b' :: rest => do
      let inner + 1 := room | none
      let (entries, rest) ← pairs fuel inner [] (← skipFree false rest)
      return (.table .inline entries, rest)
    | cs =>
      let (run, rest) := scalarRun cs
      (scalarOf? run).map fun s => (.scalar s, rest)
/-- The rest of an array: values with commas between them. -/
def items : (fuel room : Nat) → List Char → Option (List Item × List Char)
  | 0, _, _ => none
  | fuel + 1, room, cs =>
    match cs with
    | ']' :: rest => some ([], rest)
    | cs => do
      let (item, rest) ← valueUpTo fuel room cs
      match ← skipFree false rest with
      | ',' :: rest =>
        let (items, rest) ← items fuel room (← skipFree false rest)
        return (item :: items, rest)
      | ']' :: rest => return ([item], rest)
      | _ => none
/-- The rest of a table between braces: keys and values with commas between them.  Lines may end on
either side of a key, of its equals sign and of its value. -/
def pairs : (fuel room : Nat) → Entries → List Char → Option (Entries × List Char)
  | 0, _, _, _ => none
  | fuel + 1, room, entries, cs =>
    match cs with
    | '\x7d' :: rest => some (entries, rest)
    | cs => do
      let (path, last, rest) ← key cs
      let '=' :: rest ← skipFree false rest | none
      let (value, rest) ← valueUpTo fuel room (← skipFree false rest)
      -- keys are checked as they come, so a repeated one refuses the whole text
      let entries ← entries.define? path last value
      match ← skipFree false rest with
      | ',' :: rest => pairs fuel room entries (← skipFree false rest)
      | '\x7d' :: rest => return (entries, rest)
      | _ => none
end

/-- A value.  Every two steps read a character, so the length bounds them. -/
def value (cs : List Char) : Option (Item × List Char) :=
  valueUpTo (2 * cs.length + 1) nestingLimit cs

/-! ## §4. Lines. -/

/-- The table that keys go to. -/
structure Target where
  path : List String
  key : String

/-- A document while it is read. -/
structure Partial where
  entries : Entries := []
  /-- the table of the last header; none before the first -/
  target? : Option Target := none

/-- Changes the table that keys go to. -/
def Partial.update (p : Partial) (f : Entries → Option Entries) : Option Partial := do
  match p.target? with
  | none => return { p with entries := ← f p.entries }
  | some target =>
    return { p with entries := ← p.entries.updateHeader f (target.path ++ [target.key]) }

/-- Reads a header and opens its table. -/
def Partial.header (p : Partial) (cs : List Char) : Option (Partial × List Char) := do
  let (twice, cs) := match cs with
    | '[' :: rest => (true, rest)
    | cs => (false, cs)
  let (path, last, ']' :: rest) ← key cs | none
  let rest ← match twice, rest with
    | false, rest => some rest
    | true, ']' :: rest => some rest
    | true, _ => none
  let entries ← p.entries.updateHeader
      (if twice then Entries.openItem? last else Entries.openTable? last) path
  return ({ entries, target? := some ⟨path, last⟩ }, rest)

/-- Reads a key with its value. -/
def Partial.pair (p : Partial) (cs : List Char) : Option (Partial × List Char) := do
  let (path, last, '=' :: rest) ← key cs | none
  let (value, rest) ← value (skipBlanks rest)
  return (← p.update (·.define? path last value), rest)

/-- Reads lines to the end. -/
def lines : (fuel : Nat) → Partial → List Char → Option Entries
  | _, p, [] => some p.entries
  | 0, _, _ => none
  | fuel + 1, p, cs => do
    let (p, rest) ← match skipBlanks cs with
      | [] => some (p, [])
      | '[' :: rest => p.header rest
      | c :: rest =>
        if c = '#' || c = '\n' || c = '\r' then some (p, c :: rest) else p.pair (c :: rest)
    -- nothing but a comment may follow on the same line
    lines fuel p (← endLine rest)

/-- The entries of a document.  A mark of the byte order in front is skipped. -/
def document? (text : List Char) : Option Entries :=
  let cs := match text with
    | '\ufeff' :: rest => rest
    | cs => cs
  lines (cs.length + 1) {} cs

end LambdaLift.Toml
