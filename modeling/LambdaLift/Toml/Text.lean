/-
  LambdaLift.Toml.Text
  **STRINGS OF THE CONFIGURATION FORMAT.**

  A string stands between one or three quotes of one of two kinds.  Double
  quotes allow escapes, single quotes take every character as it is, and
  three quotes allow line ends.  Reading goes character by character; the
  state says what the next character belongs to.

  Writing takes the plainest form that can hold the text, in a fixed order
  of preference (`styleOf`).
-/
namespace LambdaLift.Toml

/-! ## §1. Characters. -/

/-- A blank inside a line. -/
def isBlank (c : Char) : Bool := c = ' ' || c = '\t'

/-- A character that may stand in a string as it is: a tab, or anything that is no control. -/
def isText (c : Char) : Bool := c = '\t' || (c.toNat ≥ 0x20 && c.toNat ≠ 0x7F)

/-- The value of a hexadecimal digit. -/
def hexValue? (c : Char) : Option Nat :=
  if '0' ≤ c ∧ c ≤ '9' then some (c.toNat - 48)
  else if 'a' ≤ c ∧ c ≤ 'f' then some (c.toNat - 87)
  else if 'A' ≤ c ∧ c ≤ 'F' then some (c.toNat - 55)
  else none

/-- The character with a code point. -/
def charOf? (n : Nat) : Option Char := if h : n.isValidChar then some (Char.ofNatAux n h) else none

/-! ## §2. Reading. -/

/-- What a character after a backslash stands for. -/
inductive Escape where
  /-- a character -/
  | char (c : Char)
  /-- a code point in so many hexadecimal digits -/
  | code (digits : Nat)

/-- The escapes. -/
def escape? : Char → Option Escape
  | '"' => some (.char '"')
  | '\\' => some (.char '\\')
  | 'b' => some (.char '\x08')
  | 'e' => some (.char '\x1b')
  | 'f' => some (.char '\x0c')
  | 'n' => some (.char '\n')
  | 'r' => some (.char '\r')
  | 't' => some (.char '\t')
  | 'x' => some (.code 2)
  | 'u' => some (.code 4)
  | 'U' => some (.code 8)
  | _ => none

/-- What the next character of a string belongs to. -/
inductive Reading where
  /-- the text -/
  | text
  /-- an escape: a backslash was just read -/
  | escape
  /-- a code point, of which so many digits are to come -/
  | code (left acc : Nat)
  /-- blanks between a backslash and the end of its line -/
  | lineEnd
  /-- blanks and line ends after that, which do not count -/
  | margin

/-- A string that was read, and what follows it. -/
abbrev Read := Option (List Char × List Char)

/-- A character in front of a string that was read. -/
def emit (c : Char) (r : Read) : Read := r.map fun (text, rest) => (c :: text, rest)

/-- The text after one double quote, up to the closing one. -/
def basicBody : Reading → List Char → Read
  | _, [] => none
  | .text, c :: rest =>
    if c = '"' then some ([], rest)
    else if c = '\\' then basicBody .escape rest
    else if isText c then emit c (basicBody .text rest)
    else none
  | .escape, c :: rest =>
    match escape? c with
    | some (.char d) => emit d (basicBody .text rest)
    | some (.code digits) => basicBody (.code digits 0) rest
    | none => none
  | .code left acc, c :: rest =>
    match hexValue? c with
    | none => none
    | some d =>
      if left ≤ 1 then
        match charOf? (16 * acc + d) with
        | some ch => emit ch (basicBody .text rest)
        | none => none
      else basicBody (.code (left - 1) (16 * acc + d)) rest
  | .lineEnd, _ | .margin, _ => none

/-- The text after one single quote, up to the closing one. -/
def literalBody : List Char → Read
  | [] => none
  | c :: rest =>
    if c = '\'' then some ([], rest)
    else if isText c then emit c (literalBody rest)
    else none

/-- Up to two quotes right after three closing ones belong to the text. -/
def closing (quote : Char) : List Char → List Char × List Char
  | a :: b :: rest =>
    if a = quote ∧ b = quote then ([a, b], rest)
    else if a = quote then ([a], b :: rest)
    else ([], a :: b :: rest)
  | [a] => if a = quote then ([a], []) else ([], [a])
  | [] => ([], [])

/-- A line end right after three opening quotes does not count. -/
def afterOpening : List Char → List Char
  | '\n' :: rest => rest
  | '\r' :: '\n' :: rest => rest
  | cs => cs

/-- The text after three double quotes, up to the closing ones. -/
def multiBasicBody : Reading → List Char → Read
  | .text, '"' :: '"' :: '"' :: rest => some (closing '"' rest)
  | .text, '\r' :: '\n' :: rest => emit '\r' (emit '\n' (multiBasicBody .text rest))
  | .text, c :: rest =>
    if c = '\\' then multiBasicBody .escape rest
    else if isText c || c = '\n' then emit c (multiBasicBody .text rest)
    else none
  | .escape, '\r' :: '\n' :: rest => multiBasicBody .margin rest
  | .escape, c :: rest =>
    if c = '\n' then multiBasicBody .margin rest
    else if isBlank c then multiBasicBody .lineEnd rest
    else
      match escape? c with
      | some (.char d) => emit d (multiBasicBody .text rest)
      | some (.code digits) => multiBasicBody (.code digits 0) rest
      | none => none
  | .code left acc, c :: rest =>
    match hexValue? c with
    | none => none
    | some d =>
      if left ≤ 1 then
        match charOf? (16 * acc + d) with
        | some ch => emit ch (multiBasicBody .text rest)
        | none => none
      else multiBasicBody (.code (left - 1) (16 * acc + d)) rest
  | .lineEnd, '\r' :: '\n' :: rest => multiBasicBody .margin rest
  | .lineEnd, c :: rest =>
    if c = '\n' then multiBasicBody .margin rest
    else if isBlank c then multiBasicBody .lineEnd rest
    else none
  | .margin, '"' :: '"' :: '"' :: rest => some (closing '"' rest)
  | .margin, '\r' :: '\n' :: rest => multiBasicBody .margin rest
  | .margin, c :: rest =>
    if c = '\n' || isBlank c then multiBasicBody .margin rest
    else if c = '\\' then multiBasicBody .escape rest
    else if isText c then emit c (multiBasicBody .text rest)
    else none
  | _, [] => none

/-- The text after three single quotes, up to the closing ones. -/
def multiLiteralBody : List Char → Read
  | '\'' :: '\'' :: '\'' :: rest => some (closing '\'' rest)
  | '\r' :: '\n' :: rest => emit '\r' (emit '\n' (multiLiteralBody rest))
  | c :: rest => if isText c || c = '\n' then emit c (multiLiteralBody rest) else none
  | [] => none

/-- A string in any of its forms. -/
def readString : List Char → Read
  | '"' :: '"' :: '"' :: rest => multiBasicBody .text (afterOpening rest)
  | '"' :: rest => basicBody .text rest
  | '\'' :: '\'' :: '\'' :: rest => multiLiteralBody (afterOpening rest)
  | '\'' :: rest => literalBody rest
  | _ => none

/-! ## §3. Writing. -/

/-- The forms of a string. -/
inductive Style where
  /-- one double quote -/
  | basic
  /-- one single quote -/
  | literal
  /-- three double quotes -/
  | multiBasic
  /-- three single quotes -/
  | multiLiteral
  deriving DecidableEq, Repr

/-- A character that only an escape can bring into a string. -/
def needsEscape (c : Char) : Bool := c ≠ '\n' && !isText c

/-- The length of the longest run of a character, where so many of it came just before. -/
def longestRun (q : Char) : (before : Nat) → List Char → Nat
  | before, [] => before
  | before, c :: cs =>
    if c = q then longestRun q (before + 1) cs else max before (longestRun q 0 cs)

/-- The plainest form that can hold a text. -/
def styleOf (cs : List Char) : Style :=
  let plain := !cs.any needsEscape
  if plain && !cs.contains '\\' && !cs.contains '"' && !cs.contains '\n' then .basic
  else if plain && !cs.contains '\'' && !cs.contains '\n' then .literal
  else if plain && !cs.contains '\\' && longestRun '"' 0 cs ≤ 2 then .multiBasic
  else if plain && longestRun '\'' 0 cs ≤ 2 then .multiLiteral
  else if cs.contains '\n' then .multiBasic
  else .basic

/-- A hexadecimal digit in capitals. -/
def hexDigit (n : Nat) : Char := if n < 10 then Char.ofNat (48 + n) else Char.ofNat (55 + n)

/-- A character by its code point. -/
def escapedCode (c : Char) : List Char :=
  ['\\', 'u', '0', '0', hexDigit (c.toNat / 16), hexDigit (c.toNat % 16)]

/-- The escape of a character that has one, in either form with double quotes. -/
def escaped? (c : Char) : Option (List Char) :=
  if c = '\x08' then some ['\\', 'b']
  else if c = '\t' then some ['\\', 't']
  else if c = '\x0c' then some ['\\', 'f']
  else if c = '\r' then some ['\\', 'r']
  else if c = '\\' then some ['\\', '\\']
  else if needsEscape c then some (escapedCode c)
  else none

/-- A text for one double quote. -/
def basicChar (c : Char) : List Char :=
  if c = '"' then ['\\', '"']
  else if c = '\n' then ['\\', 'n']
  else (escaped? c).getD [c]

/-- A text for three double quotes, after so many quotes in a row.  The third in a row is
escaped. -/
def multiBasicChars : (quotes : Nat) → List Char → List Char
  | _, [] => []
  | quotes, c :: cs =>
    if c = '"' then
      -- two in a row are harmless; a third would close the text
      if quotes = 2 then '\\' :: '"' :: multiBasicChars 0 cs
        else '"' :: multiBasicChars (quotes + 1) cs
    else (escaped? c).getD [c] ++ multiBasicChars 0 cs

/-- A text in one of the forms.  Three quotes open with a line end if the text has one. -/
def writeAs (style : Style) (cs : List Char) : List Char :=
  let start := if cs.contains '\n' then ['\n'] else []
  match style with
  | .basic => '"' :: cs.flatMap basicChar ++ ['"']
  | .literal => '\'' :: cs ++ ['\'']
  | .multiBasic => ['"', '"', '"'] ++ start ++ multiBasicChars 0 cs ++ ['"', '"', '"']
  | .multiLiteral => ['\'', '\'', '\''] ++ start ++ cs ++ ['\'', '\'', '\'']

/-- A text in its plainest form. -/
def writeString (cs : List Char) : List Char := writeAs (styleOf cs) cs

end LambdaLift.Toml
