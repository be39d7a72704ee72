/-
  LambdaLift.Toml.Scalar
  **NUMBERS, TRUTH VALUES AND DATES OF THE CONFIGURATION FORMAT.**

  A value that is neither quoted nor bracketed is one run of characters,
  and the whole run has to be a number, a truth value, a date or a time.
-/
import LambdaLift.Decimal.Binary64
import LambdaLift.Toml.Text

namespace LambdaLift.Toml

open LambdaLift.Decimal (Binary64 Number)

/-- A value without parts. -/
inductive Scalar where
  | string (text : String)
  /-- a signed 64-bit integer -/
  | integer (value : Int)
  | float (value : Number)
  | boolean (value : Bool)
  /-- a date, a time, or both -/
  | moment
  deriving DecidableEq, Repr

/-! ## §1. Digits. -/

/-- Splits a list at each occurrence of an element. -/
def splitAt (sep : Char) : List Char → List (List Char)
  | [] => [[]]
  | c :: cs =>
    match splitAt sep cs with
    | [] => [[c]]
    | part :: parts => if c = sep then [] :: part :: parts else (c :: part) :: parts

/-- The value of digits in a base.  Single underscores may stand between digits. -/
def digits? (base : Nat) (cs : List Char) : Option (List Nat) := do
  let parts := splitAt '_' cs
  if parts.any List.isEmpty then none
  else
    parts.flatten.mapM fun c => do
      let d ← hexValue? c
      if d < base then some d else none

/-- The number with these digits. -/
def ofDigits (base : Nat) (ds : List Nat) : Nat := ds.foldl (fun n d => base * n + d) 0

/-- Digits of a decimal number, which has no needless zero in front. -/
def decimalDigits? (cs : List Char) : Option (List Nat) := do
  let ds ← digits? 10 cs
  match ds with
  | 0 :: _ :: _ => none
  | _ => some ds

/-- A sign in front of the rest; whether it is a minus. -/
def sign : List Char → Bool × List Char
  | '-' :: rest => (true, rest)
  | '+' :: rest => (false, rest)
  | cs => (false, cs)

/-! ## §2. Numbers and truth values. -/

/-- A number with its sign, if it fits into 64 bits. -/
def signed? (negative : Bool) (n : Nat) : Option Int :=
  let value : Int := if negative then -(n : Int) else n
  if Int64.minValue.toInt ≤ value ∧ value ≤ Int64.maxValue.toInt then some value else none

/-- An integer. -/
def integer? : List Char → Option Int
  | '0' :: 'x' :: cs => do signed? false (ofDigits 16 (← digits? 16 cs))
  | '0' :: 'o' :: cs => do signed? false (ofDigits 8 (← digits? 8 cs))
  | '0' :: 'b' :: cs => do signed? false (ofDigits 2 (← digits? 2 cs))
  | cs => do
    let (negative, cs) := sign cs
    signed? negative (ofDigits 10 (← decimalDigits? cs))

/-- The digits after a point, if there is one, and what follows them. -/
def fraction? : List Char → Option (List Nat × List Char)
  | '.' :: cs => do
    let isDigit (c : Char) : Bool := c.isDigit || c = '_'
    return (← digits? 10 (cs.takeWhile isDigit), cs.dropWhile isDigit)
  | cs => some ([], cs)

/-- The exponent at the end of a number, if there is one. -/
def exponent? : List Char → Option Int
  | [] => some 0
  | c :: cs =>
    if c = 'e' || c = 'E' then do
      let (negative, cs) := sign cs
      let n := ofDigits 10 (← digits? 10 cs)
      return if negative then -(n : Int) else n
    else none

/-- A number with a point or an exponent.  One beyond the largest number is refused. -/
def float? (cs : List Char) : Option Number := do
  let (negative, cs) := sign cs
  if cs = ['i', 'n', 'f'] then some (.infinite negative)
  else if cs = ['n', 'a', 'n'] then some .undefined
  else
    let isDigit (c : Char) : Bool := c.isDigit || c = '_'
    let whole ← decimalDigits? (cs.takeWhile isDigit)
    let rest := cs.dropWhile isDigit
    if rest.isEmpty then none
    else
      let (places, rest) ← fraction? rest
      let exponent ← exponent? rest
      let magnitude ← Binary64.ofDecimal? (ofDigits 10 (whole ++ places)) (exponent - places.length)
      return .finite negative magnitude

/-- A truth value. -/
def boolean? (cs : List Char) : Option Bool :=
  if cs = ['t', 'r', 'u', 'e'] then some true
  else if cs = ['f', 'a', 'l', 's', 'e'] then some false
  else none

/-! ## §3. Dates and times. -/

/-- A number of exactly two digits in front, and what follows it. -/
def twoDigits? : List Char → Option (Nat × List Char)
  | a :: b :: rest =>
    if a.isDigit && b.isDigit then some (ofDigits 10 [a.toNat - 48, b.toNat - 48], rest) else none
  | _ => none

/-- The number of days of a month. -/
def daysIn (year month : Nat) : Nat :=
  if month = 2 then
    if year % 4 = 0 && (year % 100 ≠ 0 || year % 400 = 0) then 29 else 28
  else if [4, 6, 9, 11].contains month then 30
  else 31

/-- What follows a date in front. -/
def afterDate? (cs : List Char) : Option (List Char) := do
  let (century, cs) ← twoDigits? cs
  let (year, cs) ← twoDigits? cs
  let '-' :: cs := cs | none
  let (month, cs) ← twoDigits? cs
  let '-' :: cs := cs | none
  let (day, cs) ← twoDigits? cs
  if 1 ≤ month && month ≤ 12 && 1 ≤ day && day ≤ daysIn (100 * century + year) month
    then some cs else none

/-- What follows the seconds and their fraction, if there are any. -/
def afterSeconds? : List Char → Option (List Char)
  | ':' :: cs => do
    let (second, cs) ← twoDigits? cs
    if second > 60 then none
    else
      match cs with
      | '.' :: cs =>
        if (cs.head?.map Char.isDigit).getD false then some (cs.dropWhile Char.isDigit) else none
      | cs => some cs
  | cs => some cs

/-- What follows hours and minutes in front. -/
def afterMinutes? (cs : List Char) : Option (List Char) := do
  let (hour, cs) ← twoDigits? cs
  let ':' :: cs := cs | none
  let (minute, cs) ← twoDigits? cs
  if hour ≤ 23 && minute ≤ 59 then some cs else none

/-- What follows a time in front.  Seconds may be left out. -/
def afterTime? (cs : List Char) : Option (List Char) := do afterSeconds? (← afterMinutes? cs)

/-- Whether a list is the offset of a time, or empty. -/
def isOffset : List Char → Bool
  | [] => true
  | ['Z'] | ['z'] => true
  | c :: cs => (c = '+' || c = '-') && afterMinutes? cs = some []

/-- Whether a run is a date alone. -/
def isDate (cs : List Char) : Bool := afterDate? cs = some []

/-- Whether a run is a date, a time, or a date with a time. -/
def isMoment (cs : List Char) : Bool :=
  afterTime? cs = some [] ||
    match afterDate? cs with
    | some [] => true
    | some (c :: time) =>
      (c = 'T' || c = 't' || c = ' ') && ((afterTime? time).map isOffset).getD false
    | none => false

/-! ## §4. Runs. -/

/-- A character of a value that is neither quoted nor bracketed. -/
def isScalarChar (c : Char) : Bool :=
  c.isAlphanum || c = '_' || c = '+' || c = '-' || c = '.' || c = ':'

/-- The run in front, and what follows it.  A date goes on after one space if a digit follows. -/
def scalarRun (cs : List Char) : List Char × List Char :=
  let run := cs.takeWhile isScalarChar
  match cs.dropWhile isScalarChar with
  | ' ' :: c :: rest =>
    -- the one place where a space stands inside a value
    if isDate run && c.isDigit then
      (run ++ ' ' :: (c :: rest).takeWhile isScalarChar, (c :: rest).dropWhile isScalarChar)
    else (run, ' ' :: c :: rest)
  | rest => (run, rest)

/-- The value that a run stands for. -/
def scalarOf? (run : List Char) : Option Scalar :=
  (boolean? run).map .boolean <|> (integer? run).map .integer <|> (float? run).map .float
    <|> (if isMoment run then some .moment else none)

end LambdaLift.Toml
