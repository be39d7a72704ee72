/-
  LambdaLift.Text.Quoted
  **TEXTS BETWEEN QUOTES.**

  A quoted text shows every character: quotes and backslashes carry a
  backslash, four controls have a letter of their own, and every other
  character that does not show by itself is written by its code point in
  hexadecimal between braces.
-/
import LambdaLift.Text.Hidden

namespace LambdaLift.Text

/-- One character between quotes. -/
def quoteChar (c : Char) : List Char :=
  match c with
  | '"' => ['\\', '"']
  | '\\' => ['\\', '\\']
  | '\n' => ['\\', 'n']
  | '\r' => ['\\', 'r']
  | '\t' => ['\\', 't']
  | '\x00' => ['\\', '0']
  | c =>
    if isHidden c then ['\\', 'u', '\x7b'] ++ Nat.toDigits 16 c.toNat ++ ['\x7d']
    else [c]

/-- A text between quotes. -/
def quote (s : String) : String :=
  String.ofList ('"' :: s.toList.flatMap quoteChar ++ ['"'])

end LambdaLift.Text
