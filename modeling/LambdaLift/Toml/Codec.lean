/-
  LambdaLift.Toml.Codec
  **CODECS OF THE CONFIGURATION FORMAT.**

  The format is not ours: whoever keeps a table as text is handed a codec
  that reads and writes documents.  `standard` is a codec that writes
  tables of texts and truth values, one key to a line, and reads whole
  documents.
-/
import LambdaLift.Toml.Document

namespace LambdaLift.Toml

/-- A reader and a writer of documents. -/
structure Codec where
  /-- the entries of a document, if the text is one -/
  parse : String → Option Entries
  /-- the text of a table, if it can be written -/
  print : Entries → Option String

/-- A line with a key and its value, which has to be a text or a truth value. -/
def line? (e : String × Item) : Option String :=
  match e.2 with
  | .scalar (.string text) => some (e.1 ++ " = " ++ String.ofList (writeString text.toList) ++ "\n")
  | .scalar (.boolean b) => some (e.1 ++ " = " ++ (if b then "true" else "false") ++ "\n")
  | _ => none

/-- One key to a line. -/
def standard : Codec where
  parse text := document? text.toList
  print es := (es.mapM line?).map String.join

end LambdaLift.Toml
