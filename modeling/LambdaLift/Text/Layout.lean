/-
  LambdaLift.Text.Layout
  **DOCUMENTS OF TEXTS AND LINE BREAKS.**

  A document is laid out by listing its pieces from left to right, each
  with the indentation it stands at.  A break ends the line and indents
  the next one *for the piece that follows*; at the end of the document,
  where nothing follows, for itself.  A text without characters is no
  piece, so a break is never indented for it.  Characters inside a text
  are written as they are, line ends included.
-/
namespace LambdaLift.Text

/-- A document. -/
inductive Doc where
  /-- nothing -/
  | empty
  /-- a text on the current line -/
  | text (s : String)
  /-- the end of a line -/
  | line
  /-- one document after another -/
  | append (a b : Doc)
  /-- a document indented further -/
  | nest (amount : Nat) (d : Doc)
  deriving Repr, Inhabited

namespace Doc

instance : Append Doc := ⟨append⟩

/-- Documents with a separator between them. -/
def join (sep : Doc) : List Doc → Doc
  | [] => empty
  | [d] => d
  | d :: ds => d ++ sep ++ join sep ds

/-- Documents below each other, indented between two braces. -/
def braced (ds : List Doc) : Doc :=
  text "\x7b" ++ nest 2 (line ++ join line ds) ++ line ++ text "\x7d"

/-- A text or a break, with the indentation it stands at. -/
structure Piece where
  indent : Nat
  /-- the characters of a text; a break has none -/
  chars? : Option String

/-- The pieces of a document from left to right, in front of those that follow it. -/
def piecesBefore (indent : Nat) : Doc → List Piece → List Piece
  | empty, rest => rest
  | text s, rest => if s.isEmpty then rest else ⟨indent, some s⟩ :: rest
  | line, rest => ⟨indent, none⟩ :: rest
  | append a b, rest => piecesBefore indent a (piecesBefore indent b rest)
  | nest n d, rest => piecesBefore (indent + n) d rest

/-- The pieces of a document from left to right. -/
def pieces (d : Doc) : List Piece := d.piecesBefore 0 []

/-- The texts that pieces write.  A break indents as far as what follows it stands. -/
def texts : List Piece → List String
  | [] => []
  | ⟨_, some s⟩ :: rest => s :: texts rest
  | ⟨indent, none⟩ :: rest =>
    "\n" :: spaces ((rest.head?.map (·.indent)).getD indent) :: texts rest
where
  /-- So many spaces. -/
  spaces (n : Nat) : String := String.ofList (List.replicate n ' ')

/-- The text of a document. -/
def render (d : Doc) : String := String.join (texts d.pieces)

end Doc

end LambdaLift.Text
