/-
  LambdaLift.IR.Printer
  **PROGRAMS AS TEXT.**

  Every entry has a one-line form.  Declarations, blocks and programs also
  have a form over several lines, laid out by `Text.Doc`.  Declarations
  print by name where they are referred to and by header where they stand,
  so the printer follows handles; a handle that leads nowhere is a fault.
-/
import LambdaLift.IR.Program
import LambdaLift.Text.Layout
import LambdaLift.Text.Quoted

namespace LambdaLift

open LambdaLift.Text (Doc quote)

/-! ## §1. Words of the language. -/

/-- Modifiers that say who may name a declaration. -/
def Visibility.keyword : Visibility → String
  | .everywhere | .inBody => ""
  | .inModule => "internal "
  | .inContainer => "private "

/-- Modifiers that say who may override a declaration. -/
def Modality.keyword : Modality → String
  | .sealed => ""
  | .overridable => "open "
  | .bodiless => "abstract "

/-- The word that introduces a class. -/
def ClassKind.keyword : ClassKind → String
  | .plain => "class "
  | .object => "object "
  | .interface => "interface "

/-- The sign of an operator. -/
def BinOp.sign : BinOp → String
  | .add => "+"
  | .sub => "-"
  | .mul => "*"
  | .lt => "<"
  | .eq => "=="

/-- A constant. -/
def Literal.display : Literal → String
  | .unit => "()"
  | .int value => toString value
  | .bool value => toString value
  | .str text => quote text

namespace Program

/-- Texts with commas between them. -/
def commaList (texts : List String) : String := String.intercalate ", " texts

/-! ## §2. Types, values and names of declarations. -/

/-- The name of a declaration. -/
def declName (p : Program) (d : DeclId) : Except Fault String := return (← p.decl d).name.display

/-- The name of a value. -/
def valueName (p : Program) (v : ValueId) : Except Fault String := return (← p.value v).name.display

mutual
/-- A type. -/
def tyText (p : Program) : Ty → Except Fault String
  | .unit => return "Unit"
  | .int => return "Int"
  | .bool => return "Bool"
  | .str => return "String"
  | .param name => return name
  | .cls d => p.declName d
  | .fn params ret => return "(" ++ commaList (← p.tyTexts params) ++ ") -> " ++ (← p.tyText ret)
/-- Types in order. -/
def tyTexts (p : Program) : List Ty → Except Fault (List String)
  | [] => return []
  | ty :: tys => return (← p.tyText ty) :: (← p.tyTexts tys)
end

/-- A value with its type. -/
def binderText (p : Program) (v : ValueId) : Except Fault String := do
  let value ← p.value v
  return value.name.display ++ ": " ++ (← p.tyText value.ty)

/-- Parameters between parentheses. -/
def paramsText (p : Program) (params : List ValueId) : Except Fault String :=
  return "(" ++ commaList (← params.mapM p.binderText) ++ ")"

/-! ## §3. Expressions and headers, each on one line. -/

/-- The receivers, the name of the callee and the type arguments of an access, given how its
operands print. -/
def accessText (p : Program) (operand : ExprId → Except Fault String) (a : Access) :
    Except Fault String := do
  let dispatch ← a.dispatch.mapM operand
  let extension ← a.extension.mapM operand
  let receivers := String.join ((dispatch.toList ++ extension.toList).map (· ++ "."))
  let name ← p.declName a.callee
  let typeArgs ← p.tyTexts a.typeArgs
  return receivers ++ name ++ (if typeArgs.isEmpty then "" else "<" ++ commaList typeArgs ++ ">")

/-- Arguments between parentheses; an absent one is an underscore. -/
def argsText (operand : ExprId → Except Fault String) (args : List (Option ExprId)) :
    Except Fault String := do
  let texts ← args.mapM fun
    | some e => operand e
    | none => pure "_"
  return "(" ++ commaList texts ++ ")"

/-- The name of the class that a constructor belongs to. -/
def constructedName (p : Program) (callee : DeclId) : Except Fault String := do
  match ← p.parent callee with
  | some cls => p.declName cls
  | none => return ""

/-- A node on one line, given how its operands and how placed declarations print. -/
def nodeText (p : Program) (operand : ExprId → Except Fault String)
    (placed : DeclId → Except Fault String) : Expr → Except Fault String
  | .lit value => return value.display
  | .get v => p.valueName v
  | .set v source => return (← p.valueName v) ++ " = " ++ (← operand source)
  | .var v init => do
    let keyword := match (← p.value v).kind with
      | .var true => "var "
      | _ => "val "
    return keyword ++ (← p.binderText v) ++ (← suffix " = " init)
  | .decl d => placed d
  | .access .call a => return (← p.accessText operand a) ++ (← argsText operand a.args)
  | .access .new a => return "new " ++ (← p.constructedName a.callee) ++ (← argsText operand a.args)
  | .access .ref a => do
    let access ← p.accessText operand a
    let bound ← if a.args.isEmpty then pure "" else argsText operand a.args
    return "::" ++ access ++ bound
  | .getField field receiver => do
    let name ← p.declName field
    return (← owner receiver) ++ name
  | .setField field receiver value => do
    let name ← p.declName field
    return (← owner receiver) ++ name ++ " = " ++ (← operand value)
  | .ret target value => return "return@" ++ (← p.declName target) ++ " " ++ (← operand value)
  | .block [] => return "\x7b\x7d"
  | .block stmts => return "\x7b " ++ String.intercalate "; " (← stmts.mapM operand) ++ " \x7d"
  | .branch cond thenE elseE =>
    return "if (" ++ (← operand cond) ++ ") " ++ (← operand thenE) ++ (← suffix " else " elseE)
  | .loop cond body => return "while (" ++ (← operand cond) ++ ") " ++ (← operand body)
  | .binary op lhs rhs => return (← operand lhs) ++ " " ++ op.sign ++ " " ++ (← operand rhs)
  | .delegated v delegate _ => return "val " ++ (← p.valueName v) ++ " by " ++ (← operand delegate)
  | .classRef cls => return (← p.declName cls) ++ "::class"
where
  /-- An optional operand after a word. -/
  suffix (word : String) : Option ExprId → Except Fault String
    | some e => return word ++ (← operand e)
    | none => return ""
  /-- An optional receiver before a dot. -/
  owner : Option ExprId → Except Fault String
    | some e => return (← operand e) ++ "."
    | none => return ""

/-- A declaration without its body, given how initializers print. -/
def headerText (p : Program) (operand : ExprId → Except Fault String) :
    Declaration → Except Fault String
  | .function f => do
    let typeParams := if f.typeParams.isEmpty then "" else "<" ++ commaList f.typeParams ++ "> "
    let extension ← match f.extensionReceiver with
      | some v => pure ((← p.tyText (← p.value v).ty) ++ ".")
      | none => pure ""
    return f.visibility.keyword ++ f.modality.keyword ++ "fun " ++ typeParams ++ extension
      ++ f.name.display ++ (← p.paramsText f.params) ++ ": " ++ (← p.tyText f.ret)
  | .constructor c =>
    return c.visibility.keyword ++ (if c.isPrimary then "primary " else "") ++ "constructor"
      ++ (← p.paramsText c.params)
  | .cls c => do
    let supertypes ← p.tyTexts c.supertypes
    return c.visibility.keyword ++ c.modality.keyword ++ (if c.isInner then "inner " else "")
      ++ c.kind.keyword ++ c.name.display
      ++ (if supertypes.isEmpty then "" else " : " ++ commaList supertypes)
  | .property q =>
    return q.visibility.keyword ++ (if q.isVar then "var " else "val ") ++ q.name.display ++ ": "
      ++ (← p.tyText q.ty)
  | .field f => do
    let ty ← p.tyText f.ty
    let init ← match f.init with
      | some e => pure (" = " ++ (← operand e))
      | none => pure ""
    return f.visibility.keyword ++ "field " ++ f.name.display ++ ": " ++ ty ++ init

mutual
/-- An expression on one line, followed to a bounded depth. -/
def exprTextUpTo (p : Program) : (fuel : Nat) → ExprId → Except Fault String
  | 0, _ => .error .endless
  | fuel + 1, e => do p.nodeText (p.exprTextUpTo fuel) (p.headerUpTo fuel) (← p.expr e)
/-- A header on one line, followed to a bounded depth. -/
def headerUpTo (p : Program) : (fuel : Nat) → DeclId → Except Fault String
  | 0, _ => .error .endless
  | fuel + 1, d => do p.headerText (p.exprTextUpTo fuel) (← p.decl d)
end

/-- A depth that no nesting of entries exceeds unless some entry is nested in itself. -/
def depth (p : Program) : Nat := p.decls.size + p.exprs.size + 1

/-- An expression on one line. -/
def exprText (p : Program) (e : ExprId) : Except Fault String := p.exprTextUpTo p.depth e

/-- A declaration without its body. -/
def header (p : Program) (d : DeclId) : Except Fault String := p.headerUpTo p.depth d

/-! ## §4. Declarations, blocks and programs over several lines. -/

mutual
/-- An expression over several lines, followed to a bounded depth. -/
def exprDocUpTo (p : Program) : (fuel : Nat) → ExprId → Except Fault Doc
  | 0, _ => .error .endless
  | fuel + 1, e => do
    match ← p.expr e with
    | .block (stmt :: stmts) => return Doc.braced (← (stmt :: stmts).mapM (p.exprDocUpTo fuel))
    | .decl d => p.declDocUpTo fuel d
    | _ => return .text (← p.exprText e)
/-- A declaration over several lines, followed to a bounded depth. -/
def declDocUpTo (p : Program) : (fuel : Nat) → DeclId → Except Fault Doc
  | 0, _ => .error .endless
  | fuel + 1, d => do
    let header := Doc.text (← p.header d)
    match ← p.decl d with
    | .function { body := some e, .. } | .constructor { body := some e, .. } =>
      return header ++ .text " " ++ (← p.exprDocUpTo fuel e)
    | .cls { members := [], .. } => return header ++ .text " \x7b\x7d"
    | .cls c => return header ++ .text " " ++ Doc.braced (← c.members.mapM (p.declDocUpTo fuel))
    | _ => return header
end

/-- An expression over several lines. -/
def exprDoc (p : Program) (e : ExprId) : Except Fault Doc := p.exprDocUpTo p.depth e

/-- A declaration over several lines. -/
def declDoc (p : Program) (d : DeclId) : Except Fault Doc := p.declDocUpTo p.depth d

/-- A program: its module-level declarations below each other. -/
def doc (p : Program) : Except Fault Doc := return Doc.join .line (← p.top.mapM p.declDoc)

/-- The text of a program. -/
def render (p : Program) : Except Fault String := return (← p.doc).render

end Program

end LambdaLift
