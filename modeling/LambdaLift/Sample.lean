/-
  LambdaLift.Sample
  **SMALL PROGRAMS WITH LOCAL DECLARATIONS.**

  Each sample shows one thing that lifting has to get right.  A sample is a
  sequence of building steps that answers with the root and the
  declarations below it that are worth looking at.
-/
import LambdaLift.IR.Build

namespace LambdaLift

/-- The handles of a sample. -/
structure Sample where
  /-- the callable to lower -/
  root : DeclId
  /-- declarations below it -/
  locals : List DeclId
  deriving Repr

namespace Sample

open Build

/-- Gives a callable one statement that returns a value. -/
def returning (d : DeclId) (value : ExprId) : Build Unit := do
  setBody d (← block [← ret d value])

/-- Places declarations, then returns a value. -/
def placing (d : DeclId) (ds : List DeclId) (value : Build ExprId) : Build Unit := do
  let placed ← ds.mapM fun d => addExpr (.decl d)
  let last ← ret d (← value)
  setBody d (← block (placed ++ [last]))

/-- A local function with a parameter of its own reads a parameter of the function around it.

    fun outer(n: Int): Int { fun inner(k: Int): Int { return n + k }; return inner(2) }
-/
def capturedCall : Build Sample := do
  let outer ← function none (.ident "outer") .int
  let n ← param outer (.ident "n") .int
  let inner ← function (some outer) (.ident "inner") .int
  let k ← param inner (.ident "k") .int
  let lhs ← read n
  let rhs ← read k
  returning inner (← addExpr (.binary .add lhs rhs))
  placing outer [inner] do
    let two ← addExpr (.lit (.int 2))
    call inner [two]
  return ⟨outer, [inner]⟩

/-- A value is captured through two levels.

    fun outer(n: Int): Int { fun a(): Int { fun b(): Int { return n }; return b() }; return a() }
-/
def transitive : Build Sample := do
  let outer ← function none (.ident "outer") .int
  let n ← param outer (.ident "n") .int
  let a ← function (some outer) (.ident "a") .int
  let b ← function (some a) (.ident "b") .int
  returning b (← read n)
  placing a [b] (call b [])
  placing outer [a] (call a [])
  return ⟨outer, [a, b]⟩

/-- A method of an anonymous object reads a parameter of the function around it.

    fun make(n: Int): Int { val o = object { fun get(): Int = n }; return o.get() }
-/
def anonymousObject : Build Sample := do
  let make ← function none (.ident "make") .int
  let n ← param make (.ident "n") .int
  let obj ← object make
  let ctor ← constructor obj true
  let get ← function (some obj) (.ident "get") .int
  returning get (← read n)
  placing make [obj] do
    let made ← instantiate ctor []
    callOn made get []
  return ⟨make, [obj]⟩

/-- A constructor of an inner class reads the instance around it.

    fun f() { class L { inner class I { constructor() { this@L } } } }
-/
def innerClassInLocalClass : Build Sample := do
  let f ← function none (.ident "f") .unit
  let cls ← cls (some f) (.ident "L") .plain false
  let _ ← constructor cls true
  let inner ← innerClass cls (.ident "I")
  let ctor ← constructor inner true
  let reads ← (← receiverOf (some cls)).toList.mapM read
  setBody ctor (← block reads)
  setBody f (← block [← addExpr (.decl cls)])
  return ⟨f, [cls, inner, ctor]⟩

/-- A local function calls another that captures.

    fun outer(n: Int): Int { fun g(): Int { return n }; fun h(): Int { return g() }; return h() }
-/
def siblingCall : Build Sample := do
  let outer ← function none (.ident "outer") .int
  let n ← param outer (.ident "n") .int
  let g ← function (some outer) (.ident "g") .int
  returning g (← read n)
  let h ← function (some outer) (.ident "h") .int
  returning h (← call g [])
  placing outer [g, h] (call h [])
  return ⟨outer, [g, h]⟩

/-- A lambda returns from the function around it.

    fun outer(n: Int) { fun a() { val l = { return@a n }; ::l }; a() }
-/
def nonlocalReturn : Build Sample := do
  let outer ← function none (.ident "outer") .unit
  let n ← param outer (.ident "n") .int
  let a ← function (some outer) (.ident "a") .unit
  let lam ← lambda a .int
  setBody lam (← block [← ret a (← read n)])
  let placed ← addExpr (.decl lam)
  let reference ← callableRef lam []
  setBody a (← block [placed, reference])
  let placed ← addExpr (.decl a)
  let called ← call a []
  setBody outer (← block [placed, called])
  return ⟨outer, [a, lam]⟩

/-- Nothing to lift.

    fun plain(n: Int): Int { return n }
-/
def plain : Build Sample := do
  let plain ← function none (.ident "plain") .int
  let n ← param plain (.ident "n") .int
  returning plain (← read n)
  return ⟨plain, []⟩

/-- A lambda captures one of two parameters, and captures it once.

    fun outer(n: Int, m: Int): Int { val twice = { n + n }; return twice() }
-/
def oneOfTwo : Build Sample := do
  let outer ← function none (.ident "outer") .int
  let n ← param outer (.ident "n") .int
  let _ ← param outer (.ident "m") .int
  let lam ← lambda outer .int
  let lhs ← read n
  let rhs ← read n
  returning lam (← addExpr (.binary .add lhs rhs))
  placing outer [lam] (call lam [])
  return ⟨outer, [lam]⟩

/-- A local extension function in a method reads the instance of the class.

    class Box(val v: Int) {
      fun shifted(d: Int): Int {
        fun String.plus(): Int { return d + this@Box.v }; return "".plus()
      }
    }
-/
def extensionInMember : Build Sample := do
  let boxed ← cls none (.ident "Box") .plain false
  let _ ← constructor boxed true
  let v ← field boxed (.ident "v") .int none
  let shifted ← function (some boxed) (.ident "shifted") .int
  let d ← param shifted (.ident "d") .int
  let this ← receiverOf (some boxed)
  let plus ← function (some shifted) (.ident "plus") .int
  let _ ← extensionReceiver plus .str
  let lhs ← read d
  let receiver ← this.mapM read
  let rhs ← addExpr (.getField v receiver)
  returning plus (← addExpr (.binary .add lhs rhs))
  placing shifted [plus] do
    let text ← addExpr (.lit (.str ""))
    addExpr (.access .call { callee := plus, extension := some text })
  return ⟨shifted, [plus]⟩

/-- The program that a sample builds. -/
def program (b : Build Sample) : Program :=
  match Build.fromEmpty b with
  | .ok (_, p) => p
  | .error _ => {}

/-- All samples by name. -/
def all : List (String × Build Sample) :=
  [("captured_call", capturedCall), ("transitive", transitive),
    ("anonymous_object", anonymousObject),
   ("inner_class_in_local_class", innerClassInLocalClass), ("sibling_call", siblingCall),
   ("nonlocal_return_in_lambda", nonlocalReturn), ("plain", plain),
   ("lambda_reading_one_of_two", oneOfTwo), ("extension_in_member", extensionInMember)]

end Sample

end LambdaLift
