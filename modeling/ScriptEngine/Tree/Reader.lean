import ScriptEngine.Json
import ScriptEngine.Number.Reader
import ScriptEngine.Tree.Symbol

/-!
Program trees written as JSON. A node is an object whose field `k` names its form; the other fields
hold its parts, and `at` its position. The first argument of a reader bounds how many readers are
nested in each other.
-/

namespace ScriptEngine

open Json (Document)

namespace Tree

def span? (j : Document) : Option Span :=
  match j.field? "at" with
  | none => some {}
  | some place => match place.items? with
    | some [line, column] => do some ⟨← line.nat?, ← column.nat?⟩
    | _ => none

def number? : Document → Option Float
  | .number n => some n.toFloat
  | .string s => Number.read? s.toList
  | _ => none

def optional {α : Type} (read : Document → Option α) (j : Document) (key : String) :
    Option (Option α) :=
  match j.field? key with
  | none => some none
  | some part => (read part).map some

def all {α : Type} (read : Document → Option α) (j : Document) (key : String) : Option (List α) :=
  (j.list? key).bind fun items => items.mapM read

def literal? (form : String) (j : Document) : Option Literal :=
  match form with
  | "num" => (j.field? "v").bind number? |>.map .number
  | "str" => (j.text? "v").map .string
  | "bool" => some (.boolean (j.flag "v"))
  | "null" => some .null
  | "undef" => some .undefined
  | _ => none

mutual

def expr? : Nat → Document → Option Expr
  | 0, _ => none
  | n + 1, j => do
    let span ← span? j
    let form ← j.text? "k"
    let part (key : String) := (j.field? key).bind (expr? n)
    match form with
    | "id" => some (.identifier (← j.text? "n") span)
    | "this" => some (.thisValue span)
    | "object" => some (.object (← all (property? n) j "props") span)
    | "fn" => some (.function (← function? n j))
    | "class" => some (.classDef (← class? n j))
    | "unary" => some (.unary (← (j.text? "op").bind UnaryOp.ofSymbol?) (← part "e") span)
    | "binary" =>
      some (.binary (← (j.text? "op").bind BinaryOp.ofSymbol?) (← part "l") (← part "r") span)
    | "logical" =>
      some (.logical (← (j.text? "op").bind LogicalOp.ofSymbol?) (← part "l") (← part "r") span)
    | "cond" => some (.conditional (← part "test") (← part "then") (← part "else") span)
    | "assign" =>
      some (.assign (← (j.text? "op").bind AssignOp.ofSymbol?)
        (← (j.field? "target").bind (target? n)) (← part "value") span)
    | "update" =>
      some (.update (← (j.text? "op").bind UpdateOp.ofSymbol?) (j.flag "prefix")
        (← (j.field? "target").bind (target? n)) span)
    | "seq" => some (.sequence (← all (expr? n) j "es") span)
    | "member" => some (.member (← part "o") (← (j.field? "p").bind (key? n)) span)
    | "call" => some (.call (← part "f") (← all (expr? n) j "args") span)
    | "new" => some (.construct (← part "f") (← all (expr? n) j "args") span)
    | "supercall" => some (.superCall (← all (expr? n) j "args") span)
    | "super" => some (.superMember (← (j.field? "p").bind (key? n)) span)
    | "yield" => some (.yield (← optional (expr? n) j "e") span)
    | _ => (literal? form j).map (.literal · span)

def key? : Nat → Document → Option Key
  | 0, _ => none
  | n + 1, j => match j with
    | .string s => some (.name s)
    | _ => (expr? n j).map .computed

def target? : Nat → Document → Option Target
  | 0, _ => none
  | n + 1, j => do
    match ← j.text? "k" with
    | "id" => some (.identifier (← j.text? "n"))
    | "member" =>
      some (.member (← (j.field? "o").bind (expr? n)) (← (j.field? "p").bind (key? n)))
    | _ => none

def property? : Nat → Document → Option PropertyNode
  | 0, _ => none
  | n + 1, j => do
    some ⟨← (j.field? "key").bind (key? n), ← (j.field? "v").bind (expr? n), j.flag "method"⟩

def parameter? : Nat → Document → Option Parameter
  | 0, _ => none
  | n + 1, j => do some ⟨← j.text? "n", ← optional (expr? n) j "d"⟩

def body? : Nat → Document → Option Body
  | 0, _ => none
  | n + 1, j => match j with
    | .array statements => (statements.mapM (stmt? n)).map .block
    | _ => (expr? n j).map .concise

def function? : Nat → Document → Option FunctionNode
  | 0, _ => none
  | n + 1, j => do
    some
      { name := ← optional Json.string? j "name"
        parameters := ← all (parameter? n) j "params"
        body := ← (j.field? "body").bind (body? n)
        arrow := j.flag "arrow"
        generator := j.flag "gen"
        strict := j.flag "strict"
        span := ← span? j }

def method? : Nat → Document → Option MethodNode
  | 0, _ => none
  | n + 1, j => do
    some ⟨← j.text? "key", ← (j.field? "fn").bind (function? n), j.flag "static"⟩

def class? : Nat → Document → Option ClassNode
  | 0, _ => none
  | n + 1, j => do
    some
      { name := ← optional Json.string? j "name"
        parent := ← optional (expr? n) j "super"
        constructor := ← optional (function? n) j "ctor"
        methods := ← all (method? n) j "methods"
        span := ← span? j }

def declarator? : Nat → Document → Option Declarator
  | 0, _ => none
  | n + 1, j => do some ⟨← j.text? "n", ← optional (expr? n) j "init"⟩

def declaration? : Nat → Document → Option Declaration
  | 0, _ => none
  | n + 1, j => do
    some ⟨← (j.text? "kind").bind VariableKind.ofKeyword?, ← all (declarator? n) j "decls",
      ← span? j⟩

def case? : Nat → Document → Option SwitchCase
  | 0, _ => none
  | n + 1, j => do some ⟨← optional (expr? n) j "test", ← all (stmt? n) j "body"⟩

def handler? : Nat → Document → Option CatchClause
  | 0, _ => none
  | n + 1, j => do some ⟨← optional Json.string? j "param", ← all (stmt? n) j "body"⟩

def head? : Nat → Document → Option ForInit
  | 0, _ => none
  | n + 1, j =>
    if j.text? "k" = some "var" then (declaration? n j).map .declaration
    else (expr? n j).map .expression

def stmt? : Nat → Document → Option Stmt
  | 0, _ => none
  | n + 1, j => do
    let span ← span? j
    let part (key : String) := (j.field? key).bind (expr? n)
    let body (key : String) := (j.field? key).bind (stmt? n)
    match ← j.text? "k" with
    | "var" => (declaration? n j).map .declare
    | "fndecl" => (function? n j).map .functionDecl
    | "classdecl" => (class? n j).map .classDecl
    | "block" => some (.block (← all (stmt? n) j "body") span)
    | "if" => some (.branch (← part "test") (← body "then") (← optional (stmt? n) j "else") span)
    | "switch" => some (.switch (← part "e") (← all (case? n) j "cases") span)
    | "for" => do
      let head ← optional (head? n) j "init"
      some (.forLoop (head.getD .none) (← optional (expr? n) j "test")
        (← optional (expr? n) j "update") (← body "body") span)
    | "while" => some (.whileLoop (← part "test") (← body "body") span)
    | "dowhile" => some (.doWhile (← body "body") (← part "test") span)
    | "try" => do
      let finalizer ← match j.field? "finally" with
        | none => some none
        | some _ => (all (stmt? n) j "finally").map some
      some (.tryCatch (← all (stmt? n) j "block") (← optional (handler? n) j "catch") finalizer
        span)
    | "with" => some (.withObject (← part "o") (← body "body") span)
    | "return" => some (.return (← optional (expr? n) j "e") span)
    | "break" => some (.break (← optional Json.string? j "label") span)
    | "continue" => some (.continue (← optional Json.string? j "label") span)
    | "throw" => some (.throw (← part "e") span)
    | "expr" => some (.expression (← part "e") span)
    | "label" => some (.labelled (← j.text? "label") (← body "body") span)
    | "empty" => some (.empty span)
    | "debugger" => some (.debugger span)
    | _ => none

end

/-- Enough for every node of a document: no node passes through more than three readers. -/
def levels (j : Document) : Nat := 3 * j.depth + 3

end Tree

def Expr.ofJson? (j : Document) : Option Expr := Tree.expr? (Tree.levels j) j

def Stmt.ofJson? (j : Document) : Option Stmt := Tree.stmt? (Tree.levels j) j

def FunctionNode.ofJson? (j : Document) : Option FunctionNode := Tree.function? (Tree.levels j) j

def Program.ofJson? (j : Document) : Option Program := do
  some ⟨← Tree.all (Tree.stmt? (Tree.levels j)) j "body", j.flag "strict", ← Tree.span? j⟩

end ScriptEngine
