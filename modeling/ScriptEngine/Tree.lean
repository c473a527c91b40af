/-!
Program trees. A tree is what an external parser hands over; every node carries the position it came
from. Function nodes serve declarations, expressions, arrows, methods and generator functions alike.
-/

namespace ScriptEngine

structure Span where
  line : Nat := 0
  column : Nat := 0
deriving DecidableEq, Inhabited

def Span.text (s : Span) : String := toString s.line ++ ":" ++ toString s.column

inductive Literal where
  | undefined
  | null
  | boolean (b : Bool)
  | number (x : Float)
  | string (s : String)
deriving Inhabited

inductive UnaryOp where
  | not
  | minus
  | plus
  | typeof
  | void
  | delete
deriving DecidableEq

inductive BinaryOp where
  | add
  | sub
  | mul
  | div
  | mod
  | lt
  | le
  | gt
  | ge
  | eq
  | ne
  | strictEq
  | strictNe
  | instanceOf
  | inside
deriving DecidableEq

inductive LogicalOp where
  | and
  | or
  | coalesce
deriving DecidableEq

inductive AssignOp where
  | plain
  | add
  | sub
  | mul
deriving DecidableEq

inductive UpdateOp where
  | increment
  | decrement
deriving DecidableEq

inductive VariableKind where
  | var
  | let
  | const
deriving DecidableEq

mutual

inductive Expr where
  | literal (value : Literal) (span : Span)
  | identifier (name : String) (span : Span)
  | thisValue (span : Span)
  | object (properties : List PropertyNode) (span : Span)
  | function (node : FunctionNode)
  | classDef (node : ClassNode)
  | unary (op : UnaryOp) (argument : Expr) (span : Span)
  | binary (op : BinaryOp) (left right : Expr) (span : Span)
  | logical (op : LogicalOp) (left right : Expr) (span : Span)
  | conditional (test consequent alternate : Expr) (span : Span)
  | assign (op : AssignOp) (target : Target) (value : Expr) (span : Span)
  | update (op : UpdateOp) (prefixed : Bool) (target : Target) (span : Span)
  | sequence (expressions : List Expr) (span : Span)
  | member (object : Expr) (key : Key) (span : Span)
  | call (callee : Expr) (arguments : List Expr) (span : Span)
  | construct (callee : Expr) (arguments : List Expr) (span : Span)
  | superCall (arguments : List Expr) (span : Span)
  | superMember (key : Key) (span : Span)
  | yield (argument : Option Expr) (span : Span)

inductive Key where
  | name (text : String)
  | computed (expression : Expr)

inductive Target where
  | identifier (name : String)
  | member (object : Expr) (key : Key)

structure PropertyNode where
  key : Key
  value : Expr
  method : Bool

structure Parameter where
  name : String
  fallback : Option Expr

structure FunctionNode where
  name : Option String
  parameters : List Parameter
  body : Body
  arrow : Bool
  generator : Bool
  strict : Bool
  span : Span

inductive Body where
  | block (statements : List Stmt)
  | concise (expression : Expr)

structure MethodNode where
  key : String
  function : FunctionNode
  isStatic : Bool

structure ClassNode where
  name : Option String
  parent : Option Expr
  constructor : Option FunctionNode
  methods : List MethodNode
  span : Span

inductive Stmt where
  | declare (declaration : Declaration)
  | functionDecl (node : FunctionNode)
  | classDecl (node : ClassNode)
  | block (body : List Stmt) (span : Span)
  | branch (test : Expr) (consequent : Stmt) (alternate : Option Stmt) (span : Span)
  | switch (discriminant : Expr) (cases : List SwitchCase) (span : Span)
  | forLoop (init : ForInit) (test update : Option Expr) (body : Stmt) (span : Span)
  | whileLoop (test : Expr) (body : Stmt) (span : Span)
  | doWhile (body : Stmt) (test : Expr) (span : Span)
  | tryCatch (block : List Stmt) (handler : Option CatchClause) (finalizer : Option (List Stmt))
      (span : Span)
  | withObject (object : Expr) (body : Stmt) (span : Span)
  | return (argument : Option Expr) (span : Span)
  | break (label : Option String) (span : Span)
  | continue (label : Option String) (span : Span)
  | throw (argument : Expr) (span : Span)
  | expression (expression : Expr) (span : Span)
  | labelled (label : String) (body : Stmt) (span : Span)
  | empty (span : Span)
  | debugger (span : Span)

structure Declaration where
  kind : VariableKind
  declarators : List Declarator
  span : Span

structure Declarator where
  name : String
  init : Option Expr

structure SwitchCase where
  test : Option Expr
  body : List Stmt

inductive ForInit where
  | none
  | declaration (declaration : Declaration)
  | expression (expression : Expr)

structure CatchClause where
  parameter : Option String
  body : List Stmt

end

structure Program where
  body : List Stmt
  strict : Bool
  span : Span

def Expr.span : Expr → Span
  | .literal _ span | .identifier _ span | .thisValue span | .object _ span | .unary _ _ span
  | .binary _ _ _ span | .logical _ _ _ span | .conditional _ _ _ span | .assign _ _ _ span
  | .update _ _ _ span | .sequence _ span | .member _ _ span | .call _ _ span
  | .construct _ _ span | .superCall _ span | .superMember _ span | .yield _ span => span
  | .function node => node.span
  | .classDef node => node.span

def Stmt.span : Stmt → Span
  | .block _ span | .branch _ _ _ span | .switch _ _ span | .forLoop _ _ _ _ span
  | .whileLoop _ _ span | .doWhile _ _ span | .tryCatch _ _ _ span | .withObject _ _ span
  | .return _ span | .break _ span | .continue _ span | .throw _ span | .expression _ span
  | .labelled _ _ span | .empty span | .debugger span => span
  | .declare declaration => declaration.span
  | .functionDecl node => node.span
  | .classDecl node => node.span

def FunctionNode.expectedArguments (node : FunctionNode) : Nat :=
  (node.parameters.takeWhile (·.fallback.isNone)).length

end ScriptEngine
