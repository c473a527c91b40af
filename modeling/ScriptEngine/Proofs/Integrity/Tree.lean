import Mathlib
import ScriptEngine.Expression
import ScriptEngine.Tree.Hoist

/-!
# Well-formed trees

In a well-formed tree the declarations of lexical names and of functions stand directly in statement
lists, except for those of lexical names in the heads of `for` statements, and the constructor of a
class is neither an arrow function nor a generator function.
-/

namespace ScriptEngine

variable {f : FunctionNode}

mutual

def Expr.wellFormed : Expr → Bool
  | .literal .. | .identifier .. | .thisValue _ => true
  | .object properties _ => wellFormedProperties properties
  | .function node => node.wellFormed
  | .classDef node => node.wellFormed
  | .unary _ argument _ => argument.wellFormed
  | .binary _ left right _ | .logical _ left right _ => left.wellFormed && right.wellFormed
  | .conditional test consequent alternate _ =>
    test.wellFormed && consequent.wellFormed && alternate.wellFormed
  | .assign _ target value _ => target.wellFormed && value.wellFormed
  | .update _ _ target _ => target.wellFormed
  | .sequence expressions _ => wellFormedExprs expressions
  | .member object key _ => object.wellFormed && key.wellFormed
  | .call callee arguments _ | .construct callee arguments _ =>
    callee.wellFormed && wellFormedExprs arguments
  | .superCall arguments _ => wellFormedExprs arguments
  | .superMember key _ => key.wellFormed
  | .yield argument _ => wellFormedExpr? argument

def Key.wellFormed : Key → Bool
  | .name _ => true
  | .computed expression => expression.wellFormed

def Target.wellFormed : Target → Bool
  | .identifier _ => true
  | .member object key => object.wellFormed && key.wellFormed

def wellFormedExprs : List Expr → Bool
  | [] => true
  | e :: rest => e.wellFormed && wellFormedExprs rest

def wellFormedExpr? : Option Expr → Bool
  | none => true
  | some e => e.wellFormed

def wellFormedProperties : List PropertyNode → Bool
  | [] => true
  | ⟨key, value, _⟩ :: rest => key.wellFormed && value.wellFormed && wellFormedProperties rest

def FunctionNode.wellFormed : FunctionNode → Bool
  | ⟨_, parameters, body, _, _, _, _⟩ => wellFormedParameters parameters && body.wellFormed

def wellFormedParameters : List Parameter → Bool
  | [] => true
  | ⟨_, fallback⟩ :: rest => wellFormedExpr? fallback && wellFormedParameters rest

def Body.wellFormed : Body → Bool
  | .block statements => wellFormedList statements
  | .concise expression => expression.wellFormed

def ClassNode.wellFormed : ClassNode → Bool
  | ⟨_, parent, constructor, methods, _⟩ =>
    wellFormedExpr? parent && wellFormedConstructor constructor && wellFormedMethods methods

def wellFormedConstructor : Option FunctionNode → Bool
  | none => true
  | some node => !node.arrow && !node.generator && node.wellFormed

def wellFormedMethods : List MethodNode → Bool
  | [] => true
  | ⟨_, function, _⟩ :: rest => function.wellFormed && wellFormedMethods rest

def Stmt.wellFormed (listed : Bool) : Stmt → Bool
  | .declare declaration => (listed || declaration.kind = .var) && declaration.wellFormed
  | .functionDecl node => listed && node.wellFormed
  | .classDecl node => listed && node.wellFormed
  | .block body _ => wellFormedList body
  | .branch test consequent alternate _ =>
    test.wellFormed && consequent.wellFormed false && wellFormedStmt? alternate
  | .switch discriminant cases _ => discriminant.wellFormed && wellFormedCases cases
  | .forLoop init test update body _ =>
    init.wellFormed && wellFormedExpr? test && wellFormedExpr? update && body.wellFormed false
  | .whileLoop test body _ | .doWhile body test _ => test.wellFormed && body.wellFormed false
  | .tryCatch block handler finalizer _ =>
    wellFormedList block && wellFormedHandler handler && wellFormedFinalizer finalizer
  | .withObject object body _ => object.wellFormed && body.wellFormed false
  | .return argument _ => wellFormedExpr? argument
  | .throw argument _ => argument.wellFormed
  | .expression expression _ => expression.wellFormed
  | .labelled _ body _ => body.wellFormed false
  | .break .. | .continue .. | .empty _ | .debugger _ => true

def wellFormedList : List Stmt → Bool
  | [] => true
  | s :: rest => s.wellFormed true && wellFormedList rest

def wellFormedStmt? : Option Stmt → Bool
  | none => true
  | some s => s.wellFormed false

def Declaration.wellFormed : Declaration → Bool
  | ⟨_, declarators, _⟩ => wellFormedDeclarators declarators

def wellFormedDeclarators : List Declarator → Bool
  | [] => true
  | ⟨_, init⟩ :: rest => wellFormedExpr? init && wellFormedDeclarators rest

def wellFormedCases : List SwitchCase → Bool
  | [] => true
  | ⟨test, body⟩ :: rest => wellFormedExpr? test && wellFormedList body && wellFormedCases rest

def ForInit.wellFormed : ForInit → Bool
  | .none => true
  | .declaration declaration => declaration.wellFormed
  | .expression expression => expression.wellFormed

def wellFormedHandler : Option CatchClause → Bool
  | none => true
  | some ⟨_, body⟩ => wellFormedList body

def wellFormedFinalizer : Option (List Stmt) → Bool
  | none => true
  | some body => wellFormedList body

end

def Program.wellFormed (program : Program) : Bool := wellFormedList program.body

theorem Declaration.wellFormed_eq (declaration : Declaration) :
    declaration.wellFormed = wellFormedDeclarators declaration.declarators := by
  obtain ⟨_, _, _⟩ := declaration
  rw [Declaration.wellFormed]

theorem FunctionNode.wellFormed_eq (node : FunctionNode) :
    node.wellFormed = (wellFormedParameters node.parameters && node.body.wellFormed) := by
  obtain ⟨_, _, _, _, _, _, _⟩ := node
  rw [FunctionNode.wellFormed]

theorem wellFormedList_eq (body : List Stmt) : wellFormedList body = body.all (·.wellFormed true) := by
  induction body with
  | nil => rfl
  | cons s rest ih => rw [wellFormedList, List.all_cons, ih]

theorem mem_of_declared {body : List Stmt} (declared : f ∈ declaredFunctions body) :
    .functionDecl f ∈ body := by
  obtain ⟨s, listed, found⟩ := List.mem_filterMap.1 declared
  cases s <;> cases found
  exact listed

theorem declaredFunctions_wellFormed {body : List Stmt} (h : wellFormedList body = true)
    (declared : f ∈ declaredFunctions body) : f.wellFormed = true := by
  rw [wellFormedList_eq, List.all_eq_true] at h
  exact h _ (mem_of_declared declared)

theorem lastOfEachName_subset {functions : List FunctionNode} (h : f ∈ lastOfEachName functions) :
    f ∈ functions := by
  induction functions with
  | nil => cases h
  | cons g rest ih =>
    unfold lastOfEachName at h
    split at h
    · exact List.mem_cons_of_mem g (ih h)
    · rcases List.mem_cons.1 h with rfl | later
      · exact List.mem_cons_self
      · exact List.mem_cons_of_mem g (ih later)

theorem switchScope_wellFormed {cases : List SwitchCase} (h : wellFormedCases cases = true) :
    wellFormedList (cases.flatMap (·.body)) = true := by
  induction cases with
  | nil => rfl
  | cons c rest ih =>
    obtain ⟨test, body⟩ := c
    simp only [wellFormedCases, Bool.and_eq_true] at h
    have rest := ih h.2
    rw [wellFormedList_eq] at rest ⊢
    rw [List.flatMap_cons, List.all_append, ← wellFormedList_eq, h.1.2, rest, Bool.and_self]

theorem FunctionNode.scope_wellFormed {node : FunctionNode} (h : node.wellFormed = true)
    (declared : f ∈ node.scope.functions) : f.wellFormed = true := by
  rw [node.wellFormed_eq, Bool.and_eq_true] at h
  unfold FunctionNode.scope at declared
  split at declared
  · rename_i statements body
    rw [body] at h
    exact declaredFunctions_wellFormed h.2 (lastOfEachName_subset declared)
  · cases declared

theorem wellFormed_defaultConstructor (span : Span) :
    (Eval.defaultConstructor span).wellFormed = true := rfl

end ScriptEngine
