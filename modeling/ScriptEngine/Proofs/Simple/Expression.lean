import ScriptEngine.Proofs.Simple

/-!
# Expressions are simple
-/

namespace ScriptEngine

variable {σ : Type}

namespace Eval

/-! ## Names and properties -/

@[grind .]
theorem simple_toObject (v : Value) : Simple (toObject v : Eval σ ObjectId) := by
  unfold toObject
  grind

@[grind .]
theorem simple_putReference (r : Reference) (value : Value) :
    Simple (putReference r value : Eval σ Unit) := by
  unfold putReference
  grind

@[grind .]
theorem simple_getMember (base : Value) (key : String) :
    Simple (getMember base key : Eval σ Value) := by
  unfold getMember
  grind

@[grind .]
theorem simple_setMember (base : Value) (key : String) (value : Value) :
    Simple (setMember base key value : Eval σ Unit) := by
  unfold setMember
  grind

@[grind .]
theorem simple_deleteMember (base : Value) (key : String) :
    Simple (deleteMember base key : Eval σ Value) := by
  unfold deleteMember
  grind

@[grind .]
theorem simple_deleteName (name : String) : Simple (deleteName name : Eval σ Value) := by
  unfold deleteName
  grind

@[grind .]
theorem simple_superBase : Simple (superBase : Eval σ (Value × Value)) := by
  unfold superBase
  grind

theorem instanceWithin_unsuspended (h : Heap) (value : Value) (n : Nat) (target : ObjectId) :
    Unsuspended (instanceWithin h value n target) := by
  fun_induction instanceWithin h value n target with
  | case3 n target f _ ih => exact ih
  | _ => nofun

@[grind .]
theorem simple_instanceOf (value target : Value) :
    Simple (instanceOf value target : Eval σ Bool) := by
  refine .askFor (fun _ _ _ => rfl) fun m => ?_
  split
  · exact instanceWithin_unsuspended _ _ _ _
  · nofun

@[grind .]
theorem simple_newError (prototype : ObjectId) (message : Option String) (skip : Nat) :
    Simple (newError prototype message skip : Eval σ ObjectId) := by
  unfold newError
  grind

@[grind .]
theorem simple_faultValue (fault : Fault) : Simple (faultValue fault : Eval σ Value) := by
  unfold faultValue createError
  grind

theorem exists_faultValue (A : Answers σ) (fault : Fault) (m : Machine σ) :
    ∃ v m', A.eval (faultValue fault) m = .finished (.ok v) m' := by
  cases fault <;> exact ⟨_, _, rfl⟩

/-! ## Functions and classes -/

@[grind .]
theorem simple_createFunction (node : FunctionNode) (environment : EnvironmentId)
    (use : FunctionUse) : Simple (createFunction node environment use : Eval σ ObjectId) := by
  unfold createFunction
  grind

@[grind .]
theorem simple_functionExpression (node : FunctionNode) (hint : Option String) :
    Simple (functionExpression node hint : Eval σ Value) := by
  unfold functionExpression
  grind

@[grind .]
theorem simple_classParents (parent : Value) :
    Simple (classParents parent : Eval σ (Option ObjectId × ObjectId)) := by
  unfold classParents
  grind

@[grind .]
theorem simple_defineMethods (scope : EnvironmentId) (constructor prototype : ObjectId)
    (methods : List MethodNode) :
    Simple (defineMethods scope constructor prototype methods : Eval σ Unit) := by
  induction methods with
  | nil => exact simple_pure ()
  | cons method rest ih =>
    unfold defineMethods
    grind

@[grind .]
theorem simple_buildClass (node : ClassNode) (hint : Option String) (scope : EnvironmentId)
    (parents : Option ObjectId × ObjectId) :
    Simple (buildClass node hint scope parents : Eval σ ObjectId) := by
  unfold buildClass
  grind

@[grind ←]
theorem simple_defineClass (node : ClassNode) (hint : Option String)
    {parents : Eval σ (Option ObjectId × ObjectId)} (h : Simple parents) :
    Simple (defineClass node hint parents) := by
  refine .bind (.ask fun _ _ _ => rfl) fun outer => .bind (.perform trivial) fun scope => ?_
  have built : Simple (within scope (parents >>= buildClass node hint scope)) :=
    .within scope (.bind h (simple_buildClass node hint scope))
  grind

@[grind .]
theorem simple_literalMethod (object : ObjectId) (key : String) (node : FunctionNode) :
    Simple (literalMethod object key node : Eval σ Value) := by
  unfold literalMethod
  grind

@[grind .]
theorem simple_defineData (object : ObjectId) (key : String) (value : Value) :
    Simple (defineData object key value : Eval σ Unit) := by
  unfold defineData
  grind

@[grind .]
theorem simple_binary (op : BinaryOp) (a b : Value) : Simple (binary op a b : Eval σ Value) := by
  unfold binary
  grind

@[grind .]
theorem simple_callNamed (callee this : Value) (arguments : List Value) (text : String)
    (span : Span) : Simple (callNamed callee this arguments text span : Eval σ Value) := by
  unfold callNamed
  grind

@[grind .]
theorem simple_constructNamed (callee : Value) (arguments : List Value) (text : String)
    (span : Span) : Simple (constructNamed callee arguments text span : Eval σ Value) := by
  unfold constructNamed
  grind

@[grind .]
theorem simple_superConstructor :
    Simple (superConstructor : Eval σ (EnvironmentId × Value × Value)) := by
  unfold superConstructor
  refine .bind (.ask fun _ _ _ => rfl) fun scope => .bind (.ask fun _ _ _ => rfl) fun record => ?_
  grind

@[grind .]
theorem simple_superCall (scope : EnvironmentId) (parent newTarget : Value)
    (arguments : List Value) :
    Simple (superCall scope parent newTarget arguments : Eval σ Value) := by
  unfold superCall
  grind

end Eval

open Eval

theorem simple_expressions :
    (∀ (hint : Option String) (e : Expr), Simple (e.eval hint : Eval σ Value)) ∧
    (∀ es, Simple (evalList es : Eval σ (List Value))) ∧
    (∀ last es, Simple (evalSequence last es : Eval σ Value)) ∧
    (∀ key : Key, Simple (key.eval : Eval σ String)) ∧
    (∀ parent, Simple (evalParents parent : Eval σ (Option ObjectId × ObjectId))) ∧
    (∀ object properties, Simple (evalProperties object properties : Eval σ Unit)) := by
  apply Expr.eval.mutual_induct
  all_goals
    intros
    simp only [Expr.eval, Key.eval, evalList, evalSequence, evalProperties, evalParents]
    grind

@[grind .]
theorem Expr.simple (e : Expr) (hint : Option String) : Simple (e.eval hint : Eval σ Value) :=
  simple_expressions.1 hint e

@[grind .]
theorem Key.simple (key : Key) : Simple (key.eval : Eval σ String) :=
  simple_expressions.2.2.2.1 key

@[grind .]
theorem ClassNode.simple (node : ClassNode) (hint : Option String) :
    Simple (node.eval hint : Eval σ Value) :=
  simple_defineClass node hint (simple_expressions.2.2.2.2.1 node.parent)

end ScriptEngine
