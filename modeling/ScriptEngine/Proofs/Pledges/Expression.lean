import ScriptEngine.Proofs.Pledges.Honest

/-!
# Tidy expressions are tame
-/

namespace ScriptEngine

variable {σ α β : Type} {W : Watch} {s : Store} {node : ClassNode}

theorem defaultConstructor_tidy (once : Bool) (span : Span) :
    (Eval.defaultConstructor span).tidy once = true := by
  simp [Eval.defaultConstructor, FunctionNode.tidy, tidyParameters, Body.tidy, tidyList, distinct,
    declaredNames, lexicalNames, declaredFunctions]

section

variable (h : W.Asks (node.tidy W.once) node.wellFormed)

include h

theorem ClassNode.asks_constructor :
    W.Asks ((node.constructor.getD (Eval.defaultConstructor node.span)).tidy W.once)
        (node.constructor.getD (Eval.defaultConstructor node.span)).wellFormed ∧
      (W.sound = true → (node.constructor.getD (Eval.defaultConstructor node.span)).arrow = false) := by
  obtain ⟨_, _, constructor, _, span⟩ := node
  simp only [ClassNode.tidy, ClassNode.wellFormed, Watch.asks_and] at h
  obtain ⟨⟨-, tidy, wellFormed⟩, -⟩ := h
  cases constructor with
  | none => exact ⟨⟨defaultConstructor_tidy _ span, fun _ => wellFormed_defaultConstructor span⟩,
      fun _ => rfl⟩
  | some node =>
    simp only [wellFormedConstructor, Bool.and_eq_true, Bool.not_eq_true'] at wellFormed
    exact ⟨⟨tidy, fun sound => (wellFormed sound).2⟩, fun sound => (wellFormed sound).1.1⟩

theorem ClassNode.asks_methods :
    W.Asks (tidyMethods W.once node.methods) (wellFormedMethods node.methods) := by
  obtain ⟨_, _, _, methods, _⟩ := node
  simp only [ClassNode.tidy, ClassNode.wellFormed, Watch.asks_and] at h
  exact h.2

theorem ClassNode.asks_parent :
    W.Asks (tidyExpr? W.once node.parent) (wellFormedExpr? node.parent) := by
  obtain ⟨_, parent, _, _, _⟩ := node
  simp only [ClassNode.tidy, ClassNode.wellFormed, Watch.asks_and] at h
  exact h.1.1

end

theorem Machine.getReference_endsWell (m : Machine σ) (r : Reference) :
    EndsWell (fun _ => True) (m.getReference r) := by
  unfold Machine.getReference
  split
  · trivial
  · exact m.store.getBinding_endsWell _ _ _

@[grind .]
theorem Machine.fine_getReference (m : Machine σ) (r : Reference) : Fine W (m.getReference r) :=
  (m.getReference_endsWell r).fine

@[grind ←]
theorem Machine.Tidy.fine_getThis {m : Machine σ} (h : m.Tidy W) : Fine W m.getThis :=
  ⟨m.getThis_unsuspended, fun sound =>
    have intact := h.intact sound
    (Store.getThis_endsWell (intact.store.thisScope intact.lexical.1).2).fine (W := W) |>.benign sound⟩

namespace Eval

theorem instanceWithin_endsWell (h : Heap) (value : Value) (n : Nat) (target : ObjectId) :
    EndsWell (fun _ => True) (instanceWithin h value n target) := by
  fun_induction instanceWithin h value n target with
  | case3 n target f _ ih => exact ih
  | _ => trivial

/-! ## The operations of evaluations -/

@[grind .]
theorem tame_pure (a : α) : Tame W s (pure a : Eval σ α) := tame_ofExcept (fine_ok a)

theorem tame_throw {fault : Fault} (h : fault.Benign) : Tame W s (throw fault : Eval σ α) :=
  tame_ofExcept (fine_error h)

@[grind .]
theorem tame_typeError (issue : TypeIssue) : Tame W s (typeError issue : Eval σ α) :=
  tame_throw trivial

@[grind .]
theorem tame_throw_typeError (issue : TypeIssue) (location : Option Span) :
    Tame W s (throw (.typeError issue location) : Eval σ α) := tame_throw trivial

@[grind .]
theorem tame_throw_syntaxError (issue : SyntaxIssue) (location : Option Span) :
    Tame W s (throw (.syntaxError issue location) : Eval σ α) := tame_throw trivial

@[grind .]
theorem tame_throw_referenceError (issue : ReferenceIssue) :
    Tame W s (throw (.referenceError issue) : Eval σ α) := tame_throw trivial

@[grind .]
theorem tame_write (o : ObjectId) (key : String) (value : Value) :
    Tame W s (perform (.write o key value) : Eval σ Bool) := tame_perform fun _ _ => trivial

@[grind .]
theorem tame_remove (o : ObjectId) (key : String) :
    Tame W s (perform (.remove o key) : Eval σ Bool) := tame_perform fun _ _ => trivial

@[grind .]
theorem tame_deleteBinding (e : EnvironmentId) (name : String) :
    Tame W s (perform (.deleteBinding e name) : Eval σ Bool) := tame_perform fun _ _ => trivial

@[grind .]
theorem tame_assign (e : EnvironmentId) (name : String) (value : Value) (strict : Bool) :
    Tame W s (attempt (.assign e name value strict) : Eval σ Unit) :=
  tame_attempt (fun _ _ => trivial) fun m tidy _ =>
    fine_commit (m.store.assign_unsuspended e name value strict) fun sound =>
      m.store.assign_endsWell (tidy.intact sound).store e name value strict

theorem tame_bindThis {e : EnvironmentId} {value : Value}
    (owns : W.sound = true → ∃ target, s.OwnsThis e target ∧
      ∀ o, target = .object o → ∃ o, value = .object o) :
    Tame W s (attempt (.bindThis e value) : Eval σ Unit) := by
  have later (m : Machine σ) (grows : s.Grows m.store) (sound : W.sound = true) :
      ∃ target, m.store.OwnsThis e target ∧ ∀ o, target = .object o → ∃ o, value = .object o :=
    let ⟨target, owned, object⟩ := owns sound
    ⟨target, grows.ownsThis owned, object⟩
  refine tame_attempt later fun m tidy grows => fine_commit (m.store.bindThis_unsuspended e value)
    fun sound => ?_
  obtain ⟨target, owned, object⟩ := later m grows sound
  exact Store.bindThis_endsWell owned object

/-! ## Names and properties -/

theorem tame_allocateData {object : Object} (h : object.callable? = none) :
    Tame W s (perform (.allocate object) : Eval σ ObjectId) :=
  tame_perform fun _ _ => Watch.admits_of_none h

@[grind .]
theorem tame_toObject (v : Value) : Tame W s (toObject v : Eval σ ObjectId) := by
  unfold toObject
  have wrap (prototype : ObjectId) (v : Value) : Tame W s (perform
      (.allocate { prototype := some prototype, kind := .wrapper v }) : Eval σ ObjectId) :=
    tame_allocateData rfl
  grind

@[grind .]
theorem tame_putReference (r : Reference) (value : Value) :
    Tame W s (putReference r value : Eval σ Unit) := by
  unfold putReference
  grind

@[grind .]
theorem tame_getMember (base : Value) (key : String) :
    Tame W s (getMember base key : Eval σ Value) := by
  unfold getMember
  grind

@[grind .]
theorem tame_setMember (base : Value) (key : String) (value : Value) :
    Tame W s (setMember base key value : Eval σ Unit) := by
  unfold setMember
  grind

@[grind .]
theorem tame_deleteMember (base : Value) (key : String) :
    Tame W s (deleteMember base key : Eval σ Value) := by
  unfold deleteMember
  grind

@[grind .]
theorem tame_deleteName (name : String) : Tame W s (deleteName name : Eval σ Value) := by
  unfold deleteName
  grind

@[grind .]
theorem tame_superBase : Tame W s (superBase : Eval σ (Value × Value)) := by
  refine tame_gives (Q := fun _ env => W.sound = true → env.hasThis = true) (fun _ =>
    honest_ask fun m tidy _ sound =>
      ((tidy.intact sound).store.thisScope (tidy.intact sound).lexical.1).2) fun s env _ own => ?_
  have this : Tame W s (ofExcept env.getThis : Eval σ Value) :=
    tame_ofExcept ⟨env.getThis_unsuspended, fun sound =>
      ((Store.getThis_endsWell (own sound)).fine (W := W)).benign sound⟩
  grind

@[grind .]
theorem tame_instanceOf (value target : Value) :
    Tame W s (instanceOf value target : Eval σ Bool) := by
  refine tame_askFor fun m _ => ?_
  split
  · exact (instanceWithin_endsWell _ _ _ _).fine
  · exact fine_error trivial

@[grind .]
theorem tame_newError (prototype : ObjectId) (message : Option String) (skip : Nat) :
    Tame W s (newError prototype message skip : Eval σ ObjectId) := by
  unfold newError
  refine tame_allocate (Watch.admits_of_none rfl) fun error new => ?_
  grind

@[grind .]
theorem tame_faultValue (fault : Fault) : Tame W s (faultValue fault : Eval σ Value) := by
  unfold faultValue createError
  grind

/-! ## Functions and classes -/

theorem closure_intact {use : FunctionUse} {node : FunctionNode}
    {environment : EnvironmentId} (has : s.Has environment)
    (wellFormed : node.wellFormed = true) (constructor : use.derived = true → node.arrow = false)
    (strictCode : Bool) : (use.closure node environment strictCode).Intact s := by
  refine ⟨has, wellFormed, fun derived => ?_⟩
  simp only [FunctionUse.closure] at derived ⊢
  split at derived
  · rename_i h
    rw [constructor h]
    simp only [Bool.false_eq_true, if_false]
    split <;> nofun
  · cases derived

structure Makeable (W : Watch) (s : Store) (node : FunctionNode) (environment : EnvironmentId)
    (derived : Bool) : Prop where
  asks : W.Asks (node.tidy W.once) node.wellFormed
  has : W.sound = true → s.Has environment
  constructor : W.sound = true → derived = true → node.arrow = false

theorem Makeable.plain {node : FunctionNode} (asks : W.Asks (node.tidy W.once) node.wellFormed)
    {environment : EnvironmentId} (has : W.sound = true → s.Has environment) :
    Makeable W s node environment false := ⟨asks, has, nofun⟩

variable {node : FunctionNode} {environment scope : EnvironmentId} {use : FunctionUse}

theorem honest_createFunction {P : Promises σ} [P.Lawful]
    (makeable : Makeable W s node environment use.derived) :
    Honest W P .none (fun m => s.Grows m.store) (fun o _ => W.objects ≤ o.index)
      (createFunction node environment use) := by
  have look {γ : Type} (view : Machine σ → γ) :
      Honest W P .none (fun m => s.Grows m.store) (fun _ m => s.Grows m.store) (ask view) :=
    honest_ask fun _ _ known => known
  refine honest_bind (look _) fun strictCode => honest_bind (look _) fun realm => ?_
  refine honest_bind (honest_allocate fun m grows callable found => ?_) fun function => ?_
  · have intact (sound : W.sound = true) := closure_intact (grows.has (makeable.has sound))
      (makeable.asks.2 sound) (makeable.constructor sound) strictCode
    dsimp only [Object.callable?] at found
    cases found
    split <;> exact ⟨makeable.asks.1, intact⟩
  have equip (object : Object) (plain : object.callable? = none) :
      Honest W P .none (fun _ => W.objects ≤ function.index) (fun o _ => W.objects ≤ o.index) (do
        let prototype ← perform (.allocate object)
        perform (.define function "prototype" ⟨.object prototype, true, false, false⟩)
        pure function) := by
    intro m h new
    refine honest_bind (honest_allocate (H := fun _ => True) fun _ _ => Watch.admits_of_none plain)
      (fun prototype => ?_) m h trivial
    exact honest_bind (honest_perform (Q := fun _ _ => W.objects ≤ function.index)
      (fun _ _ _ => new) fun _ _ _ => new) fun _ => honest_pure fun _ new => new
  dsimp only
  split
  · exact equip _ rfl
  · split
    · exact equip _ rfl
    · exact honest_pure fun _ new => new

@[grind ←]
theorem tame_createFunction_bind (makeable : Makeable W s node environment use.derived)
    {f : ObjectId → Eval σ β} (h : ∀ o, W.objects ≤ o.index → Tame W s (f o)) :
    Tame W s (createFunction node environment use >>= f) :=
  tame_gives (Q := fun _ o => W.objects ≤ o.index)
    (fun _ => honest_createFunction makeable)
    fun _ o grows new => (h o new).later grows

theorem tame_createFunction (makeable : Makeable W s node environment use.derived) :
    Tame W s (createFunction node environment use : Eval σ ObjectId) := tame_of_honest fun _ =>
  (honest_createFunction makeable).mono (.refl _)
    (fun _ known => known) fun _ _ _ => trivial

@[grind ←]
theorem tame_functionExpression (asks : W.Asks (node.tidy W.once) node.wellFormed)
    (hint : Option String) : Tame W s (functionExpression node hint : Eval σ Value) :=
  .functionExpression (fun _ _ has _ => tame_createFunction (.plain asks has)) hint

@[grind .]
theorem tame_classParents (parent : Value) :
    Tame W s (classParents parent : Eval σ (Option ObjectId × ObjectId)) := by
  unfold classParents
  grind

theorem tame_defineMethods (has : W.sound = true → s.Has scope) {constructor prototype : ObjectId}
    (newClass : W.objects ≤ constructor.index) (new : W.objects ≤ prototype.index)
    {methods : List MethodNode}
    (asks : W.Asks (tidyMethods W.once methods) (wellFormedMethods methods)) :
    Tame W s (defineMethods scope constructor prototype methods : Eval σ Unit) := by
  induction methods with
  | nil => exact tame_pure ()
  | cons method rest ih =>
    obtain ⟨key, function, isStatic⟩ := method
    simp only [tidyMethods, wellFormedMethods, Watch.asks_and] at asks
    refine tame_createFunction_bind (.plain asks.1 has) fun made _ => ?_
    refine tame_bind (tame_define ?_ _ _) fun _ => ih asks.2
    dsimp only
    split <;> assumption

theorem tame_buildClass {node : ClassNode} (asks : W.Asks (node.tidy W.once) node.wellFormed)
    (hint : Option String) (has : W.sound = true → s.Has scope)
    (parents : Option ObjectId × ObjectId) :
    Tame W s (buildClass node hint scope parents : Eval σ ObjectId) := by
  obtain ⟨own, constructed⟩ := ClassNode.asks_constructor asks
  refine tame_allocate (Watch.admits_of_none rfl) fun prototype new => ?_
  refine tame_createFunction_bind ⟨own, has, fun sound _ => constructed sound⟩
    fun constructor newClass => ?_
  have methods := tame_defineMethods (σ := σ) has newClass new (ClassNode.asks_methods asks)
  grind

@[grind ←]
theorem tame_defineClass {node : ClassNode} (asks : W.Asks (node.tidy W.once) node.wellFormed)
    (hint : Option String) {parents : Eval σ (Option ObjectId × ObjectId)}
    (h : ∀ s', Tame W s' parents) : Tame W s (defineClass node hint parents) :=
  .defineClass h fun _ _ parents has => tame_buildClass asks hint has parents

@[grind ←]
theorem tame_literalMethod (object : ObjectId) (key : String)
    (asks : W.Asks (node.tidy W.once) node.wellFormed) :
    Tame W s (literalMethod object key node : Eval σ Value) :=
  tame_lexical fun _ _ _ has => tame_createFunction_bind (.plain asks has) fun _ _ => tame_pure _

@[grind ←]
theorem tame_defineData {object : ObjectId} (new : W.objects ≤ object.index) (key : String)
    (value : Value) : Tame W s (defineData object key value : Eval σ Unit) :=
  tame_define new key _

@[grind .]
theorem tame_binary (op : BinaryOp) (a b : Value) :
    Tame W s (binary op a b : Eval σ Value) := by
  unfold binary
  grind

@[grind .]
theorem tame_callNamed (callee this : Value) (arguments : List Value) (text : String)
    (span : Span) : Tame W s (callNamed callee this arguments text span : Eval σ Value) := by
  unfold callNamed
  grind

@[grind .]
theorem tame_constructNamed (callee : Value) (arguments : List Value) (text : String)
    (span : Span) :
    Tame W s (constructNamed callee arguments text span : Eval σ Value) := by
  unfold constructNamed
  grind

theorem honest_superConstructor {P : Promises σ} [P.Lawful] :
    Honest W P .none (fun _ => True)
      (fun found m => W.sound = true → m.store.OwnsThis found.1 found.2.2)
      (superConstructor : Eval σ (EnvironmentId × Value × Value)) := by
  refine honest_bind (Q := fun e m => W.sound = true → m.store.Has e ∧
    (m.store.environment e).hasThis = true) (honest_ask fun m tidy _ sound =>
      (tidy.intact sound).store.thisScope (tidy.intact sound).lexical.1) fun scope => ?_
  refine honest_bind (Q := fun record? m => ∀ r, record? = some r → W.sound = true →
    m.store.OwnsThis scope r.newTarget) (honest_ask fun m _ own r found sound =>
      Store.ownsThis_of_hasThis (own sound).1 found (own sound).2) fun record? => ?_
  split
  · exact honest_throw trivial
  · rename_i r
    refine honest_bind (honest_ask (Q := fun _ m => W.sound = true →
      m.store.OwnsThis scope r.newTarget) fun _ _ known => known r rfl) fun prototype => ?_
    refine honest_bind (honest_ask (Q := fun _ m => W.sound = true →
      m.store.OwnsThis scope r.newTarget) fun _ _ known => known) fun constructor => ?_
    split
    · exact honest_pure fun _ known => known
    · exact honest_throw trivial

theorem tame_construct_bindThis {newTarget : Value}
    (owns : W.sound = true → s.OwnsThis scope newTarget) (parent : Value) (arguments : List Value)
    (f : Value → Value) : Tame W s (do
      let this ← construct parent arguments (some newTarget)
      attempt (.bindThis scope this)
      pure (f this) : Eval σ Value) :=
  tame_gives (Q := fun _ v => W.sound = true → ∃ o, v = .object o)
    (fun calls => (honest_invoke calls _).under (fun _ _ => trivial))
    fun _ _ grows object => tame_bind (tame_bindThis fun sound =>
      ⟨newTarget, grows.ownsThis (owns sound), fun _ _ => object sound⟩) fun _ => tame_pure _

theorem tame_superCall {newTarget : Value} (owns : W.sound = true → s.OwnsThis scope newTarget)
    (parent : Value) (arguments : List Value) :
    Tame W s (superCall scope parent newTarget arguments : Eval σ Value) := by
  have rest := tame_construct_bindThis (σ := σ) owns parent arguments id
  unfold superCall
  dsimp only
  split
  · exact tame_bind (tame_throw trivial) fun _ => rest
  · exact rest

theorem tame_superCallExpression {arguments : Eval σ (List Value)} (h : ∀ s', Tame W s' arguments) :
    Tame W s (do
      let (scope, parent, newTarget) ← superConstructor
      let arguments ← arguments
      superCall scope parent newTarget arguments) :=
  tame_gives (Q := fun s found => W.sound = true → s.OwnsThis found.1 found.2.2)
    (fun _ => honest_superConstructor.under (fun _ _ => trivial))
    fun s' _ _ owns => tame_bind (h s') fun _ => tame_superCall owns _ _

end Eval

open Eval

theorem tame_expressions (W : Watch) :
    (∀ (hint : Option String) (e : Expr), W.Asks (e.tidy W.once) e.wellFormed →
      ∀ s, Tame W s (e.eval hint : Eval σ Value)) ∧
    (∀ es, W.Asks (tidyExprs W.once es) (wellFormedExprs es) →
      ∀ s, Tame W s (evalList es : Eval σ (List Value))) ∧
    (∀ last es, W.Asks (tidyExprs W.once es) (wellFormedExprs es) →
      ∀ s, Tame W s (evalSequence last es : Eval σ Value)) ∧
    (∀ key : Key, W.Asks (key.tidy W.once) key.wellFormed → ∀ s, Tame W s (key.eval : Eval σ String)) ∧
    (∀ parent, W.Asks (tidyExpr? W.once parent) (wellFormedExpr? parent) →
      ∀ s, Tame W s (evalParents parent : Eval σ (Option ObjectId × ObjectId))) ∧
    (∀ object properties, W.Asks (tidyProperties W.once properties) (wellFormedProperties properties) →
      W.objects ≤ object.index → ∀ s, Tame W s (evalProperties object properties : Eval σ Unit)) := by
  apply Expr.eval.mutual_induct
  case case32 =>
    intro _ _ arguments ih h s
    exact tame_superCallExpression (ih h)
  all_goals
    intros
    simp only [Expr.eval, Key.eval, evalList, evalSequence, evalProperties, evalParents]
    simp only [Expr.tidy, Key.tidy, Target.tidy, tidyExprs, tidyExpr?, tidyProperties, Expr.wellFormed,
      Key.wellFormed, Target.wellFormed, wellFormedExprs, wellFormedExpr?, wellFormedProperties,
      Watch.asks_and] at *
    grind [→ ClassNode.asks_parent, Object.callable?]

@[grind ←]
theorem Expr.tame {e : Expr} (asks : W.Asks (e.tidy W.once) e.wellFormed) (hint : Option String) :
    Tame W s (e.eval hint : Eval σ Value) := (tame_expressions W).1 hint e asks s

@[grind ←]
theorem Key.tame {key : Key} (asks : W.Asks (key.tidy W.once) key.wellFormed) :
    Tame W s (key.eval : Eval σ String) := (tame_expressions W).2.2.2.1 key asks s

theorem ClassNode.tame (asks : W.Asks (node.tidy W.once) node.wellFormed) (hint : Option String) :
    Tame W s (node.eval hint : Eval σ Value) :=
  tame_defineClass asks hint
    ((tame_expressions W).2.2.2.2.1 node.parent (ClassNode.asks_parent asks))

namespace Eval

theorem tame_yieldOperand {operand : Option Expr}
    (asks : W.Asks (tidyExpr? W.once operand) (wellFormedExpr? operand)) :
    Tame W s (yieldOperand operand : Eval σ Value) := by
  unfold yieldOperand
  grind [tidyExpr?, wellFormedExpr?]

theorem tame_assignTo {target : Target} (asks : W.Asks (target.tidy W.once) target.wellFormed)
    (v : Value) : Tame W s (assignTo target v : Eval σ Unit) := by
  cases target with
  | identifier name => exact tame_bind (tame_ask _) fun _ => tame_putReference _ _
  | member object key =>
    simp only [Target.tidy, Target.wellFormed, Watch.asks_and] at asks
    exact tame_bind (Expr.tame asks.1 none) fun _ => tame_bind (Key.tame asks.2) fun _ =>
      tame_setMember _ _ _

theorem tame_argumentFor (parameter : Parameter)
    (asks : W.Asks (tidyExpr? W.once parameter.fallback) (wellFormedExpr? parameter.fallback))
    (given : Value) : Tame W s (argumentFor parameter given : Eval σ Value) := by
  unfold argumentFor
  grind [tidyExpr?, wellFormedExpr?]

theorem tame_matchingCase (discriminant : Value) (index : Nat) {cases : List SwitchCase}
    (asks : W.Asks (tidyCases W.once cases) (wellFormedCases cases)) :
    Tame W s (matchingCase discriminant index cases : Eval σ (Option Nat)) := by
  induction cases generalizing index with
  | nil => exact tame_pure none
  | cons clause rest ih =>
    obtain ⟨test, body⟩ := clause
    simp only [tidyCases, wellFormedCases, Watch.asks_and] at asks
    cases test with
    | none => exact ih (index + 1) asks.2
    | some test =>
      unfold matchingCase
      grind [tidyExpr?, wellFormedExpr?]

theorem tame_selectCase (discriminant : Value) {cases : List SwitchCase}
    (asks : W.Asks (tidyCases W.once cases) (wellFormedCases cases)) :
    Tame W s (selectCase discriminant cases : Eval σ (Option Nat)) := by
  have matching := tame_matchingCase (σ := σ) (s := s) discriminant 0 asks
  unfold selectCase
  grind

theorem tame_holds (test : Option Expr)
    (asks : W.Asks (tidyExpr? W.once test) (wellFormedExpr? test)) :
    Tame W s (Loop.holds test : Eval σ Bool) := by
  unfold Loop.holds
  grind [tidyExpr?, wellFormedExpr?]

end Eval

end ScriptEngine
