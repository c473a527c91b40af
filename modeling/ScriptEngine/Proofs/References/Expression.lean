import ScriptEngine.Proofs.References.Discreet

/-!
# Expressions are discreet

An expression refers to nothing by itself, so what it evaluates to was found on the machine.
-/

namespace ScriptEngine

open Eval

variable {σ : Type} {w : Machine σ} {nested : Bool}

namespace Eval

variable {scope : EnvironmentId} {V : Link → Prop} {arguments : List Value} {v : Value}

@[grind ←]
theorem discreet_newError {prototype : ObjectId} (known : w.Knows prototype)
    (message : Option String) (skip : Nat) :
    Discreet nested w (newError prototype message skip : Eval σ ObjectId) := by
  refine discreet_bind (discreet_allocate
    (linked_objectRecord.2 ⟨known, ?_, linked_ordinary⟩) (by simp)) fun error m _ made => ?_
  · cases message with
    | none => exact Table.linked_empty
    | some text => exact Table.linked_insert Table.linked_empty linked_undefined
  · refine discreet_look fun m₁ ahead => ?_
    exact discreet_bind (discreet_define (ahead.knows made) linked_undefined) fun _ m₂ ahead₂ _ =>
      discreet_pure (ahead₂.knows (ahead.knows made))

@[grind .]
theorem discreet_createError (kind : ErrorClass) (message : String) :
    Discreet nested w (createError kind message : Eval σ Value) :=
  discreet_bind (discreet_ask fun _ ahead => ahead.closed.errorPrototype kind) fun _ _ _ known =>
    discreet_bind (discreet_newError known _ _) fun _ _ _ made =>
      discreet_pure (linked_object.2 (linked_objectId.1 made))

@[grind ←]
theorem discreet_faultValue {fault : Fault} (known : w.Knows fault) :
    Discreet nested w (faultValue fault : Eval σ Value) := by
  unfold faultValue
  split
  · exact discreet_pure known
  · exact discreet_createError _ _
  · exact discreet_createError _ _
  · exact discreet_createError _ _
  · exact discreet_createError _ _
  · exact discreet_look fun _ _ => discreet_createError _ _

@[grind ←]
theorem discreet_settle {location : Span} {result : Except Fault Completion}
    (known : w.Knows result) : Discreet nested w (settle location result : Eval σ Completion) := by
  unfold settle
  split
  · exact discreet_pure known
  · split
    · exact discreet_throw known
    · exact discreet_bind (discreet_faultValue known) fun _ _ _ known => discreet_pure known

/-! ## Members -/

@[grind ←]
theorem discreet_toObject (known : w.Knows v) :
    Discreet nested w (toObject v : Eval σ ObjectId) := by
  unfold toObject
  grind

@[grind ←]
theorem discreet_putReference {r : Reference} (known : w.Knows r) (known' : w.Knows v) :
    Discreet nested w (putReference r v : Eval σ Unit) := by
  unfold putReference
  grind

@[grind .]
theorem discreet_getMember (base : Value) (key : String) :
    Discreet nested w (getMember base key : Eval σ Value) := by
  unfold getMember
  grind

@[grind ←]
theorem discreet_setMember {base : Value} {key : String} (known : w.Knows base) (known' : w.Knows v) :
    Discreet nested w (setMember base key v : Eval σ Unit) := by
  unfold setMember
  grind

@[grind ←]
theorem discreet_deleteMember {base : Value} (known : w.Knows base) (key : String) :
    Discreet nested w (deleteMember base key : Eval σ Value) := by
  unfold deleteMember
  grind

@[grind .]
theorem discreet_deleteName (name : String) : Discreet nested w (deleteName name : Eval σ Value) := by
  unfold deleteName
  grind

@[grind .]
theorem discreet_superBase : Discreet nested w (superBase : Eval σ (Value × Value)) := by
  refine discreet_look fun m ahead => ?_
  split
  · exact discreet_throw (linked_syntaxError _ _)
  · refine discreet_bind (discreet_ofExcept ahead.closed.getThis) fun this m₁ _ known => ?_
    refine discreet_bind (discreet_ask fun _ ahead => ahead.closed.prototype _) fun _ _ ahead₁ _ => ?_
    exact discreet_pure (linked_prod.2 ⟨linked_ofObject?.2 ‹_›, ahead₁.knows known⟩)

@[grind .]
theorem discreet_instanceOf (value target : Value) :
    Discreet nested w (instanceOf value target : Eval σ Bool) := by
  refine discreet_askFor fun m _ => ?_
  split
  · rename_i o
    generalize m.heap.bound = n
    induction n generalizing o with
    | zero => exact List.forall_mem_nil _
    | succ n ih =>
      unfold instanceWithin
      repeat' split
      · exact List.forall_mem_nil _
      · exact ih _
      all_goals exact List.forall_mem_nil _
  · exact List.forall_mem_nil _

@[grind .]
theorem linked_add (h : Heap) (a b : Value) : Linked V (h.add a b) := by
  unfold Heap.add
  split <;> exact nofun

@[grind .]
theorem linked_compute (op : BinaryOp) (h : Heap) (a b : Value) : Linked V (op.compute h a b) := by
  cases op with
  | add => exact linked_add h a b
  | _ => exact nofun

@[grind ←]
theorem linked_combine {op : AssignOp} {h : Heap} {current operand : Value}
    (known : Linked V operand) : Linked V (op.combine h current operand) := by
  cases op with
  | plain => exact known
  | add => exact linked_add h current operand
  | _ => exact nofun

@[grind .]
theorem discreet_binary (op : BinaryOp) (a b : Value) :
    Discreet nested w (binary op a b : Eval σ Value) := by
  unfold binary
  split
  · grind
  · split
    · grind
    · exact discreet_look fun _ _ => discreet_typeError _
  · grind

@[grind ←]
theorem discreet_callNamed {callee this : Value} (known : w.Knows callee) (known' : w.Knows this)
    (known'' : w.Knows arguments) (text : String) (span : Span) :
    Discreet nested w (callNamed callee this arguments text span : Eval σ Value) := by
  unfold callNamed
  grind

@[grind ←]
theorem discreet_constructNamed {callee : Value} (known : w.Knows callee)
    (known' : w.Knows arguments) (text : String) (span : Span) :
    Discreet nested w (constructNamed callee arguments text span : Eval σ Value) := by
  unfold constructNamed
  grind

@[grind .]
theorem discreet_superConstructor :
    Discreet nested w (superConstructor : Eval σ (EnvironmentId × Value × Value)) := by
  refine discreet_bind (discreet_ask fun _ ahead => ahead.closed.thisScope) fun scope m _ known => ?_
  refine discreet_look fun m₁ ahead => ?_
  cases found : (m₁.store.environment scope).functionRecord? with
  | none => exact discreet_throw (linked_syntaxError _ _)
  | some record =>
    have good := linked_functionRecord.1 (ahead.closed.store.functionRecord? found)
    refine discreet_bind (discreet_ask fun _ ahead => ahead.closed.prototype _)
      fun prototype m₂ ahead₂ parent => ?_
    cases prototype <;> grind

@[grind ←]
theorem discreet_superCall {parent newTarget : Value} (known : w.Knows scope)
    (known' : w.Knows parent) (target : w.Knows newTarget) (given : w.Knows arguments) :
    Discreet nested w (superCall scope parent newTarget arguments : Eval σ Value) := by
  unfold superCall
  grind

theorem discreet_createFunction {node : FunctionNode} {environment : EnvironmentId}
    {use : FunctionUse} (known : w.Knows environment) (home : w.Knows use.homeObject)
    (prototype : w.Knows use.prototype) :
    Discreet nested w (createFunction node environment use : Eval σ ObjectId) := by
  refine discreet_look fun m₁ ahead₁ => discreet_look fun m₂ ahead₂ => ?_
  have ahead := ahead₁.trans ahead₂
  have closure : m₂.Knows (use.closure node environment m₁.strict) :=
    linked_closure.2 ⟨linked_environmentId.1 (ahead.knows known), ahead.knows home⟩
  have kind : m₂.Knows (ObjectKind.function (if node.generator
      then .generator (use.closure node environment m₁.strict)
      else .script (use.closure node environment m₁.strict))) := by
    split <;> exact closure
  refine discreet_bind (discreet_allocate (linked_objectRecord.2 ⟨?_, ?_, kind⟩) fun f => ?_)
    fun function m₃ ahead₃ made => ?_
  · exact linked_getD (ahead.knows prototype) ahead₂.closed.functionPrototype
  · exact Table.linked_insert (Table.linked_insert Table.linked_empty nofun) nofun
  · split <;> nofun
  · have linked {made' : Eval σ ObjectId} (h : Discreet nested m₃ made') : Discreet nested m₃ (do
        let prototype ← made'
        perform (.define function "prototype" ⟨.object prototype, true, false, false⟩)
        pure function) :=
      discreet_bind h fun o m₄ ahead₄ known => discreet_bind
        (discreet_define (ahead₄.knows made) (linked_object.2 (linked_objectId.1 known)))
        fun _ m₅ ahead₅ _ => discreet_pure (ahead₅.knows (ahead₄.knows made))
    have generators := ahead₃.knows ahead₂.closed.generatorPrototype
    have objects := ahead₃.knows ahead₂.closed.objectPrototype
    split
    · exact linked (by grind)
    · split
      · exact linked (by grind)
      · exact discreet_pure made

@[grind ←]
theorem discreet_plainFunction {node : FunctionNode} {environment : EnvironmentId}
    (known : w.Knows environment) :
    Discreet nested w (createFunction node environment : Eval σ ObjectId) :=
  discreet_createFunction known linked_none linked_none

@[grind .]
theorem discreet_functionExpression (node : FunctionNode) (hint : Option String) :
    Discreet nested w (functionExpression node hint : Eval σ Value) := by
  refine discreet_bind (discreet_ask fun _ ahead => ahead.closed.lexical) fun scope m _ known => ?_
  split
  · split
    · grind
    · grind
  · exact discreet_bind (discreet_createFunction known linked_none linked_none)
      fun _ _ _ made => discreet_pure (linked_object.2 (linked_objectId.1 made))

@[grind .]
theorem linked_defaultParents (m : Machine σ) (closed : m.Closed) :
    m.Knows (some m.realm.objectPrototype, m.realm.functionPrototype) :=
  linked_prod.2 ⟨closed.objectPrototype, closed.functionPrototype⟩

@[grind ←]
theorem discreet_classParents {parent : Value} (known : w.Knows parent) :
    Discreet nested w (classParents parent : Eval σ (Option ObjectId × ObjectId)) := by
  unfold classParents
  split
  · exact discreet_look fun m ahead => discreet_pure
      (linked_prod.2 ⟨linked_none, ahead.closed.functionPrototype⟩)
  · refine discreet_look fun m ahead => ?_
    have object := ahead.knows (linked_asObject? known)
    split
    · rename_i constructor found _
      rw [found] at object
      refine discreet_bind (discreet_getMember _ _) fun v m₁ ahead₁ read => ?_
      have object := ahead₁.knows object
      grind
    · exact discreet_look fun _ _ => discreet_typeError _

@[grind ←]
theorem discreet_defineMethods {constructor prototype : ObjectId} (known : w.Knows scope)
    (known' : w.Knows constructor) (known'' : w.Knows prototype) (methods : List MethodNode) :
    Discreet nested w (defineMethods scope constructor prototype methods : Eval σ Unit) := by
  induction methods generalizing w with
  | nil => exact discreet_pure (linked_unit ())
  | cons method rest ih =>
    have home : w.Knows (if method.isStatic then constructor else prototype) := by
      split
      · exact known'
      · exact known''
    refine discreet_bind (discreet_createFunction known home linked_none)
      fun function m ahead made => ?_
    refine discreet_bind (discreet_define (ahead.knows home) made) fun _ m₁ ahead₁ _ => ?_
    have ahead := ahead.trans ahead₁
    exact ih (ahead.knows known) (ahead.knows known') (ahead.knows known'')

@[grind ←]
theorem discreet_buildClass {node : ClassNode} {hint : Option String}
    {parents : Option ObjectId × ObjectId} (known : w.Knows scope) (known' : w.Knows parents) :
    Discreet nested w (buildClass node hint scope parents : Eval σ ObjectId) := by
  obtain ⟨first, second⟩ := parents
  obtain ⟨known₁, known₂⟩ := linked_prod.1 known'
  refine discreet_bind (discreet_allocate (linked_objectRecord.2
    ⟨known₁, Table.linked_empty, linked_ordinary⟩) nofun) fun prototype m ahead made => ?_
  refine discreet_bind (discreet_createFunction (ahead.knows known) made (ahead.knows known₂))
    fun constructor m₁ ahead₁ made₁ => ?_
  have made := ahead₁.knows made
  have known := ahead₁.knows (ahead.knows known)
  grind

@[grind ←]
theorem discreet_defineClass {node : ClassNode} {hint : Option String}
    {parents : Eval σ (Option ObjectId × ObjectId)}
    (h : ∀ m : Machine σ, w.Precedes m → Discreet nested m parents) :
    Discreet nested w (defineClass node hint parents) := by
  refine discreet_bind (discreet_ask fun _ ahead => ahead.closed.lexical)
    fun outer m ahead known => ?_
  refine discreet_block known fun scope m₁ ahead₁ made => ?_
  have body (m₂ : Machine σ) (ahead₂ : m₁.Precedes m₂) : Discreet nested m₂ (do
      let parents ← parents
      buildClass node hint scope parents : Eval σ ObjectId) :=
    discreet_bind (h m₂ ((ahead.trans ahead₁).trans ahead₂)) fun _ m₃ ahead₃ known =>
      discreet_buildClass (Machine.knows_of_inner (ahead₃.inner (ahead₂.inner made))) known
  grind

@[grind ←]
theorem discreet_literalMethod {object : ObjectId} (known : w.Knows object) (key : String)
    (node : FunctionNode) : Discreet nested w (literalMethod object key node : Eval σ Value) :=
  discreet_bind (discreet_ask fun _ ahead => ahead.closed.lexical) fun _ _ ahead known' =>
    discreet_bind (discreet_createFunction known' (ahead.knows (a := some object) known) linked_none)
      fun _ _ _ made => discreet_pure (linked_object.2 (linked_objectId.1 made))

@[grind ←]
theorem discreet_defineData {object : ObjectId} {key : String} (known : w.Knows object)
    (known' : w.Knows v) : Discreet nested w (defineData object key v : Eval σ Unit) :=
  discreet_define known known'

end Eval

theorem discreet_literalObject {properties : ObjectId → Eval σ Unit}
    (h : ∀ object (m : Machine σ), m.Knows object → Discreet nested m (properties object)) :
    Discreet nested w (do
      let prototype ← ask (·.realm.objectPrototype)
      let object ← perform (.allocate { prototype := some prototype })
      properties object
      pure (.object object) : Eval σ Value) := by
  refine discreet_bind (discreet_ask fun _ ahead => ahead.closed.objectPrototype)
    fun prototype m _ known => ?_
  refine discreet_bind (discreet_allocate (linked_objectRecord.2
    ⟨known, Table.linked_empty, linked_ordinary⟩) nofun) fun object m₁ _ made => ?_
  exact discreet_bind (h object m₁ made) fun _ m₂ ahead _ =>
    discreet_pure (linked_object.2 (ahead.has _ (linked_objectId.1 made)))

theorem discreet_callByName {arguments : Eval σ (List Value)}
    (h : ∀ m : Machine σ, Discreet nested m arguments) (name : String) (span : Span) :
    Discreet nested w (do
      let r ← ask (·.reference name)
      let callee ← askFor (·.getReference r)
      let receiver ← ask fun m => r.base.bind fun e => (m.store.environment e).withObject?
      let this := match receiver with
        | some o => Value.object o
        | none => .undefined
      let arguments ← arguments
      callNamed callee this arguments name span : Eval σ Value) := by
  refine discreet_bind (discreet_ask fun _ ahead => ahead.closed.reference name) fun r m _ _ => ?_
  refine discreet_bind (discreet_askFor fun _ ahead => ahead.closed.getReference r)
    fun callee m₁ _ known => ?_
  refine discreet_look fun m₂ ahead₂ => ?_
  have receiver : m₂.Knows (r.base.bind fun e => (m₂.store.environment e).withObject?) := by
    cases r.base with
    | none => exact linked_none
    | some e => exact ahead₂.closed.store.withObject? e
  refine discreet_bind (h m₂) fun given m₃ ahead₃ known' => ?_
  refine discreet_callNamed (ahead₃.knows (ahead₂.knows known)) ?_ known' name span
  split
  · rename_i o found
    rw [found] at receiver
    exact linked_object.2 (ahead₃.has _ (linked_objectId.1 (linked_some.1 receiver)))
  · exact linked_undefined

theorem discreet_expressions :
    (∀ (hint : Option String) (e : Expr) (w : Machine σ), Discreet nested w (e.eval hint)) ∧
    (∀ es (w : Machine σ), Discreet nested w (evalList es)) ∧
    (∀ last es (w : Machine σ), w.Knows last → Discreet nested w (evalSequence last es)) ∧
    (∀ (key : Key) (w : Machine σ), Discreet nested w key.eval) ∧
    (∀ parent (w : Machine σ), Discreet nested w (evalParents parent)) ∧
    (∀ object properties (w : Machine σ), w.Knows object →
      Discreet nested w (evalProperties object properties)) := by
  apply Expr.eval.mutual_induct
  all_goals
    intros
    simp only [Expr.eval, Key.eval, evalList, evalSequence, evalProperties, evalParents]
  case case4 ih w => exact discreet_literalObject ih
  case case29 name _ _ span ih w => exact discreet_callByName ih name span
  all_goals grind

@[grind .]
theorem Expr.discreet (e : Expr) (hint : Option String) : Discreet nested w (e.eval hint : Eval σ Value) :=
  discreet_expressions.1 hint e w

@[grind .]
theorem Key.discreet (key : Key) : Discreet nested w (key.eval : Eval σ String) :=
  discreet_expressions.2.2.2.1 key w

@[grind .]
theorem ClassNode.discreet (node : ClassNode) (hint : Option String) :
    Discreet nested w (node.eval hint : Eval σ Value) :=
  discreet_defineClass fun m _ => discreet_expressions.2.2.2.2.1 node.parent m

end ScriptEngine
