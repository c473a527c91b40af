import ScriptEngine.Proofs.References.Statement

/-!
# Calls are discreet

A call opens a scope inside that of the function, and its body runs there. So the body of a
generator never runs in the global scope.
-/

namespace ScriptEngine

open Eval

variable {σ α : Type} {w : Machine σ} {nested : Bool}

theorem Completion.linked_result {V : Link → Prop} {c : Completion} (known : Linked V c) :
    Linked V c.result := by
  unfold Completion.result
  split
  · exact linked_valueOrUndefined known
  · exact linked_valueOrUndefined known
  · exact nofun

@[grind .]
theorem FunctionNode.discreet (shortcuts : Bool) (node : FunctionNode) :
    Discreet nested w (node.run shortcuts) := by
  unfold FunctionNode.run
  split
  · exact discreet_evalStatements shortcuts _
  · rename_i e _
    have body : Discreet nested w (do
        let v ← e.eval none
        pure (Completion.returning v)) :=
      discreet_bind (e.discreet none) fun _ _ _ known => discreet_pure known
    exact discreet_bind (discreet_outcome body) fun _ _ _ known => discreet_settle known

namespace Eval

variable {scope : EnvironmentId} {arguments : List Value} {closure : Closure}

@[grind .]
theorem discreet_checkDepth : Discreet nested w (checkDepth : Eval σ Unit) := by
  refine discreet_askFor fun m _ => ?_
  split <;> exact nofun

theorem discreet_enter [Refers α] {function : ObjectId} {newTarget : Value}
    (known : w.Knows function) (known' : w.Knows closure) (target : w.Knows newTarget)
    {body : EnvironmentId → Eval σ α}
    (h : ∀ scope m, w.Precedes m → m.Has (.inner scope) → Discreet false m (body scope)) :
    Discreet nested w (enter function closure newTarget body) := by
  obtain ⟨environment, home⟩ := linked_closure.1 known'
  refine discreet_bind discreet_checkDepth fun _ m ahead _ => ?_
  have env : m.Knows ({ outer := some closure.environment
                        record := .function
                          { this := if closure.thisMode = .lexical then .lexical else .uninitialized
                            function, newTarget, homeObject := closure.homeObject } } :
      Environment) := by
    refine linked_environment.2 ⟨linked_environmentId.2 (ahead.has _ environment),
      linked_functionRecord.2 ⟨Table.linked_empty, ?_, linked_objectId.1 (ahead.knows known),
        ahead.knows target, ahead.knows home⟩⟩
    dsimp only
    split <;> exact nofun
  refine finds_bind (finds_enclose env rfl rfl) fun scope m₁ ahead₁ made => ?_
  refine discreet_look fun m₂ ahead₂ => ?_
  have made := ahead₂.inner made
  exact discreet_inFrame (linked_unlinkedFrame.2 ⟨made.1, made.1⟩)
    (h scope m₂ ((ahead.trans ahead₁).trans ahead₂) made)

theorem discreet_enterNative [Refers α] {native : Native} {body : Eval σ α}
    (h : ∀ m, w.Precedes m → Discreet false m body) :
    Discreet nested w (enterNative native body) := by
  refine discreet_bind discreet_checkDepth fun _ m ahead _ => discreet_look fun m₁ ahead₁ => ?_
  exact discreet_inFrame (linked_unlinkedFrame.2
    ⟨linked_environmentId.1 ahead₁.closed.lexical, linked_environmentId.1 ahead₁.closed.varScope⟩)
    (h m₁ (ahead.trans ahead₁))

@[grind ←]
theorem discreet_bindThisOf {this : Value} (known : w.Knows scope) (known' : w.Knows this) :
    Discreet nested w (bindThis closure scope this : Eval σ Unit) := by
  unfold bindThis
  grind

/-! ## Declarations -/

@[grind ←]
theorem discreet_createMissing (known : w.Knows scope) (names : List String) :
    Discreet nested w (createMissing scope names : Eval σ Unit) := by
  induction names generalizing w with
  | nil => exact discreet_pure (linked_unit ())
  | cons name rest ih =>
    unfold createMissing
    grind

@[grind ←]
theorem discreet_argumentFor {given : Value} (known : w.Knows given) (parameter : Parameter) :
    Discreet nested w (argumentFor parameter given : Eval σ Value) := by
  unfold argumentFor
  grind

section

variable (known : w.Knows scope)

include known

@[grind ←]
theorem discreet_bindParameters (known' : w.Knows arguments) (seen : List String)
    (parameters : List Parameter) :
    Discreet nested w (bindParameters scope seen parameters arguments : Eval σ Unit) := by
  induction parameters generalizing w seen arguments with
  | nil => exact discreet_pure (linked_unit ())
  | cons parameter rest ih =>
    refine discreet_bind (discreet_argumentFor (linked_headD known') parameter)
      fun v m ahead value => ?_
    have next {m₁ : Machine σ} (ahead₁ : m.Precedes m₁) : Discreet nested m₁
        (bindParameters scope (parameter.name :: seen) rest arguments.tail) :=
      have ahead := ahead.trans ahead₁
      ih (ahead.knows known) (linked_tail (ahead.knows known')) _
    have known := ahead.knows known
    dsimp only
    split
    · exact discreet_bind (discreet_assign known value) fun _ _ ahead _ => next ahead
    · exact discreet_bind (discreet_initBinding known value) fun _ _ ahead _ => next ahead

@[grind ←]
theorem discreet_declareVariables (names : List String) :
    Discreet nested w (declareVariables scope names : Eval σ Unit) := by
  induction names generalizing w with
  | nil => exact discreet_pure (linked_unit ())
  | cons name rest ih =>
    unfold declareVariables
    grind

@[grind ←]
theorem discreet_copyVariables {parameters : EnvironmentId} (parameterNames names : List String) :
    Discreet nested w (copyVariables parameters scope parameterNames names : Eval σ Unit) := by
  induction names generalizing w with
  | nil => exact discreet_pure (linked_unit ())
  | cons name rest ih =>
    unfold copyVariables
    grind

@[grind ←]
theorem discreet_declareFunctions (functions : List FunctionNode) :
    Discreet nested w (declareFunctions scope functions : Eval σ Unit) := by
  induction functions generalizing w with
  | nil => exact discreet_pure (linked_unit ())
  | cons f rest ih =>
    unfold declareFunctions
    grind

end

theorem finds_openVariables (known : w.Has (.inner scope)) (node : FunctionNode) :
    Finds nested w (fun m e => m.Has (.inner e)) (openVariables node scope : Eval σ EnvironmentId) := by
  have scope' := Machine.knows_of_inner known
  unfold openVariables
  split
  · refine finds_bind (finds_enclose (linked_environment.2 ⟨scope', nofun⟩) rfl rfl)
      fun own m _ made => ?_
    exact finds_bind (discreet_copyVariables (Machine.knows_of_inner made) _ _) fun _ _ ahead _ =>
      finds_pure fun _ ahead' => (ahead.trans ahead').inner made
  · exact finds_bind (discreet_declareVariables scope' _) fun _ _ ahead _ =>
      finds_pure fun _ ahead' => (ahead.trans ahead').inner known

theorem finds_instantiate (known : w.Has (.inner scope)) (given : w.Knows arguments)
    (node : FunctionNode) :
    Finds nested w (fun m e => m.Has (.inner e))
      (instantiate node scope arguments : Eval σ EnvironmentId) := by
  have scope' := Machine.knows_of_inner known
  refine finds_bind (discreet_createMissing scope' _) fun _ m ahead _ => ?_
  refine finds_bind (discreet_bindParameters (ahead.knows scope') (ahead.knows given) [] _)
    fun _ m₁ ahead₁ _ => ?_
  refine finds_bind (finds_openVariables ((ahead.trans ahead₁).inner known) node)
    fun own m₂ _ made => ?_
  have own' := Machine.knows_of_inner made
  refine finds_bind (discreet_createLexicals own' _) fun _ m₃ ahead₃ _ => ?_
  refine finds_bind (discreet_declareFunctions (ahead₃.knows own') _) fun _ m₄ ahead₄ _ => ?_
  exact finds_pure fun _ ahead => ((ahead₃.trans ahead₄).trans ahead).inner made

@[grind ←]
theorem discreet_runFunction (known : w.Has (.inner scope)) (given : w.Knows arguments)
    (shortcuts : Bool) (node : FunctionNode) :
    Discreet nested w (runFunction shortcuts node scope arguments : Eval σ Value) := by
  refine finds_bind (finds_instantiate known given node) fun own m _ made => ?_
  exact discreet_bind (discreet_withinBody made (node.discreet shortcuts)) fun _ _ _ known =>
    discreet_ofExcept (Completion.linked_result known)

section

variable {function : ObjectId} (known : w.Knows function) (known' : w.Knows closure)
  (given : w.Knows arguments) (shortcuts : Bool)

include known known' given

theorem discreet_callClosure {this : Value} (this' : w.Knows this) :
    Discreet nested w (callClosure shortcuts function closure this arguments : Eval σ Value) :=
  discreet_enter known known' linked_undefined fun _ _ ahead made =>
    discreet_bind (discreet_bindThisOf (Machine.knows_of_inner made) (ahead.knows this'))
      fun _ _ ahead₁ _ => discreet_runFunction (ahead₁.inner made)
        ((ahead.trans ahead₁).knows given) shortcuts closure.node

omit known known' given in
@[grind ←]
theorem discreet_instancePrototype {constructor fallback : ObjectId} (known : w.Knows fallback) :
    Discreet nested w (instancePrototype constructor fallback : Eval σ ObjectId) := by
  refine discreet_ask fun m ahead => ?_
  have found := ahead.closed.getProperty? constructor "prototype"
  split
  · rename_i prototype read
    rw [read] at found
    exact linked_objectId.2 (linked_object.1 (linked_some.1 found))
  · exact ahead.knows known

variable {newTarget : ObjectId} (target : w.Knows newTarget)

include target

theorem discreet_constructBase :
    Discreet nested w
      (constructBase shortcuts function closure arguments newTarget : Eval σ Value) := by
  refine discreet_bind (discreet_ask fun _ ahead => ahead.closed.objectPrototype)
    fun fallback m ahead fallback' => ?_
  refine discreet_bind (discreet_instancePrototype fallback') fun prototype m₁ ahead₁ prototype' => ?_
  refine discreet_bind (discreet_allocate (linked_objectRecord.2
    ⟨prototype', Table.linked_empty, linked_ordinary⟩) nofun) fun this m₂ ahead₂ this' => ?_
  have ahead := (ahead.trans ahead₁).trans ahead₂
  refine discreet_enter (ahead.knows known) (ahead.knows known')
    (linked_object.2 (linked_objectId.1 (ahead.knows target))) fun scope m₃ ahead₃ made => ?_
  have this' : m₃.Knows (Value.object this) :=
    linked_object.2 (linked_objectId.1 (ahead₃.knows this'))
  refine discreet_bind (discreet_bindThisOf (Machine.knows_of_inner made) this')
    fun _ m₄ ahead₄ _ => ?_
  refine discreet_bind (discreet_runFunction (ahead₄.inner made)
    (((ahead.trans ahead₃).trans ahead₄).knows given) shortcuts closure.node)
    fun result m₅ ahead₅ result' => ?_
  have this' := ahead₅.knows (ahead₄.knows this')
  split
  · exact discreet_pure result'
  · exact discreet_pure this'

omit known known' in
theorem discreet_constructParent {scope : EnvironmentId} (scope' : w.Knows scope) :
    Discreet nested w (constructParent function scope arguments newTarget : Eval σ Value) := by
  have newTarget' : w.Knows (Value.object newTarget) := linked_object.2 (linked_objectId.1 target)
  refine discreet_bind (discreet_ask fun m ahead => ?_) fun parent m ahead parent' => ?_
  · have found := ahead.closed.prototype function
    split
    · rename_i parent read
      rw [read] at found
      exact linked_object.2 (linked_objectId.1 (linked_some.1 found))
    · exact linked_undefined
  · grind

theorem discreet_constructDerived :
    Discreet nested w
      (constructDerived shortcuts function closure arguments newTarget : Eval σ Value) := by
  refine discreet_enter known known' (linked_object.2 (linked_objectId.1 target))
    fun scope m ahead made => ?_
  have rest (result : Value) (m₁ : Machine σ) (known : m₁.Knows result) :
      Discreet false m₁ (derivedResult scope result) := by
    unfold derivedResult
    split
    · exact discreet_pure known
    · refine discreet_bind (discreet_askFor fun _ ahead => ahead.closed.store.getThis scope)
        fun this m₂ _ this' => ?_
      split
      · exact discreet_pure this'
      · exact discreet_throw nofun
    · exact discreet_typeError _
  cases closure.isDefault with
  | true =>
    exact discreet_bind (discreet_constructParent (ahead.knows given) (ahead.knows target)
      (Machine.knows_of_inner made)) fun result m₁ _ known => rest result m₁ known
  | false =>
    exact discreet_bind (discreet_runFunction made (ahead.knows given) shortcuts closure.node)
      fun result m₁ _ known => rest result m₁ known

theorem discreet_constructClosure :
    Discreet nested w
      (constructClosure shortcuts function closure arguments newTarget : Eval σ Value) := by
  unfold constructClosure
  split
  · exact discreet_constructBase known known' given shortcuts target
  · exact discreet_constructDerived known known' given shortcuts target

end

@[grind ←]
theorem discreet_iterationResult {v : Value} (known : w.Knows v) (done : Bool) :
    Discreet nested w (iterationResult v done : Eval σ Value) := by
  refine discreet_bind (discreet_ask fun _ ahead => ahead.closed.objectPrototype)
    fun prototype m ahead prototype' => ?_
  have properties : m.Knows (Table.empty.insert "value" (Property.data v)
      |>.insert "done" (.data (.boolean done))) :=
    Table.linked_insert (Table.linked_insert Table.linked_empty (ahead.knows known)) nofun
  refine discreet_bind (discreet_allocate (linked_objectRecord.2
    ⟨prototype', properties, linked_ordinary⟩) nofun) fun o _ _ made => ?_
  exact discreet_pure (linked_object.2 (linked_objectId.1 made))

theorem discreet_startGenerator {function : ObjectId} {this : Value} (known : w.Knows function)
    (known' : w.Knows closure) (this' : w.Knows this) (given : w.Knows arguments) :
    Discreet nested w (startGenerator function closure this arguments : Eval σ Value) := by
  refine discreet_enter known known' linked_undefined fun scope m ahead made => ?_
  refine discreet_bind (discreet_bindThisOf (Machine.knows_of_inner made) (ahead.knows this'))
    fun _ m₁ ahead₁ _ => ?_
  refine finds_bind (finds_instantiate (ahead₁.inner made) ((ahead.trans ahead₁).knows given)
    closure.node) fun own m₂ ahead₂ own' => ?_
  have ahead := (ahead.trans ahead₁).trans ahead₂
  refine discreet_bind (discreet_ask fun _ ahead => ahead.closed.generatorPrototype)
    fun fallback m₃ ahead₃ fallback' => ?_
  refine discreet_bind (discreet_instancePrototype fallback') fun prototype m₄ ahead₄ prototype' => ?_
  refine discreet_look fun m₅ ahead₅ => ?_
  have later := (ahead₃.trans ahead₄).trans ahead₅
  have own' := later.inner own'
  have frame : m₅.Has (.inner (closure.frame own m₅.options.debugNames).lexical) := own'
  refine discreet_bind (discreet_createGenerator ((ahead.trans later).knows known)
    ((ahead.trans later).knows known') frame (Machine.knows_of_inner own')) fun g m₆ ahead₆ g' => ?_
  refine discreet_bind (discreet_allocate (linked_objectRecord.2
    ⟨(ahead₅.trans ahead₆).knows prototype', Table.linked_empty,
      linked_generatorKind.2 (linked_generatorId.1 g')⟩) nofun) fun o _ _ made => ?_
  exact discreet_pure (linked_object.2 (linked_objectId.1 made))

theorem discreet_finishRun {g : GeneratorId} {frame : Frame} (known : w.Knows g)
    (known' : w.Knows frame) {result : Except Fault Completion} (ended : w.Knows result) :
    Discreet nested w (finishRun g frame result : Eval σ Value) := by
  unfold finishRun
  split
  · exact discreet_bind (discreet_suspend known known') fun _ _ ahead _ =>
      discreet_iterationResult (ahead.knows (linked_suspended.1 (linked_error.1 ended))) false
  · refine discreet_bind (discreet_complete known) fun _ m ahead _ => ?_
    refine discreet_bind (discreet_ofExcept (ahead.knows ended)) fun completion m₁ _ completion' => ?_
    exact discreet_bind (discreet_ofExcept (Completion.linked_result completion'))
      fun _ _ _ known => discreet_iterationResult known true

theorem discreet_runGenerator {g : GeneratorId} {resumption : Option Resumption}
    (known : w.Knows g) (known' : w.Knows resumption) (shortcuts : Bool) :
    Discreet nested w (runGenerator shortcuts g resumption : Eval σ Value) := by
  refine discreet_bind (discreet_startRun known known') fun started m ahead started' => ?_
  obtain ⟨frame, closure⟩ := started
  obtain ⟨frame', -⟩ := linked_prod.1 started'
  refine discreet_bind (discreet_outcome (discreet_inFrame frame' (closure.node.discreet shortcuts)))
    fun result m₁ ahead₁ result' => ?_
  exact discreet_finishRun ((ahead.trans ahead₁).knows known) (ahead₁.knows frame') result'

theorem discreet_driveDone {resumption : Resumption} (known : w.Knows resumption) :
    Discreet nested w (driveDone resumption : Eval σ Value) := by
  cases resumption with
  | next v => exact discreet_iterationResult linked_undefined true
  | «return» v => exact discreet_iterationResult known true
  | throw v => exact discreet_throw known

theorem discreet_drive {resumption : Resumption} (known : w.Knows resumption) (shortcuts : Bool)
    (receiver : Value) (brand : Option String) :
    Discreet nested w (drive shortcuts receiver resumption brand : Eval σ Value) := by
  have drivable : Finds nested w (fun m found => m.Knows found.1)
      (askFor fun m => m.drivable receiver brand) := by
    intro m _ m' ahead' _
    refine ⟨ahead', ?_⟩
    have closed := ahead'.closed
    change Found _ (m'.drivable receiver brand) m'
    unfold Machine.drivable
    split
    · exact nofun
    · rename_i g found
      obtain ⟨o, -, kind⟩ := Option.bind_eq_some_iff.1 found
      have known : m'.Has (.generator g) := closed.store.heap.generator? kind
      repeat' split
      · exact nofun
      · exact nofun
      · exact nofun
      · exact linked_generatorId.2 known
  refine finds_bind drivable fun found m ahead g' => ?_
  obtain ⟨g, generator⟩ := found
  have known := ahead.knows known
  dsimp only
  split
  · exact discreet_driveDone known
  · exact discreet_runGenerator g' linked_none shortcuts
  · exact discreet_bind (discreet_complete g') fun _ _ ahead _ =>
      discreet_driveDone (ahead.knows known)
  · exact discreet_runGenerator g' (linked_some.2 known) shortcuts

@[grind .]
theorem discreet_newObject : Discreet nested w (newObject : Eval σ ObjectId) := by
  unfold newObject
  grind

@[grind ←]
theorem discreet_objectOf {v : Value} (known : w.Knows v) :
    Discreet nested w (objectOf v : Eval σ Value) := by
  unfold objectOf
  grind

@[grind .]
theorem discreet_spreadList (list : Value) :
    Discreet nested w (spreadList list : Eval σ (List Value)) := by
  unfold spreadList
  split
  · exact discreet_pure linked_nil
  · exact discreet_pure linked_nil
  · refine discreet_ask fun m ahead => linked_list_iff.2 fun v listed => ?_
    obtain ⟨index, -, rfl⟩ := List.mem_map.1 listed
    exact ahead.closed.getProperty _ _
  · exact discreet_typeError _

theorem discreet_bindFunction {target thisArgument : Value} (known : w.Knows target)
    (this : w.Knows thisArgument) (given : w.Knows arguments) :
    Discreet nested w (bindFunction target thisArgument arguments : Eval σ Value) := by
  unfold bindFunction
  split
  · rename_i o
    refine finds_look fun m ahead _ => ?_
    cases callable : m.heap.isCallable (.object o) with
    | false => exact discreet_typeError _
    | true =>
      refine discreet_bind (discreet_perform (fun m₁ ahead₁ => ⟨?_, ?_⟩) fun m₁ ahead₁ _ => ?_)
        fun bound _ _ made => discreet_pure (linked_object.2 (linked_objectId.1 made))
      · refine ahead₁.knows (linked_objectRecord.2 ⟨ahead.closed.prototype o, ?_,
          linked_bound.2 ⟨linked_object.1 (ahead.knows known), ahead.knows this,
            ahead.knows given⟩⟩)
        exact Table.linked_insert (Table.linked_insert Table.linked_empty nofun) nofun
      · rintro f ⟨⟩
        exact ahead₁.heap.isCallable callable
      · simp [Machine.Has, Effect.apply, Machine.onHeap, Machine.onStore, Machine.heap, Heap.allocate]
  · exact discreet_typeError _

@[grind ←]
theorem discreet_constructError {prototype : ObjectId} (known : w.Knows prototype)
    (message : Value) : Discreet nested w (constructError prototype message : Eval σ Value) := by
  refine discreet_look fun m ahead => ?_
  exact discreet_bind (discreet_newError (ahead.knows known) _ _) fun _ _ _ made =>
    discreet_pure (linked_object.2 (linked_objectId.1 made))

end Eval

theorem Builtin.discreet_call (shortcuts : Bool) (builtin : Builtin) {this : Value}
    {arguments : List Value} (known : w.Knows this) (given : w.Knows arguments) :
    Discreet nested w (builtin.call shortcuts this arguments) := by
  have first := linked_headD given
  have rest := linked_tail given
  cases builtin with
  | functionBind => exact discreet_bindFunction known first rest
  | generatorNext => exact discreet_drive (linked_next.2 first) shortcuts this none
  | generatorReturn => exact discreet_drive (linked_return.2 first) shortcuts this none
  | generatorThrow => exact discreet_drive (linked_throw.2 first) shortcuts this none
  | functionCall => exact Eval.discreet_call known first rest
  | functionApply =>
    exact discreet_bind (discreet_spreadList _) fun _ _ ahead given =>
      Eval.discreet_call (ahead.knows known) (ahead.knows first) given
  | object => exact discreet_objectOf first
  | hasOwnProperty =>
    exact discreet_look fun _ ahead => discreet_bind (discreet_toObject (ahead.knows known))
      fun _ _ _ _ => discreet_look fun _ _ => discreet_pure nofun
  | isPrototypeOf =>
    simp only [Builtin.call]
    split
    · exact discreet_look fun _ _ => discreet_pure nofun
    · exact discreet_pure nofun
  | getPrototypeOf =>
    exact discreet_bind (discreet_toObject first) fun o _ _ _ =>
      discreet_ask fun _ ahead => linked_ofObject?.2 (ahead.closed.prototype o)
  | error kind =>
    exact discreet_bind (discreet_ask fun _ ahead => ahead.closed.errorPrototype kind)
      fun _ _ _ known => discreet_constructError known _
  | errorToString =>
    simp only [Builtin.call]
    split
    · exact discreet_ask fun _ _ => nofun
    · exact discreet_typeError _

theorem Builtin.discreet_construct {builtin : Builtin} {arguments : List Value}
    {newTarget : ObjectId} {x : Eval σ Value} (h : builtin.construct? arguments newTarget = some x)
    (given : w.Knows arguments) : Discreet nested w x := by
  have first := linked_headD given
  cases builtin with
  | object =>
    cases h
    refine discreet_look fun m ahead => ?_
    split
    · exact discreet_objectOf (ahead.knows first)
    · refine discreet_bind (discreet_ask fun _ ahead => ahead.closed.objectPrototype)
        fun _ _ _ known => ?_
      refine discreet_bind (discreet_instancePrototype known) fun _ _ _ known => ?_
      refine discreet_bind (discreet_allocate (linked_objectRecord.2
        ⟨known, Table.linked_empty, linked_ordinary⟩) nofun) fun _ _ _ made => ?_
      exact discreet_pure (linked_object.2 (linked_objectId.1 made))
  | error kind =>
    cases h
    exact discreet_bind (discreet_ask fun _ ahead => ahead.closed.errorPrototype kind)
      fun _ _ _ known => discreet_bind (discreet_instancePrototype known) fun _ _ _ known =>
        discreet_constructError known _
  | _ => cases h

namespace Eval

variable {scope : EnvironmentId}

theorem discreet_refuseDeclared (conflicts : Machine σ → String → Bool) (names : List String) :
    Discreet nested w (refuseDeclared conflicts names) := by
  induction names generalizing w with
  | nil => exact discreet_pure (linked_unit ())
  | cons name rest ih =>
    refine discreet_look fun m _ => ?_
    split
    · exact discreet_throw (linked_syntaxError _ _)
    · exact ih

theorem discreet_declareGlobalFunctions (known : w.Knows scope) (functions : List FunctionNode) :
    Discreet nested w (declareGlobalFunctions scope functions : Eval σ Unit) := by
  induction functions generalizing w with
  | nil => exact discreet_pure (linked_unit ())
  | cons f rest ih =>
    unfold declareGlobalFunctions
    grind

theorem discreet_declareGlobalVars (known : w.Knows scope) (names : List String) :
    Discreet nested w (declareGlobalVars scope names : Eval σ Unit) := by
  induction names generalizing w with
  | nil => exact discreet_pure (linked_unit ())
  | cons name rest ih =>
    exact discreet_bind (discreet_declareVar known) fun _ _ ahead _ => ih (ahead.knows known)

theorem discreet_declareGlobals (known : w.Knows scope) (declared : BodyScope) :
    Discreet nested w (declareGlobals scope declared : Eval σ Unit) := by
  refine discreet_bind (discreet_refuseDeclared _ _) fun _ m ahead _ => ?_
  refine discreet_bind (discreet_refuseDeclared _ _) fun _ m₁ ahead₁ _ => ?_
  have known := ahead₁.knows (ahead.knows known)
  refine discreet_bind (discreet_declareGlobalFunctions known _) fun _ m₂ ahead₂ _ => ?_
  refine discreet_bind (discreet_declareGlobalVars (ahead₂.knows known) _) fun _ m₃ ahead₃ _ => ?_
  exact discreet_createLexicals ((ahead₂.trans ahead₃).knows known) _

end Eval

namespace Program

theorem discreet_runBody {scope : EnvironmentId} (known : w.Knows scope) (shortcuts : Bool)
    (program : Program) :
    Discreet nested w (program.runBody shortcuts scope) := by
  have body : Discreet nested w (do
      declareGlobals scope program.scope
      evalStatements shortcuts program.body) :=
    discreet_bind (discreet_declareGlobals known _) fun _ _ _ _ => discreet_evalStatements shortcuts _
  refine discreet_bind (discreet_outcome body) fun result m _ ended => ?_
  split
  · exact discreet_pure ended
  · split
    · exact discreet_throw ended
    · exact discreet_bind (discreet_faultValue ended) fun _ _ _ known => discreet_pure known

theorem discreet_run (shortcuts : Bool) (program : Program) :
    Discreet nested w (program.run shortcuts) := by
  have reset : Discreet nested w (perform .resetLimits) :=
    discreet_perform (fun _ _ => ⟨nofun, trivial⟩) fun _ _ _ => linked_unit ()
  refine discreet_bind reset fun _ m _ _ => discreet_look fun m₁ ahead₁ => ?_
  have global := ahead₁.closed.globalEnvironment
  refine discreet_look fun m₂ ahead₂ => ?_
  have global := ahead₂.knows global
  have has := linked_environmentId.1 global
  exact discreet_inFrame (linked_unlinkedFrame.2 ⟨has, has⟩)
    (discreet_runBody global shortcuts program)

theorem discreet_eval (shortcuts : Bool) (program : Program) :
    Discreet nested w (program.eval shortcuts) := by
  refine discreet_bind (program.discreet_run shortcuts) fun completion m _ known => ?_
  have value := linked_valueOrUndefined known
  split
  · exact discreet_throw value
  · exact discreet_pure value

end Program

/-! ## Requests -/

def Engine.Discreet (engine : Engine σ) : Prop :=
  ∀ f ∈ engine.host, ∀ (w : Machine σ) this arguments, w.Knows this → w.Knows arguments →
    Eval.Discreet false w (f.run this arguments)

section

variable {engine : Engine σ} (host : engine.Discreet) {arguments : List Value}

include host

theorem Native.discreet_call (native : Native) {this : Value} (known : w.Knows this)
    (given : w.Knows arguments) : Discreet nested w (native.call engine this arguments) := by
  refine discreet_enterNative fun m ahead => ?_
  have known := ahead.knows known
  have given := ahead.knows given
  split
  · exact Builtin.discreet_call _ _ known given
  · split
    · exact host _ (List.mem_of_getElem? ‹_›) m _ _ known given
    · exact discreet_throw nofun

theorem discreet_callObject {o : ObjectId} {this : Value} (known : w.Knows o) (this' : w.Knows this)
    (given : w.Knows arguments) : Discreet nested w (callObject engine o this arguments) := by
  refine discreet_look fun m ahead => ?_
  have known := ahead.knows known
  have this' := ahead.knows this'
  have given := ahead.knows given
  cases found : (m.heap.get o).callable? with
  | none => exact discreet_typeError _
  | some callable =>
    have good := ahead.closed.store.heap.callable? found
    cases callable with
    | script closure =>
      dsimp only
      split
      · exact discreet_typeError _
      · exact discreet_callClosure known good given _ this'
    | generator closure => exact discreet_startGenerator known good this' given
    | native f => exact Native.discreet_call host f this' given
    | bound f =>
      obtain ⟨target, this, prefixed⟩ := linked_bound.1 good
      exact discreet_call (linked_object.2 target) this (linked_append.2 ⟨prefixed, given⟩)

omit host in
theorem discreet_constructObject {o newTarget : ObjectId} (known : w.Knows o)
    (given : w.Knows arguments) (target : w.Knows newTarget) :
    Discreet nested w (constructObject engine o arguments newTarget) := by
  have refused (m : Machine σ) : Discreet nested m (do
      let text ← ask fun m => m.heap.toText (.object o)
      typeError (.notConstructor text) : Eval σ Value) :=
    discreet_look fun _ _ => discreet_typeError _
  refine discreet_look fun m ahead => ?_
  have known := ahead.knows known
  have given := ahead.knows given
  have target := ahead.knows target
  cases found : (m.heap.get o).callable? with
  | none => exact refused m
  | some callable =>
    have good := ahead.closed.store.heap.callable? found
    cases callable with
    | script closure =>
      dsimp only
      split
      · exact discreet_constructClosure known good given _ target
      · exact refused m
    | generator closure => exact refused m
    | native f =>
      dsimp only
      split
      · split
        · exact discreet_enterNative fun m ahead =>
            Builtin.discreet_construct ‹_› (ahead.knows given)
        · exact refused m
      · exact refused m
    | bound f =>
      obtain ⟨target', -, prefixed⟩ := linked_bound.1 good
      refine discreet_construct (linked_object.2 target') (linked_append.2 ⟨prefixed, given⟩) ?_
      split
      · exact linked_object.2 target'
      · exact linked_object.2 (linked_objectId.1 target)

theorem Invocation.discreet {invocation : Invocation} (known : w.Knows invocation) :
    Discreet nested w (invocation.eval engine) := by
  cases invocation with
  | call callee this arguments =>
    obtain ⟨callee', this', given⟩ := linked_call.1 known
    cases callee with
    | object o =>
      exact discreet_callObject host (linked_objectId.2 (linked_object.1 callee')) this' given
    | _ => exact discreet_look fun _ _ => discreet_typeError _
  | construct callee arguments newTarget =>
    obtain ⟨callee', given, target⟩ := linked_construct.1 known
    cases callee with
    | object o =>
      have callee' : w.Knows o := linked_objectId.2 (linked_object.1 callee')
      refine discreet_constructObject callee' given (linked_getD ?_ callee')
      cases newTarget with
      | none => exact linked_none
      | some v => exact linked_asObject? target
    | _ => exact discreet_look fun _ _ => discreet_typeError _

theorem promises_discreet (fuel : Nat) : (engine.promises Moment.Closed fuel).Discreet := by
  induction fuel with
  | zero => exact ⟨fun _ _ => trivial, fun _ _ _ _ => trivial⟩
  | succ fuel ih =>
    have faithful := engine.promises_faithful (J := Moment.Closed) fuel
    have steady := (stack_kept (σ := σ)).answers engine fuel
    constructor
    · intro invocation m closed known
      obtain ⟨nested, runs⟩ := closed.runs
      exact Discreet.safe faithful steady ih (Invocation.discreet host known) closed runs
    · intro nested l m closed runs known inner
      refine ⟨⟨closed, known⟩, ?_⟩
      have round := Action.Discreet.safe faithful steady ih
        (Loop.finds_round engine.shortcuts known inner m closed.refl) closed.refl runs
      refine (round.and faithful fun r m' run => stack_kept.action steady run).mono
        fun r m' after => ?_
      obtain ⟨⟨after, w, ahead, -, found⟩, stack⟩ := after
      have runs : m'.stack.Runs nested := stack.symm ▸ runs
      rcases r with fault | step
      · exact ⟨after, ahead.knows (a := fault) found⟩
      · have known := ahead.knows (found.1 : w.Knows step)
        cases step with
        | done completion => exact ⟨after, known⟩
        | again next =>
          have rest := faithful.loop.1 (ih.loop after.closed runs known (found.2 next rfl))
          refine faithful.loop.2 ⟨rest.1, fun r m'' run => ?_⟩
          obtain ⟨later, known⟩ := rest.2 r m'' run
          exact ⟨after.trans later, known⟩

omit host in
theorem Operation.finds {operation : Operation α} (known : w.Knows operation) :
    Finds nested w (fun _ _ => True) (operation.evaluate engine) := by
  cases operation with
  | statement s labels => exact (s.discreet engine.shortcuts labels w).mono fun _ _ _ _ => trivial
  | expression e hint => exact (e.discreet hint).mono fun _ _ _ _ => trivial
  | call callee this arguments =>
    obtain ⟨callee', this', given⟩ := linked_call.1 (known : w.Knows (Invocation.call ..))
    exact (discreet_call callee' this' given).mono fun _ _ _ _ => trivial
  | construct callee arguments newTarget =>
    obtain ⟨callee', given, target⟩ :=
      linked_construct.1 (known : w.Knows (Invocation.construct ..))
    exact (discreet_construct callee' given target).mono fun _ _ _ _ => trivial
  | drive receiver resumption brand =>
    exact (discreet_drive (List.forall_mem_append.1 known).2 engine.shortcuts receiver brand).mono
      fun _ _ _ _ => trivial
  | run program => exact (program.discreet_run engine.shortcuts).mono fun _ _ _ _ => trivial
  | eval program => exact (program.discreet_eval engine.shortcuts).mono fun _ _ _ _ => trivial

theorem Operation.safe {operation : Operation α} {m : Machine σ} (closed : m.Closed)
    (known : m.Knows operation) (fuel : Nat) :
    (operation.evaluate engine).Safe Moment.Closed (engine.promises Moment.Closed fuel) m
      fun _ m' => m.Precedes m' := by
  obtain ⟨nested, runs⟩ := closed.runs
  have faithful := engine.promises_faithful (J := Moment.Closed) fuel
  exact (Action.Discreet.safe faithful ((stack_kept (σ := σ)).answers engine fuel)
    (promises_discreet host fuel) (Operation.finds known m closed.refl) closed.refl runs).mono
    fun _ _ ends => ends.1

end

end ScriptEngine
