import ScriptEngine.Proofs.FunctionEntry
import ScriptEngine.Proofs.Globals

/-!
# Entering a script

When the declarations of a script are allowed, its functions and variables are properties of the
global object, its lexical names are new bindings beside it, and nothing else has changed
(`global_entry_declares`).
-/

namespace ScriptEngine

open Eval

variable {σ : Type}

def Property.variable : Property := ⟨.undefined, true, true, false⟩

theorem Store.Globals.unique {s : Store} {e : EnvironmentId} {r r' : GlobalRecord}
    {object object' : Object} (h : s.Globals e r object) (h' : s.Globals e r' object') :
    r = r' ∧ object = object' := by
  cases h.record.symm.trans h'.record
  exact ⟨rfl, Option.some.inj (h.object.symm.trans h'.object)⟩

theorem GlobalRecord.mem_noteVar (r : GlobalRecord) (name : String) :
    name ∈ (r.noteVar name).varNames := by
  unfold noteVar
  split
  · rename_i noted
    exact List.contains_iff_mem.1 noted
  · simp

@[simp] theorem Object.find?_define (object : Object) (key other : String) (property : Property) :
    (object.define key property).properties.find? other =
      if other = key then some property else object.properties.find? other :=
  Table.find?_insert ..

theorem mem_names_lastOfEachName {functions : List FunctionNode} {name : String} :
    name ∈ (lastOfEachName functions).filterMap (·.name) ↔ ∃ f ∈ functions, f.name = some name := by
  rw [List.mem_filterMap]
  refine ⟨fun ⟨f, member, named⟩ => ⟨f, lastOfEachName_subset member, named⟩, ?_⟩
  induction functions with
  | nil => exact fun ⟨f, member, _⟩ => nomatch member
  | cons f rest ih =>
    rintro ⟨g, member, named⟩
    by_cases again : ∃ g ∈ rest, g.name = some name
    · obtain ⟨last, there, named⟩ := ih again
      refine ⟨last, ?_, named⟩
      unfold lastOfEachName
      split
      · exact there
      · exact List.mem_cons_of_mem f there
    · rcases List.mem_cons.1 member with rfl | later
      · refine ⟨g, mem_lastOfEachName [] named fun other there same => again ?_, named⟩
        exact ⟨other, there, same⟩
      · exact absurd ⟨g, later, named⟩ again

section

variable {A : Answers σ} {e : EnvironmentId} {m m' : Machine σ} {r : GlobalRecord} {object : Object}

variable (globals : m.store.Globals e r object)

include globals

theorem declareFunction_declares {name : String} {v : Value}
    (run : A.eval (attempt (.declareFunction e name v false)) m = .finished (.ok ()) m') :
    ∃ p : Property, p.value = v ∧ m'.store.Globals e (r.noteVar name) (object.define name p) := by
  have done (p : Property) :
      (m.store.apply { record := some (e, .global (r.noteVar name)),
                       property := some (r.object, name, some p) }).Globals e (r.noteVar name)
        (object.define name p) :=
    (globals.define name p).setRecord (Declared.noteVar r object name).place
  simp only [eval_attempt, Effect.apply, Machine.onStore, Store.declareFunction,
    globals.record] at run
  split at run
  · rename_i p made
    cases run
    refine ⟨p, ?_, done p⟩
    split at made
    · cases made
      rfl
    · unfold Heap.assigned? at made
      split at made
      · cases made
        split <;> rfl
      · cases made
  · cases run

theorem declareVar_declares (extensible : object.extensible = true) {name : String}
    (run : A.eval (attempt (.declareVar e name false)) m = .finished (.ok ()) m') :
    ∃ object', m'.store.Globals e (r.noteVar name) object' ∧ object'.extensible = true ∧
      ∀ key, object'.properties.find? key = if key = name then
        some ((object.properties.find? name).getD .variable) else object.properties.find? key := by
  have place := (Declared.noteVar r object name).place
  simp only [eval_attempt, Effect.apply, Machine.onStore, Store.declareVar, globals.record,
    Heap.hasOwn, globals.getOwn?, globals.get, extensible, Bool.and_true] at run
  cases found : object.properties.find? name with
  | none =>
    rw [found] at run
    cases run
    exact ⟨_, (globals.define name _).setRecord place, extensible, fun key => by simp; rfl⟩
  | some p =>
    rw [found] at run
    cases run
    refine ⟨object, globals.setRecord place, extensible, fun key => ?_⟩
    split
    · simp [*]
    · rfl

theorem createLexical_declares {x : LexicalName}
    (run : A.eval (createLexical e x.name x.constant) m = .finished (.ok ()) m') :
    r.bindings.find? x.name = none ∧ m'.store.Globals e
      { r with bindings := r.bindings.insert x.name x.binding } object := by
  obtain ⟨name, constant⟩ := x
  cases constant <;>
    simp only [createLexical, eval_attempt, Effect.apply, Machine.onStore, Bool.false_eq_true,
      if_true, if_false, Store.createImmutable, Store.createMutable, globals.record,
      Store.changeBindings, Bindings.createImmutable, Bindings.createMutable, Bindings.create] at run
  all_goals
    cases known : r.bindings.contains name with
    | true =>
      rw [known] at run
      cases run
    | false =>
      rw [known] at run
      cases run
      exact ⟨by simpa [Table.contains] using known, globals.setRecord rfl⟩

end

section

variable {engine : Engine σ} {fuel : Nat} {e : EnvironmentId} {m m' : Machine σ} {r r' : GlobalRecord}
  {object object' : Object}

theorem run_bind_ok {α β : Type} {x : Eval σ α} {f : α → Eval σ β} {b : β}
    (run : engine.run fuel (x >>= f) m = .finished (.ok b) m') :
    ∃ a m₁, engine.run fuel x m = .finished (.ok a) m₁ ∧
      engine.run fuel (f a) m₁ = .finished (.ok b) m' := by
  rw [engine.run_eq, eval_bind] at run
  exact proceed_eq_ok.1 run

theorem Eval.Declares.of_ok {vars lexical : List String} {fails : GlobalRecord → Object → Prop}
    {x : Eval σ Unit} (h : Declares (engine.answers fuel) e vars lexical fails x)
    (globals : m.store.Globals e r object) (run : engine.run fuel x m = .finished (.ok ()) m') :
    ∃ r' object', m'.store.Globals e r' object' ∧ Declared vars lexical r object r' object' := by
  obtain ⟨result, m₁, r', object', found, globals', declared, -⟩ := h m r object globals
  cases run.symm.trans found
  exact ⟨r', object', globals', declared⟩

theorem declareGlobalFunctions_declares {functions : List FunctionNode}
    (distinct : functions.Pairwise fun f g => f.name ≠ g.name) (globals : m.store.Globals e r object)
    (run : engine.run fuel (declareGlobalFunctions e functions) m = .finished (.ok ()) m')
    (globals' : m'.store.Globals e r' object') :
    object'.extensible = object.extensible ∧
      ∀ f ∈ functions, ∀ name, f.name = some name → name ∈ r'.varNames ∧
        ∃ p o, object'.properties.find? name = some p ∧ p.value = .object o ∧ m'.Denotes o f e := by
  induction functions generalizing m r object with
  | nil =>
    cases run
    exact ⟨by rw [(globals.unique globals').2], nofun⟩
  | cons f rest ih =>
    obtain ⟨new, distinct⟩ := List.pairwise_cons.1 distinct
    rw [declareGlobalFunctions] at run
    cases named : f.name with
    | none =>
      rw [named] at run
      obtain ⟨same, made⟩ := ih distinct globals run
      refine ⟨same, fun g member name is => ?_⟩
      rcases List.mem_cons.1 member with rfl | member
      · cases named.symm.trans is
      · exact made g member name is
    | some name =>
      rw [named] at run
      obtain ⟨o, m₁, created, run⟩ := run_bind_ok run
      obtain ⟨⟨⟩, m₂, defined, following⟩ := run_bind_ok run
      obtain ⟨o', m₁', created', adds, denotes⟩ :=
        createFunction_denotes (A := engine.answers fuel) f e m
      cases created.symm.trans created'
      obtain ⟨p, value, globals₂⟩ := declareFunction_declares (A := engine.answers fuel)
        (globals.adds adds) defined
      obtain ⟨same, made⟩ := ih distinct globals₂ following
      refine ⟨same, fun g member other is => ?_⟩
      rcases List.mem_cons.1 member with rfl | member
      · cases named.symm.trans is
        -- the functions that follow have other names
        obtain ⟨_, _, found, declared⟩ := (declares_functions rest).of_ok globals₂ following
        obtain ⟨rfl, rfl⟩ := found.unique globals'
        have apart : name ∉ rest.filterMap (·.name) := by
          intro again
          obtain ⟨g, there, is⟩ := List.mem_filterMap.1 again
          exact new g there (named.trans is.symm)
        refine ⟨declared.varNames.subset (r.mem_noteVar name), p, o, ?_, value, ?_⟩
        · rw [declared.properties name apart, Object.find?_define, if_pos rfl]
        · exact (denotes.extends (kinds_kept.run engine defined)).extends
            (kinds_kept.run engine following)
      · exact made g member other is

theorem declareGlobalVars_declares {names : List String} (globals : m.store.Globals e r object)
    (extensible : object.extensible = true)
    (run : engine.run fuel (declareGlobalVars e names) m = .finished (.ok ()) m')
    (globals' : m'.store.Globals e r' object') :
    ∀ name ∈ names, name ∈ r'.varNames ∧
      object'.properties.find? name = some ((object.properties.find? name).getD .variable) := by
  induction names generalizing m r object with
  | nil => exact nofun
  | cons first rest ih =>
    obtain ⟨⟨⟩, m₁, defined, run⟩ := run_bind_ok run
    obtain ⟨object₁, globals₁, extensible₁, after⟩ :=
      declareVar_declares (A := engine.answers fuel) globals extensible defined
    have found := ih globals₁ extensible₁ run
    obtain ⟨_, _, is, declared⟩ := (declares_vars rest).of_ok globals₁ run
    obtain ⟨rfl, rfl⟩ := is.unique globals'
    intro name member
    by_cases again : name ∈ rest
    · obtain ⟨noted, property⟩ := found name again
      refine ⟨noted, ?_⟩
      rw [property, after]
      split
      · rename_i same
        simp [same]
      · rfl
    · obtain rfl := (List.mem_cons.1 member).resolve_right again
      refine ⟨declared.varNames.subset (r.mem_noteVar name), ?_⟩
      rw [declared.properties name again, after, if_pos rfl]

theorem createLexicals_declares {names : List LexicalName} (globals : m.store.Globals e r object)
    (run : engine.run fuel (createLexicals e names) m = .finished (.ok ()) m')
    (globals' : m'.store.Globals e r' object') :
    ∀ x ∈ names, r.bindings.find? x.name = none ∧ r'.bindings.find? x.name = some x.binding := by
  induction names generalizing m r with
  | nil => exact nofun
  | cons first rest ih =>
    obtain ⟨⟨⟩, m₁, created, run⟩ := run_bind_ok run
    obtain ⟨new, globals₁⟩ := createLexical_declares (A := engine.answers fuel) globals created
    obtain ⟨_, _, is, declared⟩ := (declares_lexicals rest).of_ok globals₁ run
    obtain ⟨rfl, rfl⟩ := is.unique globals'
    intro x member
    rcases List.mem_cons.1 member with rfl | member
    · exact ⟨new, declared.bindings _ _ ((Table.find?_insert ..).trans (if_pos rfl))⟩
    · obtain ⟨absent, bound⟩ := ih globals₁ run x member
      refine ⟨?_, bound⟩
      -- a name that is created twice is refused
      rw [Table.find?_insert] at absent
      split at absent
      · cases absent
      · exact absent

end

structure Program.Declares (program : Program) (e : EnvironmentId) (m : Machine σ)
    (r : GlobalRecord) (object : Object) (r' : GlobalRecord) (object' : Object) : Prop where
  functions : ∀ before f after name, declaredFunctions program.body = before ++ f :: after →
    f.name = some name → (∀ g ∈ after, g.name ≠ some name) →
      ∃ p o, object'.properties.find? name = some p ∧ p.value = .object o ∧ m.Denotes o f e
  hoisted : ∀ name ∈ varNamesOf program.body,
    (∀ f ∈ declaredFunctions program.body, f.name ≠ some name) →
      object'.properties.find? name = some ((object.properties.find? name).getD .variable)
  lexical : ∀ x ∈ lexicalNames program.body,
    r.bindings.find? x.name = none ∧ r'.bindings.find? x.name = some x.binding
  noted : ∀ name, name ∈ r'.varNames ↔ name ∈ r.varNames ∨ name ∈ varNamesOf program.body ∨
    ∃ f ∈ declaredFunctions program.body, f.name = some name
  otherProperties : ∀ key, key ∉ varNamesOf program.body →
    (∀ f ∈ declaredFunctions program.body, f.name ≠ some key) →
      object'.properties.find? key = object.properties.find? key
  otherBindings : ∀ name, (∀ x ∈ lexicalNames program.body, x.name ≠ name) →
    r'.bindings.find? name = r.bindings.find? name

namespace Eval

variable {engine : Engine σ} {fuel : Nat} {e : EnvironmentId} {m m' : Machine σ} {r : GlobalRecord}
  {object : Object}

theorem declareGlobals_ok {declared : BodyScope}
    (run : engine.run fuel (declareGlobals e declared) m = .finished (.ok ()) m') :
    ∃ m₁ m₂, engine.run fuel (declareGlobalFunctions e declared.functions) m = .finished (.ok ()) m₁ ∧
      engine.run fuel (declareGlobalVars e declared.varNames) m₁ = .finished (.ok ()) m₂ ∧
      engine.run fuel (createLexicals e declared.lexical) m₂ = .finished (.ok ()) m' := by
  have checked {conflicts : Machine σ → String → Bool} {names : List String} {m₁ m₂ : Machine σ}
      (h : engine.run fuel (refuseDeclared conflicts names) m₁ = .finished (.ok ()) m₂) :
      m₂ = m₁ := by
    rw [engine.run_eq, eval_refuseDeclared] at h
    split at h <;> cases h
    rfl
  obtain ⟨⟨⟩, _, first, run⟩ := run_bind_ok run
  cases checked first
  obtain ⟨⟨⟩, _, second, run⟩ := run_bind_ok run
  cases checked second
  obtain ⟨⟨⟩, m₁, functions, run⟩ := run_bind_ok run
  obtain ⟨⟨⟩, m₂, hoisted, run⟩ := run_bind_ok run
  exact ⟨m₁, m₂, functions, hoisted, run⟩

theorem declareGlobals_declares {program : Program} (globals : m.store.Globals e r object)
    (extensible : object.extensible = true)
    (run : engine.run fuel (declareGlobals e program.scope) m = .finished (.ok ()) m') :
    ∃ r' object', m'.store.Globals e r' object' ∧ program.Declares e m' r object r' object' := by
  obtain ⟨m₁, m₂, run₁, run₂, run₃⟩ := declareGlobals_ok run
  obtain ⟨r₁, object₁, globals₁, declared₁⟩ := (declares_functions _).of_ok globals run₁
  obtain ⟨r₂, object₂, globals₂, declared₂⟩ := (declares_vars _).of_ok globals₁ run₂
  obtain ⟨r₃, object₃, globals₃, declared₃⟩ := (declares_lexicals _).of_ok globals₂ run₃
  obtain ⟨extends₁, made⟩ :=
    declareGlobalFunctions_declares (lastOfEachName_distinct _) globals run₁ globals₁
  have hoisted := declareGlobalVars_declares globals₁ (extends₁.trans extensible) run₂ globals₂
  have created := createLexicals_declares globals₂ run₃ globals₃
  have lists (name : String) : name ∈ program.scope.varNames ↔ name ∈ varNamesOf program.body :=
    List.mem_eraseDups
  have names (name : String) : name ∈ program.scope.functions.filterMap (·.name) ↔
      ∃ f ∈ declaredFunctions program.body, f.name = some name :=
    mem_names_lastOfEachName
  have holds {name : String} {p : Property} (found : object₂.properties.find? name = some p) :
      object₃.properties.find? name = some p :=
    (declared₃.properties name List.not_mem_nil).trans found
  have noted {name : String} (h : name ∈ r₂.varNames) : name ∈ r₃.varNames :=
    declared₃.varNames.subset h
  refine ⟨r₃, object₃, globals₃, ?functions, ?hoisted, ?lexical, ?noted, ?properties, ?bindings⟩
  case functions =>
    intro before f after name split named last
    have member : f ∈ program.scope.functions := by
      rw [Program.scope, bodyScope, split]
      exact mem_lastOfEachName before named last
    obtain ⟨-, p, o, found, value, denotes⟩ := made f member name named
    refine ⟨p, o, holds ?_, value,
      (denotes.extends (kinds_kept.run engine run₂)).extends (kinds_kept.run engine run₃)⟩
    -- a variable with the name of a function does not change the property
    by_cases also : name ∈ program.scope.varNames
    · rw [(hoisted name also).2, found]
      rfl
    · rw [declared₂.properties name also, found]
  case hoisted =>
    intro name member other
    have apart : name ∉ program.scope.functions.filterMap (·.name) := fun again => by
      obtain ⟨f, there, named⟩ := (names name).1 again
      exact other f there named
    rw [← declared₁.properties name apart]
    exact holds (hoisted name ((lists name).2 member)).2
  case lexical =>
    intro x member
    obtain ⟨absent, bound⟩ := created x member
    rw [declared₂.created _ List.not_mem_nil, declared₁.created _ List.not_mem_nil] at absent
    exact ⟨absent, bound⟩
  case noted =>
    intro name
    rw [← lists, ← names]
    constructor
    · intro found
      rcases declared₃.noted name found with found | found
      · rcases declared₂.noted name found with found | hoisted
        · exact (declared₁.noted name found).imp_right .inr
        · exact .inr (.inl hoisted)
      · cases found
    · rintro (old | member | member)
      · exact noted (declared₂.varNames.subset (declared₁.varNames.subset old))
      · exact noted (hoisted name member).1
      · obtain ⟨f, there, named⟩ := List.mem_filterMap.1 member
        exact noted (declared₂.varNames.subset (made f there name named).1)
  case properties =>
    intro key other apart
    rw [declared₃.properties key List.not_mem_nil, declared₂.properties key (mt (lists key).1 other),
      declared₁.properties key fun again => ?_]
    obtain ⟨f, there, named⟩ := (names key).1 again
    exact apart f there named
  case bindings =>
    intro name other
    rw [declared₃.created name fun again => ?_, declared₂.created name List.not_mem_nil,
      declared₁.created name List.not_mem_nil]
    obtain ⟨x, there, same⟩ := List.mem_map.1 again
    exact other x there same

end Eval

/-- If the declarations of a script are allowed and the global object can be extended, then each
function is a property that holds a function made from its last declaration. A variable keeps the
property it finds, and is a new one otherwise. -/
theorem global_entry_declares {engine : Engine σ} {change : Machine σ → Machine σ → Prop}
    (rooted : ∀ m m', change m m' → m.Rooted → m'.Rooted) {m m' : Machine σ}
    (reachable : engine.Reachable change m) (program : Program) {fuel : Nat}
    (declared : engine.run fuel (declareGlobals m.realm.globalEnvironment program.scope)
      (program.entered m) = .finished (.ok ()) m') :
    ∃ r object, m.store.Globals m.realm.globalEnvironment r object ∧ (object.extensible = true →
      ∃ r' object', m'.store.Globals m.realm.globalEnvironment r' object' ∧
        program.Declares m.realm.globalEnvironment m' r object r' object') := by
  obtain ⟨r, object, globals⟩ := reachable.rooted rooted
  have entered : (program.entered m).store.Globals m.realm.globalEnvironment r object := globals
  exact ⟨r, object, globals, fun extensible => declareGlobals_declares entered extensible declared⟩

/-- The script `function f() {} var x; const y = 1;` in a machine whose global object has a hidden
`x`. -/
theorem global_entry_declares_script :
    let engine : Engine Unit := {}
    let f : FunctionNode :=
      { name := some "f", parameters := [], body := .block [], arrow := false, generator := false
        strict := false, span := {} }
    let declare (kind : VariableKind) (name : String) : Stmt :=
      .declare { kind, declarators := [{ name, init := none }], span := {} }
    let program : Program :=
      { body := [.functionDecl f, declare .var "x", declare .const "y"], strict := false, span := {} }
    let r : GlobalRecord := { object := ⟨0⟩ }
    let hidden : Property := ⟨.null, true, false, true⟩
    let m : Machine Unit :=
      { Machine.bare with
        store :=
          { heap := ⟨#[{ properties := Table.empty.insert "x" hidden }]⟩
            environments := #[{ record := .global r }] } }
    ∃ m' r' object',
      engine.run 0 (declareGlobals m.realm.globalEnvironment program.scope) (program.entered m) =
        .finished (.ok ()) m' ∧
      m'.store.Globals ⟨0⟩ r' object' ∧
      (∃ p o, object'.properties.find? "f" = some p ∧ p.value = .object o ∧
        m'.Denotes o f ⟨0⟩) ∧
      object'.properties.find? "x" = some hidden ∧
      r'.bindings.find? "y" = some { mutable := false, strict := true } := by
  intro engine f declare program r hidden m
  have globals : m.store.Globals ⟨0⟩ r { properties := Table.empty.insert "x" hidden } := ⟨rfl, rfl⟩
  have reachable : engine.Reachable (fun _ m' => m'.Rooted) m :=
    .change (.start {} ()) ⟨r, _, globals⟩
  have allowed : (match engine.run 0 (declareGlobals m.realm.globalEnvironment program.scope)
      (program.entered m) with
    | .finished (.ok ()) _ => true
    | _ => false) = true := by
    decide +kernel
  split at allowed
  · rename_i m' run
    obtain ⟨r₀, object₀, before, declares⟩ :=
      global_entry_declares (fun _ _ rooted _ => rooted) reachable program run
    obtain ⟨rfl, rfl⟩ := before.unique globals
    obtain ⟨r', object', after, declares⟩ := declares rfl
    refine ⟨m', r', object', run, after, declares.functions [] f [] "f" rfl rfl nofun, ?_, ?_⟩
    · exact declares.hoisted "x" (by decide) fun g member => by
        cases List.mem_singleton.1 member
        decide
    · exact (declares.lexical ⟨"y", true⟩ (by decide)).2
  · cases allowed

end ScriptEngine
