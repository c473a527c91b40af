import ScriptEngine.Proofs.Additions
import ScriptEngine.Proofs.Scopes
import ScriptEngine.Proofs.Stack
import ScriptEngine.Proofs.Start

/-!
# Declarations of scripts

A script looks for conflicts before it declares its names, but not for all of them: a lexical name
that it declares twice, and a function whose name is a property that can neither be replaced nor
written, are found when other names have been declared already.
-/

namespace ScriptEngine

open Eval

variable {σ : Type}

/-! ## The global scope -/

structure Store.Globals (s : Store) (e : EnvironmentId) (r : GlobalRecord) (object : Object) :
    Prop where
  record : (s.environment e).record = .global r
  object : s.heap.objects[r.object.index]? = some object

def Machine.Rooted (m : Machine σ) : Prop :=
  ∃ r object, m.store.Globals m.realm.globalEnvironment r object

namespace Store.Globals

variable {s : Store} {e : EnvironmentId} {r : GlobalRecord} {object : Object}

theorem get (h : s.Globals e r object) : s.heap.get r.object = object := by
  simp [Heap.get, Array.getD_eq_getD_getElem?, h.object]

theorem within (h : s.Globals e r object) : r.object.index < s.heap.objects.size :=
  (Array.getElem?_eq_some_iff.1 h.object).1

theorem adds {m m' : Machine σ} (h : m.store.Globals e r object) (adds : m.Adds m') :
    m'.store.Globals e r object where
  record := by rw [Store.environment, adds.environments]; exact h.record
  object := (adds.objects _ h.within).trans h.object

variable (h : s.Globals e r object)

include h

theorem globalRecord? : (s.environment e).globalRecord? = some r := by
  simp only [Environment.globalRecord?, h.record]

theorem hasVar (name : String) : s.hasVar e name = r.varNames.contains name := by
  simp only [Store.hasVar, h.globalRecord?]

theorem hasLexical (name : String) : s.hasLexical e name = r.bindings.contains name := by
  simp only [Store.hasLexical, h.globalRecord?]

end Store.Globals

namespace Store.Globals

variable {s : Store} {e : EnvironmentId} {r : GlobalRecord} {object : Object}

variable (h : s.Globals e r object)

include h

theorem setRecord {r' : GlobalRecord} (same : r'.object = r.object) :
    (s.setRecord e (.global r')).Globals e r' object where
  record := by rw [environment_setRecord s e _ e (has_of_global h.record), if_pos rfl]
  object := same ▸ h.object

theorem define (key : String) (property : Property) :
    ({ s with heap := s.heap.define r.object key property } : Store).Globals e r
      (object.define key property) where
  record := h.record
  object := by
    refine (Array.getElem?_modify ..).trans ?_
    rw [if_pos rfl, h.object]
    rfl

theorem getOwn? (key : String) : s.heap.getOwn? r.object key = object.properties.find? key := by
  rw [Heap.getOwn?, h.get]

end Store.Globals

theorem rooted_kept : Kept fun m m' : Machine σ => m.Rooted → m'.Rooted where
  refl _ rooted := rooted
  trans h₁ h₂ rooted := h₂ (h₁ rooted)
  effect effect m := by
    rintro ⟨r, object, globals⟩
    obtain ⟨r', record, same⟩ := (effect.grows m).global globals.record
    have size := (kinds_kept.effect effect m).size
    have within : r'.object.index < (effect.apply m).2.heap.objects.size :=
      same ▸ Nat.lt_of_lt_of_le globals.within size
    refine ⟨r', _, ?_, Array.getElem?_eq_getElem within⟩
    rw [realm_kept.effect effect m]
    exact record
  scope _ _ h := h
  frame _ h := h

theorem Engine.start_rooted (engine : Engine σ) (options : Options) (host : σ) :
    (engine.start options host).Rooted := by
  have within := engine.start_global options host
  have scopes := engine.start_environments options host
  have outermost := engine.start_globalEnvironment options host
  generalize engine.start options host = m at within scopes outermost
  refine ⟨{ object := m.realm.global }, _, ?_, Array.getElem?_eq_getElem within⟩
  simp [Store.environment, scopes, outermost]

theorem Engine.Reachable.rooted {engine : Engine σ} {change : Machine σ → Machine σ → Prop}
    (rooted : ∀ m m', change m m' → m.Rooted → m'.Rooted) {m : Machine σ}
    (h : engine.Reachable change m) : m.Rooted := by
  induction h with
  | start options host => exact engine.start_rooted options host
  | operate operation _ run ih => exact rooted_kept.run engine run ih
  | change _ changed ih => exact rooted _ _ changed ih

/-! ## What declarations change -/

def Object.Locked (object : Object) (name : String) : Prop :=
  ∃ property, object.properties.find? name = some property ∧ property.configurable = false ∧
    property.writable = false

namespace BodyScope

def vars (declared : BodyScope) : List String :=
  declared.varNames ++ declared.functions.filterMap (·.name)

def lexicals (declared : BodyScope) : List String := declared.lexical.map (·.name)

end BodyScope

structure Declared (vars lexical : List String) (r : GlobalRecord) (object : Object)
    (r' : GlobalRecord) (object' : Object) : Prop where
  place : r'.object = r.object
  varNames : r.varNames <+: r'.varNames
  noted : ∀ name ∈ r'.varNames, name ∈ r.varNames ∨ name ∈ vars
  bindings : ∀ name binding, r.bindings.find? name = some binding →
    r'.bindings.find? name = some binding
  created : ∀ name, name ∉ lexical → r'.bindings.find? name = r.bindings.find? name
  properties : ∀ key, key ∉ vars → object'.properties.find? key = object.properties.find? key
  locked : ∀ key, object'.Locked key → object.Locked key

namespace Declared

variable {vars vars' lexical lexical' : List String} {r r₁ r₂ : GlobalRecord}
  {object object₁ object₂ : Object} {name : String}

theorem refl (r : GlobalRecord) (object : Object) : Declared vars lexical r object r object where
  place := rfl
  varNames := List.prefix_rfl
  noted _ mem := .inl mem
  bindings _ _ found := found
  created _ _ := rfl
  properties _ _ := rfl
  locked _ h := h

theorem trans (h : Declared vars lexical r object r₁ object₁)
    (h' : Declared vars lexical r₁ object₁ r₂ object₂) :
    Declared vars lexical r object r₂ object₂ where
  place := h'.place.trans h.place
  varNames := h.varNames.trans h'.varNames
  noted name mem := (h'.noted name mem).elim (h.noted name) .inr
  bindings name binding found := h'.bindings name binding (h.bindings name binding found)
  created name other := (h'.created name other).trans (h.created name other)
  properties key other := (h'.properties key other).trans (h.properties key other)
  locked key found := h.locked key (h'.locked key found)

theorem mono (h : Declared vars lexical r object r₁ object₁) (more : vars ⊆ vars')
    (more' : lexical ⊆ lexical') : Declared vars' lexical' r object r₁ object₁ where
  place := h.place
  varNames := h.varNames
  noted name mem := (h.noted name mem).imp_right fun listed => more listed
  bindings := h.bindings
  created name other := h.created name fun listed => other (more' listed)
  properties key other := h.properties key fun listed => other (more listed)
  locked := h.locked

theorem noteVar (r : GlobalRecord) (object : Object) (name : String) :
    Declared [name] [] r object (r.noteVar name) object := by
  unfold GlobalRecord.noteVar
  split
  · exact .refl r object
  · refine ⟨rfl, List.prefix_append _ _, fun other found => ?_, fun _ _ found => found,
      fun _ _ => rfl, fun _ _ => rfl, fun _ h => h⟩
    exact List.mem_append.1 found

theorem define (r : GlobalRecord) (object : Object) (name : String) {property : Property}
    (writable : property.writable = true) :
    Declared [name] [] r object r (object.define name property) := by
  refine ⟨rfl, List.prefix_rfl, fun _ => .inl, fun _ _ found => found, fun _ _ => rfl,
    fun key other => ?_, fun key h => ?_⟩
  · rw [Object.define, Table.find?_insert, if_neg fun same => other (List.mem_singleton.2 same)]
  · obtain ⟨property, found, fixed, constant⟩ := h
    rw [Object.define, Table.find?_insert] at found
    split at found
    · cases found
      simp [writable] at constant
    · exact ⟨property, found, fixed, constant⟩

theorem create (r : GlobalRecord) (object : Object) {name : String}
    (absent : r.bindings.contains name = false) (binding : Binding) :
    Declared [] [name] r object { r with bindings := r.bindings.insert name binding } object := by
  refine ⟨rfl, List.prefix_rfl, fun _ => .inl, fun other old found => ?_, fun other unlisted => ?_,
    fun _ _ => rfl, fun _ h => h⟩
  · rw [Table.find?_insert, if_neg, found]
    rintro rfl
    simp [Table.contains, found] at absent
  · rw [Table.find?_insert, if_neg fun same => unlisted (List.mem_singleton.2 same)]

end Declared

/-! ## Steps of a declaration -/

def Eval.Declares (A : Answers σ) (e : EnvironmentId) (vars lexical : List String)
    (fails : GlobalRecord → Object → Prop) (x : Eval σ Unit) : Prop :=
  ∀ m r object, m.store.Globals e r object →
    ∃ result m' r' object', A.eval x m = .finished result m' ∧ m'.store.Globals e r' object' ∧
      Declared vars lexical r object r' object' ∧
      ∀ fault, result = .error fault → fails r object ∧ fault.isHostAbort = false

namespace Eval

variable {A : Answers σ} {e : EnvironmentId} {vars vars₁ vars₂ lexical lexical₁ lexical₂ : List String}
  {F G H : GlobalRecord → Object → Prop} (name : String)

theorem declares_pure : Declares A e vars lexical H (pure ()) :=
  fun m r object globals => ⟨_, m, r, object, rfl, globals, .refl r object, nofun⟩

theorem Declares.andThen {x y : Eval σ Unit} (hx : Declares A e vars₁ lexical₁ F x)
    (hy : Declares A e vars₂ lexical₂ G y) (more : vars₁ ⊆ vars ∧ vars₂ ⊆ vars)
    (more' : lexical₁ ⊆ lexical ∧ lexical₂ ⊆ lexical) (first : ∀ r object, F r object → H r object)
    (second : ∀ r object r' object', Declared vars₁ lexical₁ r object r' object' → G r' object' →
      H r object) :
    Declares A e vars lexical H (do x; y) := by
  intro m r object globals
  obtain ⟨result, m₁, r₁, object₁, run, globals₁, declared, ends⟩ := hx m r object globals
  have wider := declared.mono more.1 more'.1
  cases result with
  | error fault =>
    refine ⟨.error fault, m₁, r₁, object₁, ?_, globals₁, wider, fun fault' failed => ?_⟩
    · rw [eval_bind, run, proceed_error]
    · exact (ends fault' failed).imp_left (first r object)
  | ok u =>
    obtain ⟨result, m₂, r₂, object₂, run', globals₂, declared', ends'⟩ :=
      hy m₁ r₁ object₁ globals₁
    refine ⟨result, m₂, r₂, object₂, ?_, globals₂,
      wider.trans (declared'.mono more.2 more'.2), fun fault failed => ?_⟩
    · rw [eval_bind, run, proceed_ok, run']
    · exact (ends' fault failed).imp_left (second r object r₁ object₁ declared)

theorem Additive.declares {α : Type} {x : Eval σ α} {f : α → Eval σ Unit}
    (hx : ∀ m₀, Additive A m₀ (fun _ => True) x) (hf : ∀ a, Declares A e vars lexical H (f a)) :
    Declares A e vars lexical H (x >>= f) := by
  intro m r object globals
  obtain ⟨a, m₁, run, adds, -⟩ := hx m m (.refl m)
  obtain ⟨result, m₂, r₂, object₂, run', rest⟩ := hf a m₁ r object (globals.adds adds)
  exact ⟨result, m₂, r₂, object₂, by rw [eval_bind, run, proceed_ok, run'], rest⟩

theorem declares_commit {effect : Effect σ (Except Fault Unit)} (op : Store → Except Fault Change)
    (is : ∀ m, effect.apply m = m.onStore fun s => s.commit (op s))
    (ends : ∀ s r object, s.Globals e r object → match op s with
      | .ok change => ∃ r' object', (s.apply change).Globals e r' object' ∧
          Declared vars lexical r object r' object'
      | .error fault => H r object ∧ fault.isHostAbort = false) :
    Declares A e vars lexical H (attempt effect) := by
  intro m r object globals
  have ends := ends m.store r object globals
  rw [eval_attempt, is]
  cases found : op m.store with
  | error fault =>
    rw [found] at ends
    refine ⟨_, _, r, object, rfl, ?_, .refl r object, ?_⟩
    · simp only [Machine.onStore, found, Store.commit]
      exact globals
    · simp only [Machine.onStore, found, Store.commit, Except.error.injEq]
      rintro _ rfl
      exact ends
  | ok change =>
    rw [found] at ends
    obtain ⟨r', object', globals', declared⟩ := ends
    refine ⟨_, _, r', object', rfl, ?_, declared, ?_⟩
    · simp only [Machine.onStore, found, Store.commit]
      exact globals'
    · simp [Machine.onStore, found, Store.commit]

theorem declares_declareFunction (value : Value) :
    Declares A e [name] [] (fun _ object => object.Locked name)
      (attempt (.declareFunction e name value false)) := by
  refine declares_commit (·.declareFunction e name value false) (fun _ => rfl)
    fun s r object globals => ?_
  have done {p : Property} (writable : p.writable = true) :
      ∃ r' object', (s.apply { record := some (e, .global (r.noteVar name))
                               property := some (r.object, name, some p) }).Globals e r' object' ∧
        Declared [name] [] r object r' object' := by
    have noted : (r.noteVar name).object = r.object := (Declared.noteVar r object name).place
    exact ⟨_, _, (globals.define name p).setRecord noted,
      (Declared.noteVar r object name).trans (.define _ object name writable)⟩
  have own := globals.getOwn? name
  simp only [Store.declareFunction, globals.record, own]
  cases found : object.properties.find? name with
  | none => exact done rfl
  | some p =>
    rw [found] at own
    cases configurable : p.configurable with
    | true =>
      simp only [Option.all_some, configurable, if_true]
      exact done rfl
    | false =>
      simp only [Option.all_some, configurable, Bool.false_eq_true, if_false]
      cases writable : p.writable with
      | true =>
        simp only [Heap.assigned?, Heap.canWrite, own, writable, if_true]
        exact done rfl
      | false =>
        simp only [Heap.assigned?, Heap.canWrite, own, writable]
        exact ⟨⟨p, found, configurable, writable⟩, rfl⟩

theorem declares_declareVar :
    Declares A e [name] [] (fun _ _ => False) (attempt (.declareVar e name false)) := by
  refine declares_commit (·.declareVar e name false) (fun _ => rfl) fun s r object globals => ?_
  have noted := Declared.noteVar r object name
  simp only [Store.declareVar, globals.record]
  split
  · exact ⟨_, _, (globals.define name _).setRecord noted.place,
      noted.trans (.define _ object name rfl)⟩
  · exact ⟨_, _, globals.setRecord noted.place, noted⟩

theorem declares_createLexical (constant : Bool) :
    Declares A e [] [name] (fun r _ => r.bindings.contains name = true)
      (createLexical e name constant) := by
  have table (binding : Binding) (s : Store) (r : GlobalRecord) (object : Object)
      (globals : s.Globals e r object) :
      match s.changeBindings e (Bindings.create · name binding) with
      | .ok change => ∃ r' object', (s.apply change).Globals e r' object' ∧
          Declared [] [name] r object r' object'
      | .error fault => r.bindings.contains name = true ∧ fault.isHostAbort = false := by
    simp only [Store.changeBindings, globals.record, Bindings.create]
    cases absent : r.bindings.contains name with
    | true => exact ⟨rfl, rfl⟩
    | false => exact ⟨_, _, globals.setRecord rfl, .create r object absent binding⟩
  cases constant with
  | true =>
    refine declares_commit (·.createImmutable e name true) (fun _ => rfl)
      fun s r object globals => ?_
    simp only [Store.createImmutable, globals.record]
    exact table _ s r object globals
  | false =>
    refine declares_commit (·.createMutable e name false) (fun _ => rfl)
      fun s r object globals => ?_
    simp only [Store.createMutable, globals.record]
    exact table _ s r object globals

/-! ## All declarations -/

theorem declares_functions (functions : List FunctionNode) :
    Declares A e (functions.filterMap (·.name)) []
      (fun _ object => ∃ name ∈ functions.filterMap (·.name), object.Locked name)
      (declareGlobalFunctions e functions) := by
  induction functions with
  | nil => exact declares_pure
  | cons f rest ih =>
    unfold declareGlobalFunctions
    cases named : f.name with
    | none =>
      rw [List.filterMap_cons_none named]
      exact ih
    | some name =>
      rw [List.filterMap_cons_some named]
      refine Additive.declares (fun _ => createFunction_additive f e {}) fun function => ?_
      refine (declares_declareFunction name (.object function)).andThen ih (by simp) (by simp)
        (fun _ _ h => ⟨name, by simp, h⟩) fun _ _ _ _ before failed => ?_
      obtain ⟨other, mem, h⟩ := failed
      exact ⟨other, List.mem_cons_of_mem _ mem, before.locked other h⟩

theorem declares_vars (names : List String) :
    Declares A e names [] (fun _ _ => False) (declareGlobalVars e names) := by
  induction names with
  | nil => exact declares_pure
  | cons name rest ih =>
    exact (declares_declareVar name).andThen ih (by simp) (by simp) (fun _ _ h => h)
      fun _ _ _ _ _ h => h

theorem declares_lexicals (names : List LexicalName) :
    Declares A e [] (names.map (·.name))
      (fun r _ => ¬ (names.map (·.name)).Nodup ∨
        ∃ name ∈ names.map (·.name), r.bindings.contains name = true)
      (createLexicals e names) := by
  induction names with
  | nil => exact declares_pure
  | cons x rest ih =>
    refine (declares_createLexical x.name x.constant).andThen ih (by simp) (by simp)
      (fun r _ h => .inr ⟨x.name, by simp, h⟩) fun r _ r' _ declared failed => ?_
    rw [List.map_cons, List.nodup_cons]
    rcases failed with twice | ⟨name, mem, found⟩
    · exact .inl fun distinct => twice distinct.2
    · by_cases same : name = x.name
      · exact .inl fun distinct => distinct.1 (same ▸ mem)
      · refine .inr ⟨name, List.mem_cons_of_mem _ mem, ?_⟩
        rwa [Table.contains, declared.created name (by simpa using same)] at found

theorem eval_refuseDeclared (A : Answers σ) (conflicts : Machine σ → String → Bool)
    (names : List String) (m : Machine σ) :
    A.eval (refuseDeclared conflicts names) m = .finished (match names.find? (conflicts m) with
      | some name => .error (.syntaxError (.alreadyDeclared name))
      | none => .ok ()) m := by
  induction names with
  | nil => rfl
  | cons name rest ih =>
    simp only [refuseDeclared, eval_bind, eval_ask, proceed_ok,
      List.find?_cons]
    cases conflict : conflicts m name with
    | true => simp
    | false => simpa using ih

theorem declares_all (declared : BodyScope) :
    Declares A e declared.vars declared.lexicals
      (fun r object => (∃ name ∈ declared.functions.filterMap (·.name), object.Locked name) ∨
        ¬ declared.lexicals.Nodup ∨ ∃ name ∈ declared.lexicals, r.bindings.contains name = true)
      (do
        declareGlobalFunctions e declared.functions
        declareGlobalVars e declared.varNames
        createLexicals e declared.lexical) := by
  have rest : Declares A e declared.varNames declared.lexicals
      (fun r _ => ¬ declared.lexicals.Nodup ∨
        ∃ name ∈ declared.lexicals, r.bindings.contains name = true)
      (do
        declareGlobalVars e declared.varNames
        createLexicals e declared.lexical) := by
    refine (declares_vars _).andThen (declares_lexicals _) (by simp) (by simp [BodyScope.lexicals])
      (fun _ _ h => h.elim) fun r _ r' _ before failed => ?_
    refine failed.imp_right (Exists.imp fun name => And.imp_right fun found => ?_)
    rwa [Table.contains, before.created name List.not_mem_nil] at found
  refine (declares_functions _).andThen rest (by simp [BodyScope.vars]) (by simp)
    (fun _ _ h => .inl h) fun r _ r' _ before failed => .inr ?_
  refine failed.imp_right (Exists.imp fun name => And.imp_right fun found => ?_)
  rwa [Table.contains, before.created name List.not_mem_nil] at found

theorem declareGlobals_fails {declared : BodyScope} {m m₁ : Machine σ} {r : GlobalRecord}
    {object : Object} (globals : m.store.Globals e r object) {fault : Fault}
    (failed : A.eval (declareGlobals e declared) m = .finished (.error fault) m₁) :
    fault.isHostAbort = false ∧ ∃ r' object', m₁.store.Globals e r' object' ∧
      Declared declared.vars declared.lexicals r object r' object' ∧
      (declared.lexicals.Nodup →
        (∀ name ∈ declared.functions.filterMap (·.name), ¬ object.Locked name) →
          r' = r ∧ object' = object) := by
  rw [declareGlobals, eval_bind, eval_refuseDeclared] at failed
  split at failed
  · cases failed
    exact ⟨rfl, r, object, globals, .refl r object, fun _ _ => ⟨rfl, rfl⟩⟩
  · rename_i unknown
    rw [proceed_ok, eval_bind, eval_refuseDeclared] at failed
    split at failed
    · cases failed
      exact ⟨rfl, r, object, globals, .refl r object, fun _ _ => ⟨rfl, rfl⟩⟩
    · obtain ⟨result, m', r', object', run, globals', changed, ends⟩ :=
        declares_all (A := A) declared m r object globals
      cases run.symm.trans failed
      obtain ⟨fails, catchable⟩ := ends fault rfl
      refine ⟨catchable, r', object', globals', changed, fun distinct free => ?_⟩
      rcases fails with ⟨name, mem, locked⟩ | twice | ⟨name, mem, found⟩
      · exact absurd locked (free name mem)
      · exact absurd distinct twice
      · have none := List.find?_eq_none.1 unknown name mem
        simp [globals.hasLexical, found] at none

end Eval

/-- If a script fails while its names are declared then it ends with an exception. Nothing has been
declared then, unless the script declares a lexical name twice, or a function whose name is a locked
property of the global object. -/
theorem failed_declarations {engine : Engine σ} {change : Machine σ → Machine σ → Prop}
    (rooted : ∀ m m', change m m' → m.Rooted → m'.Rooted) {m m₁ : Machine σ}
    (reachable : engine.Reachable change m) (program : Program) {fuel : Nat} {fault : Fault}
    (failed : engine.run fuel (declareGlobals m.realm.globalEnvironment program.scope)
      (program.entered m) = .finished (.error fault) m₁) :
    ∃ v m' r object r' object',
      engine.run fuel (program.run engine.shortcuts) m =
        .finished (.ok (.throwing v (fault.location.getD program.span))) m' ∧
      m.store.Globals m.realm.globalEnvironment r object ∧
      m'.store.Globals m.realm.globalEnvironment r' object' ∧
      Declared program.scope.vars program.scope.lexicals r object r' object' ∧
      (program.scope.lexicals.Nodup →
        (∀ name ∈ program.scope.functions.filterMap (·.name), ¬ object.Locked name) →
          r' = r ∧ object' = object) := by
  obtain ⟨r, object, globals⟩ := reachable.rooted rooted
  rw [engine.run_eq] at failed
  have entered : (program.entered m).store.Globals m.realm.globalEnvironment r object := globals
  obtain ⟨catchable, r', object', globals₁, declared, unchanged⟩ :=
    declareGlobals_fails entered failed
  obtain ⟨v, m₂, thrown, adds, -⟩ := faultValue_additive (A := engine.answers fuel) fault m₁
    (.refl m₁)
  have globals₂ : m₂.store.Globals m.realm.globalEnvironment r' object' := globals₁.adds adds
  refine ⟨v, m₂.pop, r, object, r', object', ?_, globals, globals₂, declared, unchanged⟩
  rw [engine.run_eq, Answers.eval_run, Program.runBody, Answers.eval_handle, Answers.eval_bind,
    failed]
  simp [catchable, thrown]

/-- In a machine where a script has declared `x` by `var`, the script `function f() {} let x;`
declares nothing. -/
theorem failed_declarations_conflict :
    let engine : Engine Unit := {}
    let f : FunctionNode :=
      { name := some "f", parameters := [], body := .block [], arrow := false, generator := false
        strict := false, span := {} }
    let program : Program :=
      { body := [.functionDecl f,
          .declare { kind := .let, declarators := [{ name := "x", init := none }], span := {} }]
        strict := false
        span := {} }
    let r : GlobalRecord := { object := ⟨0⟩, varNames := ["x"] }
    let m : Machine Unit :=
      { Machine.bare with
        store := { heap := ⟨#[{}]⟩, environments := #[{ record := .global r }] } }
    ∃ v m', engine.run 0 (program.run engine.shortcuts) m = .finished (.ok (.throwing v {})) m' ∧
      m'.store.Globals ⟨0⟩ r {} := by
  intro engine f program r m
  have globals : m.store.Globals ⟨0⟩ r {} := ⟨rfl, rfl⟩
  have reachable : engine.Reachable (fun _ m' => m'.Rooted) m :=
    .change (.start {} ()) ⟨r, {}, globals⟩
  have failed : ∃ m₁, engine.run 0 (declareGlobals m.realm.globalEnvironment program.scope)
      (program.entered m) = .finished (.error (.syntaxError (.alreadyDeclared "x"))) m₁ :=
    ⟨_, rfl⟩
  obtain ⟨m₁, failed⟩ := failed
  obtain ⟨v, m', r₀, object₀, r', object', run, before, after, -, unchanged⟩ :=
    failed_declarations (fun _ _ rooted _ => rooted) reachable program failed
  cases before.record
  cases before.object
  obtain ⟨rfl, rfl⟩ := unchanged (by decide) fun name _ locked => by
    obtain ⟨property, found, -⟩ := locked
    cases found
  exact ⟨v, m', run, after⟩

end ScriptEngine
