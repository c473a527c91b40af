import ScriptEngine.Proofs.Pledges.Session

/-!
# The two kinds of global names

Scripts are checked against the names of earlier scripts before they declare anything, so that no
name is declared both lexically and otherwise if no script does so (`global_names_disjoint`).
-/

namespace ScriptEngine

open Eval

variable {σ α : Type}

def Program.separate (program : Program) : Bool :=
  program.scope.lexicals.all fun name => !program.scope.vars.contains name

/-- The operation is about tidy trees, and scripts keep the two kinds of names apart. -/
def Operation.Separate : Operation α → Prop
  | .run program | .eval program => program.tidy false = true ∧ program.separate = true
  | operation => operation.Tidy false

theorem Operation.Separate.tidy {operation : Operation α} (h : operation.Separate) :
    operation.Tidy false := by
  cases operation with
  | run program | eval program => exact h.1
  | _ => exact h

def GlobalRecord.Disjoint (r : GlobalRecord) : Prop :=
  ∀ name ∈ r.varNames, r.bindings.contains name = false

def Machine.Disjoint (m : Machine σ) : Prop :=
  ∀ name, m.store.hasVar m.realm.globalEnvironment name = true →
    m.store.hasLexical m.realm.globalEnvironment name = false

/-- An earlier script has declared the name in such a way that this one must not declare it. -/
def Program.Conflicts (program : Program) (m : Machine σ) (name : String) : Prop :=
  name ∈ program.scope.lexicals ∧
      (m.store.hasVar m.realm.globalEnvironment name = true ∨
        m.store.hasLexical m.realm.globalEnvironment name = true) ∨
    name ∈ program.scope.vars ∧ m.store.hasLexical m.realm.globalEnvironment name = true

theorem Store.Globals.disjoint_iff {m : Machine σ} {r : GlobalRecord} {object : Object}
    (h : m.store.Globals m.realm.globalEnvironment r object) : m.Disjoint ↔ r.Disjoint := by
  simp only [Machine.Disjoint, GlobalRecord.Disjoint, h.hasVar, h.hasLexical, List.contains_iff_mem]

theorem Declared.disjoint {vars lexical : List String} {r r' : GlobalRecord}
    {object object' : Object} (h : Declared vars lexical r object r' object')
    (disjoint : r.Disjoint) (fresh : ∀ name ∈ lexical, name ∉ r.varNames ∧ name ∉ vars)
    (unbound : ∀ name ∈ vars, r.bindings.contains name = false) : r'.Disjoint := by
  intro name noted
  have before := h.noted name noted
  by_cases listed : name ∈ lexical
  · obtain ⟨old, other⟩ := fresh name listed
    exact (before.elim old other).elim
  · rw [Table.contains, h.created name listed]
    exact before.elim (disjoint name) (unbound name)

namespace Eval

variable {A : Answers σ} {e : EnvironmentId} {declared : BodyScope} {m m₁ : Machine σ}
  {r : GlobalRecord} {object : Object}

theorem declareGlobals_disjoint (globals : m.store.Globals e r object) (disjoint : r.Disjoint)
    (separate : ∀ name ∈ declared.lexicals, name ∉ declared.vars) {result : Except Fault Unit}
    (run : A.eval (declareGlobals e declared) m = .finished result m₁) :
    ∃ r' object', m₁.store.Globals e r' object' ∧ r'.Disjoint := by
  rw [declareGlobals, eval_bind, eval_refuseDeclared] at run
  split at run
  · cases run
    exact ⟨r, object, globals, disjoint⟩
  · rename_i fresh
    rw [proceed_ok, eval_bind, eval_refuseDeclared] at run
    split at run
    · cases run
      exact ⟨r, object, globals, disjoint⟩
    · rename_i unbound
      obtain ⟨_, m', r', object', run', globals', changed, -⟩ :=
        declares_all (A := A) declared m r object globals
      cases run'.symm.trans run
      refine ⟨r', object', globals', changed.disjoint disjoint (fun name listed => ?_)
        fun name listed => ?_⟩
      · have none := List.find?_eq_none.1 fresh name listed
        simp only [globals.hasVar, Bool.or_eq_true, List.contains_iff_mem, not_or] at none
        exact ⟨none.1.1, separate name listed⟩
      · have none := List.find?_eq_none.1 unbound name listed
        simpa [globals.hasLexical] using none

theorem declareGlobals_refuses {name : String}
    (conflict : name ∈ declared.lexicals ∧
        (m.store.hasVar e name = true ∨ m.store.hasLexical e name = true) ∨
      name ∈ declared.vars ∧ m.store.hasLexical e name = true) :
    ∃ other ∈ declared.lexicals ++ declared.vars, A.eval (declareGlobals e declared) m =
      .finished (.error (.syntaxError (.alreadyDeclared other))) m := by
  rw [declareGlobals, eval_bind, eval_refuseDeclared]
  split
  · rename_i other found
    exact ⟨other, List.mem_append_left _ (List.mem_of_find?_eq_some found), rfl⟩
  · rename_i fresh
    rw [proceed_ok, eval_bind, eval_refuseDeclared]
    split
    · rename_i other found
      exact ⟨other, List.mem_append_right _ (List.mem_of_find?_eq_some found), rfl⟩
    · rename_i unbound
      rcases conflict with ⟨listed, taken⟩ | ⟨listed, taken⟩
      · have none := List.find?_eq_none.1 fresh name listed
        rcases taken with taken | taken <;> simp [taken] at none
      · have none := List.find?_eq_none.1 unbound name listed
        simp [taken] at none

end Eval

/-! ## Scripts -/

theorem Program.runBody_cases {A : Answers σ} {shortcuts : Bool} {program : Program}
    {scope : EnvironmentId} {m m' : Machine σ} {r : Except Fault Completion}
    (run : A.eval (program.runBody shortcuts scope) m = .finished r m') :
    ∃ result m₁ m₂, A.eval (declareGlobals scope program.scope) m = .finished result m₁ ∧
      m₂.Adds m' ∧ match result with
        | .ok _ => ∃ r₂, A.eval (evalStatements shortcuts program.body) m₁ = .finished r₂ m₂
        | .error _ => m₂ = m₁ := by
  have settled {fault : Fault} {m₂ : Machine σ}
      (run : A.eval (if fault.isHostAbort then throw fault else do
          let v ← faultValue fault
          pure (.throwing v (fault.location.getD program.span)) : Eval σ Completion) m₂ =
        .finished r m') : m₂.Adds m' := by
    split at run
    · cases run
      exact .refl _
    · obtain ⟨v, m₃, thrown, adds, -⟩ := faultValue_additive (A := A) fault m₂ (.refl m₂)
      rw [eval_bind, thrown, proceed_ok] at run
      cases run
      exact adds
  rw [Program.runBody, eval_handle, eval_bind, andThen_eq_finished] at run
  obtain ⟨r₂, m₂, body, run⟩ := run
  rw [Outcome.proceed, andThen_eq_finished] at body
  obtain ⟨result, m₁, first, rest⟩ := body
  refine ⟨result, m₁, m₂, first, ?_, ?_⟩
  · cases r₂ with
    | ok completion =>
      cases run
      exact .refl _
    | error fault => exact settled run
  · cases result with
    | ok u => exact ⟨r₂, rest⟩
    | error fault =>
      cases rest
      rfl

theorem Store.KeepsName.disjoint {s s' : Store} {e : EnvironmentId} {name : String}
    (h : s.KeepsName (e, name) s')
    (disjoint : s.hasVar e name = true → s.hasLexical e name = false) :
    s'.hasVar e name = true → s'.hasLexical e name = false := by
  rw [hasVar_eq, hasLexical_eq] at disjoint ⊢
  intro var
  have unbound := disjoint (h.var var)
  refine Bool.eq_false_iff.2 fun lexical => ?_
  simp [h.lexical lexical] at unbound

section

variable {engine : Engine σ} (harmless : engine.Harmless false) {m m' : Machine σ}
  (rests : m.Rests { once := false }) (disjoint : m.Disjoint) {fuel : Nat}

include harmless rests disjoint

theorem Program.run_disjoint {program : Program} (tidy : program.tidy false = true)
    (separate : program.separate = true) {r : Except Fault Completion}
    (run : engine.run fuel (program.run engine.shortcuts) m = .finished r m') : m'.Disjoint := by
  have realm : m'.realm = m.realm := realm_kept.run engine run
  obtain ⟨record, object, globals⟩ := rests.rooted
  rw [engine.run_eq, Answers.eval_run, andThen_eq_finished] at run
  obtain ⟨r₀, m₃, run, popped⟩ := run
  cases popped
  obtain ⟨result, m₁, m₂, declared, adds, rest⟩ := Program.runBody_cases run
  have entered : (program.entered m).store.Globals m.realm.globalEnvironment record object := globals
  obtain ⟨record₁, object₁, globals₁, disjoint₁⟩ := declareGlobals_disjoint entered
    (globals.disjoint_iff.1 disjoint) (by simpa [Program.separate] using separate) declared
  intro name
  have first (var : m₁.store.hasVar m.realm.globalEnvironment name = true) :
      m₁.store.hasLexical m.realm.globalEnvironment name = false := by
    rw [globals₁.hasVar, List.contains_iff_mem] at var
    rw [globals₁.hasLexical]
    exact disjoint₁ name var
  have second : m₁.store.KeepsName (m.realm.globalEnvironment, name) m₂.store := by
    cases result with
    | error fault =>
      cases rest
      exact .refl _ _
    | ok u =>
      obtain ⟨r₂, run⟩ := rest
      have kept := Engine.promises_fulfilled harmless.tame fuel
      have asks : Watch.Asks { once := false } (program.tidy false) program.wellFormed := ⟨tidy, nofun⟩
      have start : (program.entered m).Tidy { once := false } := by
        refine Machine.Tidy.push ?_ rfl nofun
        exact rests.tidy.adjusted ⟨rfl, rfl, rfl, rfl⟩
      have spares := engine.safe_result declared (honest_declared kept asks _ (program.entered m)
        start ⟨⟨rests.rooted.takes, nofun, fun _ _ => trivial⟩, rfl, rfl⟩)
      have body := engine.safe_result run (honest_evalStatements kept engine.shortcuts
        (Program.asks_body asks) _ m₁ spares.1.tidy (spares.2 _ rfl))
      exact body.1.honors.names _ id (Store.has_of_global globals₁.record)
  have same : m₃.store.environment m.realm.globalEnvironment =
      m₂.store.environment m.realm.globalEnvironment := by
    rw [Store.environment, adds.environments]
    rfl
  rw [realm]
  change m₃.store.hasVar _ name = true → m₃.store.hasLexical _ name = false
  rw [Store.hasVar_eq, Store.hasLexical_eq, same, ← Store.hasVar_eq, ← Store.hasLexical_eq]
  exact second.disjoint first

theorem Operation.keeps_disjoint {operation : Operation α} (separate : operation.Separate)
    {r : Except Fault α} (run : engine.run fuel (operation.evaluate engine) m = .finished r m') :
    m'.Disjoint := by
  have other (refused : ¬ operation.rights.declare) : m'.Disjoint := by
    intro name
    have realm : m'.realm = m.realm := realm_kept.run engine run
    obtain ⟨record, object, globals⟩ := rests.rooted
    have operates := engine.safe_result run (Engine.safe_operation harmless.tame (fun _ => trivial)
      rests (separate.tidy.asks rfl) fuel)
    rw [realm]
    exact (operates.honors.names _ refused (Store.has_of_global globals.record)).disjoint
      (disjoint name)
  cases operation with
  | run program => exact program.run_disjoint harmless rests disjoint separate.1 separate.2 run
  | eval program =>
    rw [engine.run_eq, Operation.evaluate, Program.eval, eval_bind, Outcome.proceed,
      andThen_eq_finished] at run
    obtain ⟨result, m₁, run, rest⟩ := run
    have ended : m₁ = m' := by
      cases result with
      | error fault =>
        cases rest
        rfl
      | ok completion =>
        dsimp only at rest
        split at rest <;> cases rest <;> rfl
    exact ended ▸ program.run_disjoint harmless rests disjoint separate.1 separate.2 run
  | _ => exact other id

end

theorem Program.run_refused (engine : Engine σ) (program : Program) {m : Machine σ} {name : String}
    (conflict : program.Conflicts m name) (fuel : Nat) :
    ∃ v m', ∃ other ∈ program.scope.lexicals ++ program.scope.vars,
      engine.run fuel (program.run engine.shortcuts) m =
        .finished (.ok (.throwing v program.span)) m' ∧
      m'.Raised .syntaxError ("Identifier '" ++ other ++ "' has already been declared") v ∧
      m.Adds m' := by
  obtain ⟨other, listed, refused⟩ := declareGlobals_refuses (A := engine.answers fuel)
    (m := program.entered m) conflict
  obtain ⟨v, m₁, thrown, adds, -, -, raised⟩ := createError_raises (A := engine.answers fuel)
    .syntaxError (SyntaxIssue.message (.alreadyDeclared other)) (program.entered m)
  refine ⟨v, m₁.pop, other, listed, ?_, raised, adds.size, adds.objects,
    adds.environments, adds.generators⟩
  rw [engine.run_eq, Answers.eval_run, Program.runBody, eval_handle, eval_bind,
    refused]
  simp [Fault.isHostAbort, faultValue, thrown, Fault.location]

theorem Engine.start_disjoint (engine : Engine σ) (options : Options) (host : σ) :
    (engine.start options host).Disjoint := by
  intro name var
  rw [Store.hasVar_eq, engine.start_globalEnvironment, Store.environment,
    engine.start_environments] at var
  simp [Record.hasVar] at var

theorem Engine.Session.disjoint {engine : Engine σ} (harmless : engine.Harmless false)
    {m m' : Machine σ} (session : engine.Session (fun _ operation => operation.Separate) m m')
    (rests : m.Rests { once := false }) (start : m.Disjoint) : m'.Disjoint := by
  induction session with
  | refl => exact start
  | operate operation before h run ih =>
    exact operation.keeps_disjoint harmless (before.rests harmless.tame (fun _ => trivial)
      (fun _ _ h => h.tidy.asks rfl) rests) (ih rests start) h run
  | adjust _ h ih =>
    have disjoint := ih rests start
    rw [Machine.Disjoint, h.store, h.realm]
    exact disjoint

/-- The scripts of a session keep the two kinds of global names apart if none of them declares a name
in both ways, whatever else they do and however they end. A script that declares lexically what an
earlier one has declared, or in another way what an earlier one has declared lexically, ends with a
syntax error and declares nothing. -/
theorem global_names_disjoint {engine : Engine σ} (harmless : engine.Harmless false)
    {options : Options} {host : σ} {m : Machine σ}
    (session : engine.Session (fun _ operation => operation.Separate) (engine.start options host) m) :
    m.Disjoint ∧ ∀ (program : Program) (name : String), program.Conflicts m name → ∀ fuel,
      ∃ v m', ∃ other ∈ program.scope.lexicals ++ program.scope.vars,
        engine.run fuel (program.run engine.shortcuts) m =
          .finished (.ok (.throwing v program.span)) m' ∧
        m'.Raised .syntaxError ("Identifier '" ++ other ++ "' has already been declared") v ∧
        m.Adds m' :=
  ⟨session.disjoint harmless (engine.start_rests options host false)
    (engine.start_disjoint options host),
    fun program _ conflict => program.run_refused engine conflict⟩

/-- After the script `var x;` the script `let x;` is refused, and there is no lexical `x`. -/
theorem global_names_disjoint_var :
    let engine : Engine Unit := {}
    let script (kind : VariableKind) : Program :=
      { body := [.declare { kind, declarators := [{ name := "x", init := none }], span := {} }]
        strict := false
        span := {} }
    let first : Operation Completion := .run (script .var)
    ∃ r m v m', engine.run 0 (first.evaluate engine) (engine.start {} ()) = .finished r m ∧
      m.store.hasVar ⟨0⟩ "x" = true ∧ m.store.hasLexical ⟨0⟩ "x" = false ∧
      engine.run 0 ((script .let).run engine.shortcuts) m = .finished (.ok (.throwing v {})) m' ∧
      m'.Raised .syntaxError "Identifier 'x' has already been declared" v ∧ m.Adds m' := by
  intro engine script first
  have declared : (match engine.run 0 (first.evaluate engine) (engine.start {} ()) with
      | .finished _ m => m.store.hasVar ⟨0⟩ "x"
      | .exhausted => false) = true := by
    decide +kernel
  split at declared
  · rename_i r m run
    have session : engine.Session (fun _ operation => operation.Separate) (engine.start {} ()) m :=
      .operate first (.refl _) ⟨rfl, rfl⟩ run
    have outermost : m.realm.globalEnvironment = ⟨0⟩ := by
      rw [realm_kept.run engine run]
      exact engine.start_globalEnvironment {} ()
    have conflict : (script .let).Conflicts m "x" :=
      .inl ⟨List.mem_singleton.2 rfl, .inl (outermost ▸ declared)⟩
    obtain ⟨disjoint, refused⟩ := global_names_disjoint (fun _ listed => by cases listed) session
    obtain ⟨v, m', other, listed, run', raised, adds⟩ := refused _ _ conflict 0
    obtain rfl := List.mem_singleton.1 listed
    exact ⟨r, m, v, m', run, declared, outermost ▸ disjoint "x" (outermost ▸ declared), run', raised,
      adds⟩
  · cases declared

/-- The script `var x; let x;` is accepted, although it declares `x` in both ways. -/
example :
    let engine : Engine Unit := {}
    let declare (kind : VariableKind) : Stmt :=
      .declare { kind, declarators := [{ name := "x", init := none }], span := {} }
    let program : Program := { body := [declare .var, declare .let], strict := false, span := {} }
    (match engine.run 0 (program.run engine.shortcuts) (engine.start {} ()) with
      | .finished _ m => m.store.hasVar ⟨0⟩ "x" && m.store.hasLexical ⟨0⟩ "x"
      | .exhausted => false) = true := by
  decide +kernel

end ScriptEngine
