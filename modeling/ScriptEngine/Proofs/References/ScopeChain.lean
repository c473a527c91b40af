import ScriptEngine.Proofs.References.Session

/-!
# Scope chains

In a session each scope lies inside older ones, the oldest of which is the global one
(`scopes_end_at_global`), so that a name or a `this` is found within as many steps as there are
scopes, or not at all.
-/

namespace ScriptEngine

variable {σ α : Type}

inductive Chain (next : α → Option α) : α → List α → Prop where
  | last {a : α} (h : next a = none) : Chain next a [a]
  | step {a b : α} {l : List α} (h : next a = some b) (rest : Chain next b l) :
      Chain next a (a :: l)

namespace Chain

variable {next : α → Option α} {rank : α → Nat} {a b : α} {l : List α}

theorem forall_mem {P : α → Prop} (step : ∀ a b, P a → next a = some b → P b) (h : Chain next a l)
    (start : P a) : ∀ b ∈ l, P b := by
  induction h with
  | last ends => simpa using start
  | step found rest ih => exact List.forall_mem_cons.2 ⟨start, ih (step _ _ start found)⟩

theorem exists_last (h : Chain next a l) : ∃ b ∈ l, l.getLast? = some b ∧ next b = none := by
  induction h with
  | last ends => exact ⟨_, List.mem_cons_self, rfl, ends⟩
  | step _ _ ih =>
    obtain ⟨b, listed, last, ends⟩ := ih
    exact ⟨b, List.mem_cons_of_mem _ listed, by rw [List.getLast?_cons, last]; rfl, ends⟩

section

variable (older : ∀ a b, next a = some b → rank b < rank a)

include older

theorem exists_of_rank (a : α) : ∃ l, Chain next a l := by
  induction rank : rank a using Nat.strongRecOn generalizing a with
  | ind n ih =>
    cases found : next a with
    | none => exact ⟨_, .last found⟩
    | some b =>
      obtain ⟨l, rest⟩ := ih _ (rank ▸ older a b found) b rfl
      exact ⟨_, .step found rest⟩

theorem rank_le (h : Chain next a l) : ∀ b ∈ l, rank b ≤ rank a :=
  h.forall_mem (fun _ _ le found => Nat.le_of_lt (Nat.lt_of_lt_of_le (older _ _ found) le))
    (Nat.le_refl _)

theorem nodup (h : Chain next a l) : l.Nodup := by
  induction h with
  | last => exact List.nodup_cons.2 ⟨List.not_mem_nil, List.nodup_nil⟩
  | step found rest ih =>
    refine List.nodup_cons.2 ⟨fun listed => ?_, ih⟩
    exact Nat.not_lt.2 (rest.rank_le older _ listed) (older _ _ found)

theorem length_le (h : Chain next a l) : l.length ≤ rank a + 1 := by
  induction h with
  | last => exact Nat.le_add_left _ _
  | step found rest ih => exact Nat.succ_le_succ (Nat.le_trans ih (older _ _ found))

end

end Chain

/-! ## Scopes -/

namespace Store

def Chain (s : Store) : EnvironmentId → List EnvironmentId → Prop :=
  ScriptEngine.Chain fun e => (s.environment e).outer

variable {s : Store} {e : EnvironmentId} {scopes : List EnvironmentId}

theorem resolveWithin_chain (chain : s.Chain e scopes) (name : String) {n : Nat}
    (within : scopes.length ≤ n) :
    s.resolveWithin n e name = scopes.find? (s.hasBinding · name) := by
  induction chain generalizing n with
  | last ends =>
    obtain ⟨n, rfl⟩ := Nat.exists_eq_add_one_of_ne_zero (Nat.ne_of_gt within)
    rw [resolveWithin, ends, List.find?_singleton]
    split <;> simp_all
  | step next rest ih =>
    obtain ⟨n, rfl⟩ := Nat.exists_eq_add_one_of_ne_zero
      (Nat.ne_of_gt (Nat.lt_of_lt_of_le (Nat.succ_pos _) within))
    rw [resolveWithin, next, Option.bind_some, ih (Nat.le_of_succ_le_succ within), List.find?_cons]
    split <;> simp_all

theorem thisScopeWithin_chain (chain : s.Chain e scopes)
    (owned : ∀ e ∈ scopes, (s.environment e).outer = none → (s.environment e).hasThis = true)
    {n : Nat} (within : scopes.length ≤ n) :
    scopes.find? (fun e => (s.environment e).hasThis) = some (s.thisScopeWithin n e) := by
  induction chain generalizing n with
  | last ends =>
    obtain ⟨n, rfl⟩ := Nat.exists_eq_add_one_of_ne_zero (Nat.ne_of_gt within)
    rw [List.find?_singleton, thisScopeWithin, owned _ List.mem_cons_self ends]
    rfl
  | @step e outer scopes next rest ih =>
    obtain ⟨n, rfl⟩ := Nat.exists_eq_add_one_of_ne_zero
      (Nat.ne_of_gt (Nat.lt_of_lt_of_le (Nat.succ_pos _) within))
    rw [List.find?_cons, thisScopeWithin, next]
    cases (s.environment e).hasThis with
    | true => rfl
    | false =>
      exact ih (fun e listed => owned e (List.mem_cons_of_mem _ listed))
        (Nat.le_of_succ_le_succ within)

namespace Closed

variable {V : Link → Prop} (closed : s.Closed V)

include closed

theorem older {outer : EnvironmentId} (found : (s.environment e).outer = some outer) :
    outer.index < e.index := by
  by_cases there : s.Has e
  · by_cases inside : e = ⟨0⟩
    · rw [inside, closed.outermost] at found
      cases found
    · obtain ⟨outer', found', older⟩ := closed.nested e there inside
      cases found.symm.trans found'
      exact older
  · rw [environment_of_not_has there] at found
    cases found

theorem has_outer {outer : EnvironmentId} (there : s.Has e)
    (found : (s.environment e).outer = some outer) : s.Has outer :=
  Nat.lt_trans (closed.older found) there

theorem eq_global_of_outermost (there : s.Has e) (outermost : (s.environment e).outer = none) :
    e = ⟨0⟩ := by
  refine Decidable.byContradiction fun inside => ?_
  obtain ⟨outer, found, -⟩ := closed.nested e there inside
  cases outermost.symm.trans found

theorem hasThis (there : s.Has e) (outermost : (s.environment e).outer = none) :
    (s.environment e).hasThis = true := by
  obtain ⟨r, record⟩ := (closed.global e).2 (closed.eq_global_of_outermost there outermost)
  rw [Environment.hasThis, record]

theorem exists_chain (there : s.Has e) : ∃ scopes, s.Chain e scopes ∧ scopes.Nodup ∧
    scopes.length ≤ s.bound ∧ scopes.getLast? = some ⟨0⟩ ∧ ∀ e' ∈ scopes, s.Has e' := by
  have older (e outer : EnvironmentId) (found : (s.environment e).outer = some outer) :
      outer.index < e.index := closed.older found
  obtain ⟨scopes, chain⟩ := Chain.exists_of_rank older e
  have has := chain.forall_mem (fun _ _ there found => closed.has_outer there found) there
  obtain ⟨last, listed, ends, none⟩ := chain.exists_last
  have root := closed.eq_global_of_outermost (has last listed) none
  refine ⟨scopes, chain, chain.nodup older, ?_, root ▸ ends, has⟩
  exact Nat.le_trans (chain.length_le older) (Nat.succ_le_succ (Nat.le_of_lt there))

end Closed

end Store

def ResumePoint.environment? : ResumePoint → Option EnvironmentId
  | .scope environment | .loop _ environment | .switch _ _ environment
  | .tryCatch (.handler environment) => environment
  | .list .. | .branch _ | .tryCatch _ | .yield _ => none

inductive Machine.Mentions (m : Machine σ) : EnvironmentId → Prop where
  | lexical {frame : Frame} (listed : frame ∈ m.stack.frames) : m.Mentions frame.lexical
  | varScope {frame : Frame} (listed : frame ∈ m.stack.frames) : m.Mentions frame.varScope
  | parkedLexical {g : GeneratorId} {generator : Generator} {frame : Frame}
      (found : m.generator? g = some generator) (parked : generator.frame = some frame) :
      m.Mentions frame.lexical
  | parkedVarScope {g : GeneratorId} {generator : Generator} {frame : Frame}
      (found : m.generator? g = some generator) (parked : generator.frame = some frame) :
      m.Mentions frame.varScope
  | record {g : GeneratorId} {generator : Generator} {point : ResumePoint} {e : EnvironmentId}
      (found : m.generator? g = some generator) (listed : point ∈ generator.resumePoints)
      (named : point.environment? = some e) : m.Mentions e
  | body {g : GeneratorId} {generator : Generator} (found : m.generator? g = some generator) :
      m.Mentions generator.closure.environment
  | function {o : ObjectId} {closure : Closure}
      (kind : (m.heap.get o).callable? = some (.script closure) ∨
        (m.heap.get o).callable? = some (.generator closure)) : m.Mentions closure.environment
  | outer {e outer : EnvironmentId} (found : (m.store.environment e).outer = some outer) :
      m.Mentions outer

theorem linked_environment? {V : Link → Prop} {point : ResumePoint} {e : EnvironmentId}
    (known : Linked V point) (named : point.environment? = some e) : V (.inner e) := by
  unfold ResumePoint.environment? at named
  split at named
  all_goals simp_all

namespace Machine

variable {m : Machine σ} {e : EnvironmentId}

theorem Closed.has_of_mentions (closed : m.Closed) (mentioned : m.Mentions e) : m.store.Has e := by
  cases mentioned with
  | lexical listed => exact has_lexical (closed.frames _ listed)
  | varScope listed => exact (linked_frame.1 (closed.frames _ listed)).2.1
  | parkedLexical found parked => 
      have known := (linked_generator.1 (closed.generators _ _ found)).1
      rw [parked] at known
      exact has_lexical known
  | parkedVarScope found parked =>
    have known := (linked_generator.1 (closed.generators _ _ found)).1
    rw [parked] at known
    exact (linked_frame.1 known).2.1
  | record found listed named =>
    have known := (linked_generator.1 (closed.generators _ _ found)).2.2.2.1
    exact (linked_environment? (linked_list_iff.1 known _ listed) named).1
  | body found =>
    exact (linked_closure.1 (linked_generator.1 (closed.generators _ _ found)).2.2.1).1
  | function kind =>
    obtain kind | kind := kind
    · exact (linked_closure.1 (closed.store.heap.callable? kind)).1
    · exact (linked_closure.1 (closed.store.heap.callable? kind)).1
  | @outer e _ found =>
    have known := closed.store.outer e
    rw [found] at known
    exact linked_environmentId.1 (linked_some.1 known)

end Machine

/-- The way outward from a scope that something refers to passes no scope twice and ends at the global
one, which is the only one of its kind. A look-up that may take at least as many steps as there are
scopes finds the first of these with the name, and a `this` is always found. -/
theorem scopes_end_at_global {engine : Engine σ} (host : engine.Discreet) {m : Machine σ}
    (visits : engine.Visits m) {e : EnvironmentId} (mentioned : m.Mentions e) :
    (∀ e', (∃ r, (m.store.environment e').record = .global r) ↔ e' = m.realm.globalEnvironment) ∧
    ∃ scopes, m.store.Chain e scopes ∧ scopes.Nodup ∧
      scopes.getLast? = some m.realm.globalEnvironment ∧ (∀ e' ∈ scopes, m.store.Has e') ∧
      (∀ n name, m.store.bound ≤ n →
        m.store.resolveWithin n e name = scopes.find? (m.store.hasBinding · name)) ∧
      (∀ n, m.store.bound ≤ n → scopes.find? (fun e' => (m.store.environment e').hasThis) =
        some (m.store.thisScopeWithin n e)) ∧
      (m.store.environment (m.store.thisScope e)).hasThis = true := by
  have closed := visits.closed host
  obtain ⟨scopes, chain, nodup, length, last, has⟩ :=
    closed.store.exists_chain (closed.has_of_mentions mentioned)
  have this {n : Nat} (le : m.store.bound ≤ n) :=
    Store.thisScopeWithin_chain chain (fun e listed => closed.store.hasThis (has e listed))
      (Nat.le_trans length le)
  have found := List.find?_some (p := fun e' => (m.store.environment e').hasThis)
    (this (Nat.le_refl _))
  rw [closed.root]
  exact ⟨closed.store.global, scopes, chain, nodup, last, has,
    fun n name le => Store.resolveWithin_chain chain name (Nat.le_trans length le),
    fun n le => this le, found⟩

/-- The function was made in the first scope that was opened. -/
def Heap.declaredInBlock (h : Heap) : Bool :=
  match (h.get ⟨25⟩).callable? with
  | some (.script closure) => closure.environment = ⟨1⟩
  | _ => false

/-- The function that the script `{ function f() {} }` leaves behind lives in the scope of the block,
and the way from there ends at the global scope. -/
theorem scopes_end_at_global_block :
    let engine : Engine Unit := {}
    let f : FunctionNode :=
      { name := some "f", parameters := [], body := .block [], arrow := false, generator := false,
        strict := false, span := {} }
    let script : Operation Value := .eval
      { body := [.block [.functionDecl f] {}], strict := false, span := {} }
    ∃ r m, engine.run 0 (script.evaluate engine) (engine.start {} ()) = .finished r m ∧
      m.Mentions ⟨1⟩ ∧ ∃ scopes, m.store.Chain ⟨1⟩ scopes ∧ scopes.Nodup ∧
        scopes.getLast? = some m.realm.globalEnvironment := by
  intro engine f script
  have made : (engine.run 0 (script.evaluate engine) (engine.start {} ())).satisfies
      (fun _ m => m.heap.declaredInBlock) = true := by
    decide +kernel
  obtain ⟨r, m, run, made⟩ := Outcome.satisfies_iff.1 made
  unfold Heap.declaredInBlock at made
  split at made
  · rename_i closure kind
    have mentioned : m.Mentions ⟨1⟩ := of_decide_eq_true made ▸ .function (.inl kind)
    have visits : engine.Visits m :=
      ⟨{}, (), m, .operate script (.refl _) (List.forall_mem_nil _) run, .inl rfl⟩
    obtain ⟨-, scopes, chain, nodup, last, -⟩ :=
      scopes_end_at_global (fun _ listed => by cases listed) visits mentioned
    exact ⟨r, m, run, mentioned, scopes, chain, nodup, last⟩
  · cases made

end ScriptEngine
