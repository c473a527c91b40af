import ScriptEngine.Proofs.Pledges.Session
import ScriptEngine.Proofs.References.ObjectChain

/-!
# Machines that a host comes by

A host uses operations on tidy trees. Between them, and also where an operation looks at the
machine, it may rework objects and start other operations.
-/

namespace ScriptEngine

variable {σ α : Type} {once : Bool}

def Machine.Anchored (m : Machine σ) : Prop :=
  ∃ r, (m.store.environment m.realm.globalEnvironment).record = .global r ∧
    r.object = m.realm.global

theorem anchored_kept : Kept fun m m' : Machine σ => m.Anchored → m'.Anchored where
  refl _ anchored := anchored
  trans h₁ h₂ anchored := h₂ (h₁ anchored)
  effect effect m := by
    rintro ⟨r, record, object⟩
    obtain ⟨r', record', same⟩ := (effect.grows m).global record
    refine ⟨r', ?_, ?_⟩
    · rw [realm_kept.effect effect m]
      exact record'
    · rw [realm_kept.effect effect m, same, object]
  scope _ _ h := h
  frame _ h := h

theorem Machine.Anchored.takes {m : Machine σ} (h : m.Anchored) :
    m.store.Takes .script m.realm.globalEnvironment := by
  obtain ⟨r, record, -⟩ := h
  exact ⟨Store.has_of_global record, by rw [record]; rfl, .inl trivial⟩

structure Machine.Reworked (once : Bool) (m m' : Machine σ) : Prop where
  functions : m'.heap.Tidy once
  environments : m'.store.environments = m.store.environments
  generators : m'.generators = m.generators
  stack : m'.stack = m.stack
  realm : m'.realm = m.realm

theorem Machine.reworked_modify {m : Machine σ} (tidy : m.heap.Tidy once) (o : ObjectId)
    {change : Object → Object} (kind : ∀ object, (change object).kind = object.kind) :
    m.Reworked once (m.mapHeap fun h => h.modify o change) := by
  refine ⟨fun o' callable found => ?_, rfl, rfl, rfl, rfl⟩
  have same : ((m.heap.modify o change).get o').kind = (m.heap.get o').kind := by
    rw [Heap.get_modify]
    split
    · rename_i changed
      rw [kind, changed.1]
    · rfl
  have found : ((m.heap.modify o change).get o').callable? = some callable := found
  exact tidy o' callable (by simpa only [Object.callable?, same] using found)

/-- The machines that come up between operations on tidy trees and in the course of them. -/
inductive Engine.Attains (engine : Engine σ) (once : Bool) : Machine σ → Prop where
  | start (options : Options) (host : σ) : engine.Attains once (engine.start options host)
  | operate {α : Type} {m m' : Machine σ} (operation : Operation α) {fuel : Nat}
      {r : Except Fault α} (before : engine.Attains once m) (tidy : operation.Tidy once)
      (ready : operation.Ready m)
      (run : engine.run fuel (operation.evaluate engine) m = .finished r m') :
      engine.Attains once m'
  | look {α : Type} {m m' : Machine σ} (operation : Operation α) (before : engine.Attains once m)
      (tidy : operation.Tidy once) (ready : operation.Ready m)
      (meets : engine.Meets (operation.evaluate engine).run m (.look m')) : engine.Attains once m'
  | rework {m m' : Machine σ} (before : engine.Attains once m) (h : m.Reworked once m') :
      engine.Attains once m'

namespace Machine

variable {m m' : Machine σ}

theorem Tidy.reworked (h : m.Tidy { once }) (reworked : m.Reworked once m') : m'.Tidy { once } := by
  have found (g : GeneratorId) : m'.generator? g = m.generator? g := by
    simp only [Machine.generator?, reworked.generators]
  have scopes (e : EnvironmentId) : m'.store.environment e = m.store.environment e := by
    simp only [Store.environment, reworked.environments]
  have reserved (p : Spot) : m'.store.Reserved once p ↔ m.store.Reserved once p := by
    simp only [Store.Reserved, Store.binding?, scopes]
  refine ⟨h.orderly.congr reworked.generators (by simp only [Machine.links, reworked.stack]),
    fun e b table => h.settled e b (scopes e ▸ table), Nat.zero_le _, reworked.functions,
    by simpa only [found] using h.bodies, fun p g generator hg pledges => ?_,
    by simpa only [found] using h.apart, fun _ => False.elim, Bool.noConfusion⟩
  rw [found] at hg
  exact (h.pledged p g generator hg pledges).imp_left (reserved p).2

theorem Tidy.watching (h : m.Tidy { once }) (functions : Spot → Prop) :
    m.Tidy { once, objects := m.heap.objects.size, functions } :=
  { h with objects := Nat.le_refl _, sealed := nofun, intact := nofun }

end Machine

namespace Engine

variable {engine : Engine σ} {m m' : Machine σ} {operation : Operation α}

theorem tame_of_builtin (builtin : engine.host = []) (W : Watch) : engine.Tame W := by
  intro _ f listed
  rw [builtin] at listed
  cases listed

def watching (once : Bool) (operation : Operation α) (m : Machine σ) : Watch where
  once := once
  objects := m.heap.objects.size
  functions q := q.1 = m.realm.globalEnvironment ∧ q.2 ∈ operation.functionNames

theorem safe_watching (builtin : engine.host = []) (tidy : m.Tidy { once }) (anchored : m.Anchored)
    (trees : operation.Tidy once) (ready : operation.Ready m) (fuel : Nat) :
    (operation.evaluate engine).Safe (Moment.Watched (watching once operation m))
      (engine.promises (Moment.Watched (watching once operation m)) fuel) m
      (m.Operates (watching once operation m) operation.rights) :=
  Operation.operates (promises_fulfilled (tame_of_builtin builtin _) fuel)
    (Operation.Tidy.asks trees rfl) engine (tidy.watching _) ready
    ⟨anchored.takes, nofun, fun _ listed => ⟨rfl, listed⟩⟩

theorem start_anchored (options : Options) (host : σ) : (engine.start options host).Anchored := by
  have scopes := engine.start_environments options host
  have outermost := engine.start_globalEnvironment options host
  generalize engine.start options host = m at scopes outermost
  exact ⟨{ object := m.realm.global }, by simp [Store.environment, scopes, outermost], rfl⟩

theorem Attains.tidy (tame : engine.Tame { once }) (attains : engine.Attains once m) :
    m.Tidy { once } ∧ m.Anchored := by
  have safe {α : Type} {m : Machine σ} {operation : Operation α} (h : m.Tidy { once } ∧ m.Anchored)
      (trees : operation.Tidy once) (ready : operation.Ready m) (fuel : Nat) :=
    Operation.operates (promises_fulfilled tame fuel) (Operation.Tidy.asks trees rfl) engine h.1
      ready ⟨h.2.takes, nofun, fun _ _ => trivial⟩
  induction attains with
  | start options host => exact ⟨engine.start_tidy options host once, start_anchored options host⟩
  | operate operation _ trees ready run ih =>
    exact ⟨(engine.safe_result run (safe ih trees ready _)).tidy, anchored_kept.run engine run ih.2⟩
  | look operation _ trees ready meets ih =>
    have looked := meets.holds engine fun fuel => ⟨_, safe ih trees ready fuel⟩
    exact ⟨looked, meets.look_kept anchored_kept (fun _ _ _ h => h) (fun _ _ h => h) ih.2⟩
  | rework _ h ih =>
    refine ⟨ih.1.reworked h, ?_⟩
    obtain ⟨r, record, object⟩ := ih.2
    exact ⟨r, by simpa only [Store.environment, h.environments, h.realm] using record,
      by rw [h.realm, object]⟩

end Engine

def Operation.Reaches (engine : Engine σ) (operation : Operation α) (m m' : Machine σ) : Prop :=
  (∃ fuel r, engine.run fuel (operation.evaluate engine) m = .finished r m') ∨
    ∃ moment, engine.Meets (operation.evaluate engine).run m moment ∧ m' = moment.machine

end ScriptEngine
