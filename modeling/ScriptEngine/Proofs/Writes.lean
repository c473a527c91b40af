import ScriptEngine.Proofs.Assignments
import ScriptEngine.Proofs.References.Machine
import ScriptEngine.Proofs.Spots

/-!
# Strict code loses no write

In strict code an assignment either fails and changes nothing, or it changes the one binding or own
property that its target stands for, and a read gives the new value.
-/

namespace ScriptEngine

variable {σ : Type}

open Eval

inductive Slot where
  | binding (spot : Spot)
  | property (o : ObjectId) (key : String)

namespace Heap

variable {h : Heap} {o o' : ObjectId} {key key' : String} {p : Property} {v : Value}

theorem getOwn?_define (bound : o.index < h.objects.size) : (h.define o key p).getOwn? o' key' =
    if o' = o ∧ key' = key then some p else h.getOwn? o' key' := by
  rw [getOwn?, define, get_modify, getOwn?]
  by_cases same : o' = o
  · subst same
    simp [bound, Object.define, Table.find?_insert]
  · simp [same]

theorem getProperty?_own (found : h.getOwn? o key = some p) :
    h.getProperty? o key = some p.value := by
  rw [getProperty?, lookup, bound, lookupWithin, found]
  rfl

theorem bound_of_hasProperty (has : h.hasProperty o key = true) : o.index < h.objects.size := by
  refine Nat.lt_of_not_le fun beyond => ?_
  simp [hasProperty, lookup, bound, lookupWithin, getOwn?, get_of_size_le beyond, Table.find?,
    Table.empty, Table.findIn] at has

theorem assigned?_value (h' : h.assigned? o key v = some p) : p.value = v := by
  unfold assigned? at h'
  split at h'
  · cases h'
    split <;> rfl
  · cases h'

end Heap

theorem Bindings.assign_strict {b b' : Bindings} {name : String} {v : Value}
    (h : Bindings.assign b name v true = .ok b') :
    ∃ binding, b.find? name = some binding ∧ binding.initialized = true ∧
      b' = b.insert name { binding with value := v } := by
  unfold Bindings.assign at h
  split at h
  · cases h
  · rename_i binding found
    refine ⟨binding, found, ?_⟩
    grind

namespace Store

variable {s : Store} {e : EnvironmentId} {name : String} {v : Value} {change : Change}

def slot (s : Store) (e : EnvironmentId) (name : String) : Slot :=
  match (s.environment e).record with
  | .global r => if r.bindings.contains name then .binding (e, name) else .property r.object name
  | .object o _ => .property o name
  | _ => .binding (e, name)

def content? (s : Store) : Slot → Option (Binding ⊕ Property)
  | .binding spot => (s.binding? spot).map .inl
  | .property o key => (s.heap.getOwn? o key).map .inr

theorem define_assigned {o : ObjectId} {key : String} {p : Property}
    (bound : o.index < s.heap.objects.size) (assigned : s.heap.assigned? o key v = some p) :
    (s.heap.define o key p).getProperty? o key = some v ∧ ∀ other ≠ .property o key,
      content? { s with heap := s.heap.define o key p } other = s.content? other := by
  have own : (s.heap.define o key p).getOwn? o key = some p := by
    rw [Heap.getOwn?_define bound, if_pos ⟨rfl, rfl⟩]
  refine ⟨Heap.assigned?_value assigned ▸ Heap.getProperty?_own own, fun other different => ?_⟩
  cases other with
  | binding spot => rfl
  | property o' key' =>
    refine congrArg (Option.map Sum.inr) ((Heap.getOwn?_define bound).trans (if_neg ?_))
    rintro ⟨rfl, rfl⟩
    exact different rfl

theorem assignProperty_strict {o : ObjectId} (h : s.assignProperty o name v true = .ok change) :
    (s.apply change).environment = s.environment ∧
      (s.apply change).heap.getProperty? o name = some v ∧
      ∀ other ≠ .property o name, (s.apply change).content? other = s.content? other := by
  unfold assignProperty at h
  split at h
  · cases h
  · rename_i present
    have has : s.heap.hasProperty o name = true := by
      simpa using present
    split at h
    · rename_i p assigned
      cases h
      exact ⟨rfl, define_assigned (Heap.bound_of_hasProperty has) assigned⟩
    · cases h

theorem getBinding_of_binding? {b : Binding} (found : s.binding? (e, name) = some b)
    (initialized : b.initialized = true) (strict : Bool) :
    s.getBinding e name strict = .ok b.value := by
  unfold binding? Record.binding? at found
  unfold getBinding
  cases record : (s.environment e).record with
  | object o isWith => simp [record, Record.table?] at found
  | declarative t | function r =>
    simp only [record, Record.table?, Option.bind_some] at found
    simp [Bindings.get, found, initialized]
  | global r =>
    simp only [record, Record.table?, Option.bind_some] at found
    simp [Bindings.get, found, initialized, Table.contains]

theorem changeBindings_strict (table : (s.environment e).record.table?.isSome = true)
    (h : s.changeBindings e (fun b => Bindings.assign b name v true) = .ok change) :
    (s.apply change).getBinding e name true = .ok v ∧
      ∀ other ≠ .binding (e, name), (s.apply change).content? other = s.content? other := by
  obtain ⟨b, before⟩ := Option.isSome_iff_exists.1 table
  obtain ⟨b', record, assigned, after, rfl⟩ := changeBindings_eq_ok before h
  obtain ⟨binding, found, initialized, rfl⟩ := Bindings.assign_strict assigned
  have held : s.binding? (e, name) = some binding := by
    rw [binding?, Record.binding?, before]
    exact found
  have has : s.Has e := has_of_binding? held
  have now (key : String) : (s.apply (.ofRecord e record)).binding? (e, key) =
      if key = name then some { binding with value := v } else b.find? key := by
    simp [binding?, environment_apply s _ has, Change.ofRecord, Record.binding?, after,
      Table.find?_insert]
  refine ⟨getBinding_of_binding? ((now name).trans (if_pos rfl)) initialized true, ?_⟩
  intro other different
  cases other with
  | property o key => rfl
  | binding spot =>
    obtain ⟨e', key⟩ := spot
    refine congrArg (Option.map Sum.inl) ?_
    by_cases same : e' = e
    · subst same
      have other : key ≠ name := fun same => different (same ▸ rfl)
      rw [now, if_neg other, binding?, Record.binding?, before]
      rfl
    · have elsewhere : (s.apply (.ofRecord e record)).environment e' = s.environment e' := by
        have index : e.index ≠ e'.index := fun h => same (congrArg EnvironmentId.mk h.symm)
        simp [apply, Change.ofRecord, setRecord, environment, Array.getD_eq_getD_getElem?,
          Array.getElem?_modify, index]
      rw [binding?, binding?, elsewhere]

theorem assign_strict (h : s.assign e name v true = .ok change) :
    (s.apply change).getBinding e name true = .ok v ∧
      ∀ other ≠ s.slot e name, (s.apply change).content? other = s.content? other := by
  unfold assign at h
  unfold slot
  cases record : (s.environment e).record with
  | declarative | function =>
    simp only [record] at h ⊢
    exact changeBindings_strict (by rw [record]; rfl) h
  | object o isWith =>
    simp only [record] at h ⊢
    obtain ⟨environment, now, others⟩ := assignProperty_strict h
    refine ⟨?_, others⟩
    rw [getBinding, environment]
    simp [record, readProperty, now]
  | global r =>
    simp only [record] at h ⊢
    split at h
    · rename_i held
      rw [if_pos held]
      exact changeBindings_strict (by rw [record]; rfl) h
    · rename_i missing
      rw [if_neg missing]
      obtain ⟨environment, now, others⟩ := assignProperty_strict h
      refine ⟨?_, others⟩
      rw [getBinding, environment]
      simp [record, readProperty, now, missing]

end Store

namespace Place

def load : Place → Eval σ Value
  | .name r => askFor (·.getReference r)
  | .member base key => getMember base key

def slot? (s : Store) : Place → Option Slot
  | .name r => r.base.map (s.slot · r.name)
  | .member (.object o) key => some (.property o key)
  | .member .. => none

def Valid (m : Machine σ) : Place → Prop
  | .name r => r.strict = true
  | .member base _ => m.Knows base

end Place

def Machine.DiffersAt (m : Machine σ) (slot : Slot) (m' : Machine σ) : Prop :=
  m' = { m with store := m'.store } ∧
    ∀ other ≠ slot, m'.store.content? other = m.store.content? other

/-- Storing to a place in strict code fails and changes nothing, or it succeeds and only the slot of
the place is changed, which then reads as the value. -/
theorem strict_store_kept (engine : Engine σ) (fuel : Nat) {m : Machine σ}
    (strict : m.strict = true) {p : Place} (valid : p.Valid m) (v : Value) :
    (∃ fault, engine.run fuel (p.store v) m = .finished (.error fault) m) ∨
      ∃ slot m', p.slot? m.store = some slot ∧ m.DiffersAt slot m' ∧
        engine.run fuel (p.store v) m = .finished (.ok ()) m' ∧
        engine.run fuel p.load m' = .finished (.ok v) m' := by
  simp only [engine.run_eq]
  cases p with
  | name r =>
      obtain ⟨base, name, _⟩ := r
      cases valid
      cases base with
      | none => exact .inl ⟨_, rfl⟩
      | some e =>
          simp only [Place.store, putReference, Answers.eval_attempt, Effect.apply, Machine.onStore]
          cases assigned : m.store.assign e name v true with
          | error fault => exact .inl ⟨fault, rfl⟩
          | ok change =>
              obtain ⟨now, others⟩ := Store.assign_strict assigned
              exact .inr ⟨_, _, rfl, ⟨rfl, others⟩, rfl, congrArg (Outcome.finished · _) now⟩
  | member base key =>
      cases base with
      | undefined | null => exact .inl ⟨_, rfl⟩
      | boolean | number | string =>
          apply Or.inl
          simp [Place.store, setMember, strict]
      | object o =>
          have bound : o.index < m.heap.objects.size := valid (.object o) (.head _)
          have written : (Effect.write o key v).apply m = ((m.heap.write o key v).1,
              { m with store := { m.store with heap := (m.heap.write o key v).2 } }) := rfl
          cases assigned : m.heap.assigned? o key v with
          | none =>
              rw [Heap.write, assigned] at written
              have refused : (Effect.write o key v).apply m = (false, m) := written
              apply Or.inl
              simp [Place.store, setMember, refused, strict]
          | some p =>
              rw [Heap.write, assigned] at written
              obtain ⟨now, others⟩ := Store.define_assigned bound assigned
              refine .inr ⟨_, { m with store := { m.store with heap := m.heap.define o key p } },
                rfl, ⟨rfl, others⟩, ?_, ?_⟩
              · simp [Place.store, setMember, written]
              · simp [Place.load, getMember, Heap.getProperty, Machine.heap, now]

/-- A property is added to an empty object. -/
theorem strict_store_kept_added :
    let engine : Engine Unit := {}
    let m := (Machine.withParked []).push { lexical := ⟨0⟩, varScope := ⟨0⟩, strict := true }
    let p : Place := .member (.object ⟨0⟩) "x"
    ∃ m', m.DiffersAt (.property ⟨0⟩ "x") m' ∧
      engine.run 0 (p.store (.boolean true)) m = .finished (.ok ()) m' ∧
      engine.run 0 p.load m' = .finished (.ok (.boolean true)) m' := by
  intro engine m p
  have valid : p.Valid m := fun link found => by
    cases List.mem_singleton.1 found
    exact Nat.one_pos
  have kept := strict_store_kept engine 0 rfl valid (.boolean true)
  have accepted : ∃ m', engine.run 0 (p.store (.boolean true)) m = .finished (.ok ()) m' := by
    exact ⟨((Effect.write ⟨0⟩ "x" (.boolean true)).apply m).2, by cbv⟩
  obtain ⟨m₁, ran⟩ := accepted
  rcases kept with ⟨fault, failed⟩ | ⟨slot, m', here, rest⟩
  · cases ran.symm.trans failed
  · cases here
    exact ⟨m', rest⟩

end ScriptEngine
