import ScriptEngine.Proofs.Writes

/-!
# The order of properties

The keys of an object stand in the order in which they were created last: overwriting a property keeps
its place, deleting one keeps the order of the others, and a key that is created again goes to the end.
-/

namespace ScriptEngine

namespace Table

variable {α : Type} {t : Table α} {key : String} {a : α}

theorem find?_of_mem (h : t.keys.Nodup) (listed : (key, a) ∈ t.entries) : t.find? key = some a := by
  obtain ⟨entries⟩ := t
  simp only [keys, find?] at h listed ⊢
  induction entries with
  | nil => cases listed
  | cons first rest ih =>
    simp only [List.map_cons, List.nodup_cons] at h
    simp only [findIn]
    rcases List.mem_cons.1 listed with rfl | later
    · rw [if_pos rfl]
    · rw [if_neg fun same => h.1 (List.mem_map.2 ⟨_, later, same.symm⟩), ih h.2 later]

end Table

namespace Heap

/-- An operation on the properties of an object. -/
inductive Edit where
  | define (key : String) (property : Property)
  | write (key : String) (value : Value)
  | remove (key : String)

/-- What an operation did. -/
inductive Event where
  | written (key : String)
  | removed (key : String)
  | refused

def edit (h : Heap) (o : ObjectId) : Edit → Event × Heap
  | .define key property => (.written key, h.define o key property)
  | .write key value => match h.write o key value with
    | (true, h') => (.written key, h')
    | (false, h') => (.refused, h')
  | .remove key => match h.remove o key with
    | (true, h') => (.removed key, h')
    | (false, h') => (.refused, h')

/-- The events, of which the last comes first, lead to the heap from one where the object has no
properties. Between the operations on it, everything but its properties may change. -/
inductive History (o : ObjectId) : List Event → Heap → Prop where
  | start {h : Heap} (there : o.index < h.objects.size) (empty : (h.get o).properties = .empty) :
      History o [] h
  | edit {log : List Event} {h : Heap} (earlier : History o log h) (op : Edit) :
      History o ((h.edit o op).1 :: log) (h.edit o op).2
  | elsewhere {log : List Event} {h h' : Heap} (earlier : History o log h)
      (there : o.index < h'.objects.size) (same : (h'.get o).properties = (h.get o).properties) :
      History o log h'

/-- When the key was created that is there now, as the number of events before. -/
def createdAt? (key : String) : List Event → Option Nat
  | [] => none
  | .written k :: log =>
    if k = key ∧ createdAt? key log = none then some log.length else createdAt? key log
  | .removed k :: log => if k = key then none else createdAt? key log
  | .refused :: log => createdAt? key log

structure Leaves (log : List Event) (keys : List String) : Prop where
  nodup : keys.Nodup
  created : ∀ key, key ∈ keys ↔ (createdAt? key log).isSome
  ordered : keys.Pairwise fun a b =>
    ∀ t u, createdAt? a log = some t → createdAt? b log = some u → t < u

variable {log : List Event} {event : Event} {key : String} {keys : List String} {time : Nat}

theorem createdAt?_lt (created : createdAt? key log = some time) : time < log.length := by
  induction log with
  | nil => cases created
  | cons event log ih => cases event <;> grind [createdAt?]

namespace Leaves

variable (h : Leaves log keys)

include h

theorem keep (same : ∀ key, createdAt? key (event :: log) = createdAt? key log) :
    Leaves (event :: log) keys :=
  ⟨h.nodup, by simpa only [same] using h.created, by simpa only [same] using h.ordered⟩

theorem overwrite (present : key ∈ keys) : Leaves (.written key :: log) keys := by
  refine h.keep fun other => ?_
  have created := (h.created key).1 present
  grind [createdAt?]

theorem create (absent : key ∉ keys) : Leaves (.written key :: log) (keys ++ [key]) := by
  have new : createdAt? key log = none := by simpa [h.created] using absent
  refine ⟨by grind [h.nodup], fun other => ?_, List.pairwise_append.2
    ⟨h.ordered.imp_of_mem fun {a b} first second before => ?_, by simp,
      fun a first b last t u old latest => ?_⟩⟩
  · grind [createdAt?, h.created other]
  · grind [createdAt?]
  · -- the other keys were created before this event
    cases List.mem_singleton.1 last
    have other : key ≠ a := fun same => absent (same ▸ first)
    have old : createdAt? a log = some t := by simpa [createdAt?, other] using old
    have latest : log.length = u := by simpa [createdAt?, new] using latest
    exact latest ▸ createdAt?_lt old

theorem delete (key : String) : Leaves (.removed key :: log) (keys.erase key) := by
  refine ⟨h.nodup.erase key, fun other => ?_, ?_⟩
  · grind [createdAt?, h.nodup.mem_erase_iff, h.created other]
  · refine (h.ordered.sublist List.erase_sublist).imp_of_mem fun {a b} first second before => ?_
    grind [createdAt?]

omit h

variable {h : Heap} {o : ObjectId}

theorem define (leaves : Leaves log (h.get o).properties.keys) (there : o.index < h.objects.size)
    (key : String) (p : Property) :
    Leaves (.written key :: log) ((h.define o key p).get o).properties.keys := by
  rw [Heap.define, get_modify, if_pos ⟨rfl, there⟩, Object.define, Table.keys_insert]
  split
  · rename_i present
    exact leaves.overwrite present
  · rename_i absent
    exact leaves.create absent

theorem edit (leaves : Leaves log (h.get o).properties.keys) (there : o.index < h.objects.size)
    (op : Edit) : Leaves ((h.edit o op).1 :: log) ((h.edit o op).2.get o).properties.keys := by
  have refused : Leaves (.refused :: log) (h.get o).properties.keys := leaves.keep fun _ => rfl
  cases op with
  | define key p => exact leaves.define there key p
  | write key v =>
    simp only [Heap.edit, write]
    cases h.assigned? o key v with
    | none => exact refused
    | some p => exact leaves.define there key p
  | remove key =>
    have deleted := leaves.delete key
    simp only [Heap.edit, remove]
    cases found : h.getOwn? o key with
    | none =>
      rwa [List.erase_of_not_mem fun listed => ?_] at deleted
      obtain ⟨entry, member, rfl⟩ := List.mem_map.1 listed
      cases found.symm.trans (Table.find?_of_mem leaves.nodup member)
    | some p =>
      cases unlocked : p.configurable with
      | false => simpa [unlocked] using refused
      | true => simpa [unlocked, erase, get_modify, there, Table.keys_erase] using deleted

end Leaves

theorem size_edit (h : Heap) (o : ObjectId) (op : Edit) :
    (h.edit o op).2.objects.size = h.objects.size := by
  cases op with
  | define key p => exact (h.alike_define o key p).size
  | write key v =>
    rw [← (h.alike_write o key v).size, edit]
    split <;> simp_all
  | remove key =>
    rw [← (h.alike_remove o key).size, edit]
    split <;> simp_all

theorem History.leaves {o : ObjectId} {h : Heap} (history : History o log h) :
    o.index < h.objects.size ∧ Leaves log (h.get o).properties.keys := by
  induction history with
  | start there empty => exact ⟨there, empty ▸ ⟨.nil, fun _ => ⟨nofun, nofun⟩, .nil⟩⟩
  | edit _ op ih => exact ⟨Nat.lt_of_lt_of_eq ih.1 (size_edit ..).symm, ih.2.edit ih.1 op⟩
  | elsewhere _ there same ih => exact ⟨there, same ▸ ih.2⟩

end Heap

open Heap in
/-- The keys of an object that started without properties are those created and not deleted since, each
once and in the order of their latest creation, and its own keys are the enumerable ones of them. -/
theorem property_order {o : ObjectId} {log : List Event} {h : Heap} (history : History o log h) :
    (h.get o).properties.keys.Nodup ∧
      (∀ key, key ∈ (h.get o).properties.keys ↔ (createdAt? key log).isSome) ∧
      ((h.get o).properties.keys.Pairwise fun a b =>
        ∀ t u, createdAt? a log = some t → createdAt? b log = some u → t < u) ∧
      (h.get o).ownKeys = (h.get o).properties.keys.filter fun key =>
        (h.getOwn? o key).any (·.enumerable) := by
  have leaves := history.leaves.2
  refine ⟨leaves.nodup, leaves.created, leaves.ordered, ?_⟩
  rw [Object.ownKeys, Table.keys, List.filter_map]
  refine congrArg _ (List.filter_congr fun entry listed => ?_)
  have own : h.getOwn? o entry.1 = some entry.2 := Table.find?_of_mem leaves.nodup listed
  simp [own]

open Heap in
/-- Deleted and created again, `a` stands after `b`, which is hidden. -/
theorem property_order_again : ∃ h log, History ⟨0⟩ log h ∧
    (h.get ⟨0⟩).properties.keys = ["b", "a"] ∧ (h.get ⟨0⟩).ownKeys = ["a"] ∧
    createdAt? "b" log = some 1 ∧ createdAt? "a" log = some 3 := by
  have start : History ⟨0⟩ [] ⟨#[{}]⟩ := .start Nat.one_pos rfl
  have history := (((start.edit (.write "a" .null)).edit (.define "b" (.hidden .null))).edit
    (.remove "a")).edit (.write "a" .undefined)
  exact ⟨_, _, history, rfl, (property_order history).2.2.2.trans rfl, rfl, rfl⟩

end ScriptEngine
