import ScriptEngine.Proofs.Kept

/-!
# What no run changes

An object keeps its kind (`kinds_kept`), the options and the realm of a machine are never changed
(`options_kept`, `realm_kept`), and a generator that was made is there to stay (`generators_kept`).
-/

namespace ScriptEngine

variable {σ : Type}

/-! ## Kinds of objects -/

theorem Object.callable?_eq_some {object : Object} {f : Callable} :
    object.callable? = some f ↔ object.kind = .function f := by
  unfold Object.callable?
  split <;> simp_all

namespace Heap

structure Extends (h h' : Heap) : Prop where
  size : h.objects.size ≤ h'.objects.size
  kind : ∀ o : ObjectId, o.index < h.objects.size → (h'.get o).kind = (h.get o).kind

structure Alike (h h' : Heap) : Prop where
  size : h'.objects.size = h.objects.size
  prototype : ∀ o : ObjectId, (h'.get o).prototype = (h.get o).prototype
  kind : ∀ o : ObjectId, (h'.get o).kind = (h.get o).kind

variable {h h₁ h₂ : Heap}

theorem Extends.refl (h : Heap) : h.Extends h := ⟨Nat.le_refl _, fun _ _ => rfl⟩

theorem Extends.trans (first : h.Extends h₁) (second : h₁.Extends h₂) : h.Extends h₂ :=
  ⟨Nat.le_trans first.size second.size, fun o ho =>
    (second.kind o (Nat.lt_of_lt_of_le ho first.size)).trans (first.kind o ho)⟩

theorem Alike.refl (h : Heap) : h.Alike h := ⟨rfl, fun _ => rfl, fun _ => rfl⟩

theorem Alike.extends (same : h.Alike h₁) : h.Extends h₁ :=
  ⟨Nat.le_of_eq same.size.symm, fun o _ => same.kind o⟩

theorem get_modify (h : Heap) (o o' : ObjectId) (change : Object → Object) :
    (h.modify o change).get o' =
      if o' = o ∧ o.index < h.objects.size then change (h.get o) else h.get o' := by
  obtain ⟨i⟩ := o
  obtain ⟨j⟩ := o'
  simp only [get, modify, Array.getD_eq_getD_getElem?, Array.getElem?_modify, ObjectId.mk.injEq]
  by_cases same : i = j
  · subst same
    by_cases within : i < h.objects.size <;> simp [within]
  · have other : j ≠ i := fun eq => same eq.symm
    simp [same, other]

theorem alike_modify (h : Heap) (o : ObjectId) {change : Object → Object}
    (prototype : ∀ object, (change object).prototype = object.prototype)
    (kind : ∀ object, (change object).kind = object.kind) : h.Alike (h.modify o change) := by
  refine ⟨by simp [modify], fun o' => ?_, fun o' => ?_⟩
  all_goals
    rw [get_modify]
    split
  · rename_i same
    rw [prototype, same.1]
  · rfl
  · rename_i same
    rw [kind, same.1]
  · rfl

theorem alike_define (h : Heap) (o : ObjectId) (key : String) (property : Property) :
    h.Alike (h.define o key property) :=
  h.alike_modify o (fun _ => rfl) fun _ => rfl

theorem alike_erase (h : Heap) (o : ObjectId) (key : String) : h.Alike (h.erase o key) :=
  h.alike_modify o (fun _ => rfl) fun _ => rfl

theorem alike_write (h : Heap) (o : ObjectId) (key : String) (value : Value) :
    h.Alike (h.write o key value).2 := by
  unfold write
  split
  · exact h.alike_define ..
  · exact .refl h

theorem alike_remove (h : Heap) (o : ObjectId) (key : String) :
    h.Alike (h.remove o key).2 := by
  unfold remove
  repeat' split
  · exact .refl h
  · exact h.alike_erase ..
  · exact .refl h

theorem get_allocate (h : Heap) (object : Object) (o : ObjectId) :
    (h.allocate object).2.get o = if o.index = h.objects.size then object else h.get o := by
  simp only [get, allocate, Array.getD_eq_getD_getElem?, Array.getElem?_push]
  split <;> simp_all

theorem extends_allocate (h : Heap) (object : Object) : h.Extends (h.allocate object).2 := by
  refine ⟨by simp [allocate], fun o ho => ?_⟩
  rw [get_allocate, if_neg (Nat.ne_of_lt ho)]

theorem get_of_size_le {o : ObjectId} (beyond : h.objects.size ≤ o.index) : h.get o = {} := by
  simp [get, Array.getD_eq_getD_getElem?, Array.getElem?_eq_none beyond]

theorem Extends.generator? {o : ObjectId} {g : GeneratorId} (extended : h.Extends h₁)
    (found : (h.get o).generator? = some g) : (h₁.get o).generator? = some g := by
  have allocated : o.index < h.objects.size := by
    refine Nat.lt_of_not_le fun beyond => ?_
    rw [get_of_size_le beyond] at found
    cases found
  simpa only [Object.generator?, extended.kind o allocated] using found

end Heap

theorem Store.alike_apply (s : Store) (change : Change) :
    s.heap.Alike (s.apply change).heap := by
  obtain ⟨record, property⟩ := change
  have recorded : (s.apply ⟨record, property⟩).heap = (s.apply ⟨none, property⟩).heap := by
    cases record <;> rfl
  rw [recorded]
  rcases property with _ | ⟨o, key, _ | property⟩
  · exact .refl _
  · exact s.heap.alike_erase ..
  · exact s.heap.alike_define ..

theorem Store.alike_commit (s : Store) (result : Except Fault Change) :
    s.heap.Alike (s.commit result).2.heap := by
  cases result with
  | ok change => exact s.alike_apply change
  | error fault => exact .refl _

def Effect.allocated? {β : Type} : Effect σ β → Option Object
  | .allocate object => some object
  | _ => none

theorem Effect.alike {β : Type} {effect : Effect σ β} (h : effect.allocated? = none)
    (m : Machine σ) : m.heap.Alike (effect.apply m).2.heap := by
  cases effect with
  | allocate object => cases h
  | define o key property => exact m.heap.alike_define o key property
  | write o key value => exact m.heap.alike_write o key value
  | remove o key => exact m.heap.alike_remove o key
  | preventExtensions o => exact m.heap.alike_modify o (fun _ => rfl) fun _ => rfl
  | deleteBinding e name =>
    simp only [Effect.apply, Machine.onStore]
    split
    · exact m.store.alike_apply _
    · exact .refl _
  | createMutable | createImmutable | initBinding | assign | bindThis | declareVar
  | declareFunction => exact m.store.alike_commit _
  | startRun g resumption =>
    simp only [Effect.apply]
    repeat' split
    all_goals exact .refl m.heap
  | takeResumePoint | pushResumePoint point | takeResumption =>
    simp only [Effect.apply]
    split <;> exact .refl m.heap
  | _ => exact .refl m.heap

theorem kinds_kept : Kept fun m m' : Machine σ => m.heap.Extends m'.heap where
  refl m := .refl m.heap
  trans := .trans
  effect effect m := by
    cases effect with
    | allocate object => exact m.heap.extends_allocate object
    | _ => exact (Effect.alike rfl m).extends
  scope _ _ h := h
  frame _ h := h

theorem Effect.apply_fixed (effect : Effect σ β) (m : Machine σ) :
    (effect.apply m).2.options = m.options ∧ (effect.apply m).2.realm = m.realm ∧
      (effect.apply m).2.stack = m.stack := by
  cases effect with
  | startRun g resumption =>
    simp only [Effect.apply]
    repeat' split
    all_goals exact ⟨rfl, rfl, rfl⟩
  | takeResumePoint | pushResumePoint point | takeResumption =>
    simp only [Effect.apply]
    split <;> exact ⟨rfl, rfl, rfl⟩
  | _ => exact ⟨rfl, rfl, rfl⟩

theorem options_kept : Kept fun m m' : Machine σ => m'.options = m.options where
  refl _ := rfl
  trans h₁ h₂ := h₂.trans h₁
  effect effect m := (effect.apply_fixed m).1
  scope _ _ h := h
  frame _ h := h

theorem realm_kept : Kept fun m m' : Machine σ => m'.realm = m.realm where
  refl _ := rfl
  trans h₁ h₂ := h₂.trans h₁
  effect effect m := (effect.apply_fixed m).2.1
  scope _ _ h := h
  frame _ h := h

theorem generators_kept :
    Kept fun m m' : Machine σ => m.generators.size ≤ m'.generators.size where
  refl _ := Nat.le_refl _
  trans := Nat.le_trans
  effect effect m := by
    cases effect with
    | createGenerator function closure frame => simp [Effect.apply]
    | suspend | complete => simp [Effect.apply, Machine.modifyGenerator]
    | startRun | takeResumePoint | pushResumePoint | takeResumption =>
      simp only [Effect.apply]
      repeat' split
      all_goals simp [Machine.modifyGenerator]
    | _ => exact Nat.le_refl _
  scope _ _ h := h
  frame _ h := h

end ScriptEngine
