import ScriptEngine.Proofs.References.ObjectChain
import ScriptEngine.Proofs.Writes

/-!
# Properties along prototype chains

Reading, assigning and deleting agree on which object holds a key: the nearest one on the chain of
prototypes. An assignment and a deletion change one property of one object, or nothing.
-/

namespace ScriptEngine

variable {σ : Type}

namespace Heap

def Acyclic (h : Heap) : Prop :=
  ∀ o, ¬ Relation.TransGen (fun o parent => (h.get o).prototype = some parent) o o

/-- An assignment to the key of an object below the given ones is refused: the own property is
read-only, or there is none and the nearest inherited one is read-only or the object is closed. -/
def Bars (h : Heap) (o : ObjectId) (above : List ObjectId) (key : String) : Prop :=
  (∃ p, h.getOwn? o key = some p ∧ p.writable = false) ∨ h.getOwn? o key = none ∧
    ((∃ p, above.findSome? (h.getOwn? · key) = some p ∧ p.writable = false) ∨
      (h.get o).extensible = false)

structure AgreesOff (o : ObjectId) (key : String) (h h' : Heap) : Prop where
  size : h'.objects.size = h.objects.size
  objects : ∀ o' ≠ o, h'.get o' = h.get o'
  object : h'.get o = { h.get o with properties := (h'.get o).properties }
  others : (h'.get o).properties.entries.filter (·.1 ≠ key) =
    (h.get o).properties.entries.filter (·.1 ≠ key)

end Heap

namespace Table

variable {α : Type} (t : Table α) (key : String)

theorem filter_insert (a : α) : (t.insert key a).entries.filter (·.1 ≠ key) =
    t.entries.filter (·.1 ≠ key) := by
  obtain ⟨entries⟩ := t
  simp only [insert]
  induction entries with
  | nil => simp [insertIn]
  | cons first rest ih =>
    simp only [insertIn]
    split <;> simp_all

theorem filter_erase : (t.erase key).entries.filter (·.1 ≠ key) = t.entries.filter (·.1 ≠ key) := by
  obtain ⟨entries⟩ := t
  simp only [erase]
  induction entries with
  | nil => rfl
  | cons first rest ih =>
    simp only [eraseIn]
    split <;> simp_all

end Table

namespace Heap

variable {h : Heap} {o : ObjectId} {key : String} {v : Value}

theorem Acyclic.exists_lineage (acyclic : h.Acyclic) (o : ObjectId) :
    ∃ above, h.Lineage o (o :: above) ∧ (o :: above).length ≤ h.bound := by
  classical
  let reached (o : ObjectId) : Finset (Fin h.objects.size) := Finset.univ.filter fun i =>
    Relation.ReflTransGen (fun o parent => (h.get o).prototype = some parent) o ⟨i⟩
  -- an object reaches whatever its prototype reaches, and also itself
  have fewer (o parent : ObjectId) (found : (h.get o).prototype = some parent) :
      (reached parent).card < (reached o).card := by
    have there : o.index < h.objects.size := by
      refine Nat.lt_of_not_le fun beyond => ?_
      rw [get_of_size_le beyond] at found
      cases found
    refine Finset.card_lt_card (Finset.ssubset_iff_of_subset ?_ |>.2 ⟨⟨o.index, there⟩, ?_, ?_⟩)
    · intro i listed
      exact Finset.mem_filter.2 ⟨Finset.mem_univ _, .head found (Finset.mem_filter.1 listed).2⟩
    · exact Finset.mem_filter.2 ⟨Finset.mem_univ _, .refl⟩
    · exact fun listed => acyclic o (.head' found (Finset.mem_filter.1 listed).2)
  obtain ⟨objects, lineage⟩ := Chain.exists_of_rank fewer o
  have length := lineage.length_le fewer
  have most := (reached o).card_le_univ
  rw [Fintype.card_fin] at most
  cases lineage with
  | last ends => exact ⟨[], .last ends, Nat.le_trans length (Nat.succ_le_succ most)⟩
  | step next rest => exact ⟨_, .step next rest, Nat.le_trans length (Nat.succ_le_succ most)⟩

theorem agreesOff_modify (there : o.index < h.objects.size) {change : Table Property → Table Property}
    (others : ∀ t, (change t).entries.filter (·.1 ≠ key) = t.entries.filter (·.1 ≠ key)) :
    h.AgreesOff o key (h.modify o fun object => { object with properties := change object.properties }) := by
  have here := (h.get_modify o o fun object => { object with properties := change object.properties }).trans
    (if_pos ⟨rfl, there⟩)
  refine ⟨by simp [modify], fun o' other => ?_, by rw [here], by rw [here]; exact others _⟩
  exact (get_modify ..).trans (if_neg fun same => other same.1)

theorem write_refused_iff {above : List ObjectId} (lineage : h.Lineage o (o :: above))
    (within : (o :: above).length ≤ h.bound) :
    (h.write o key v).1 = false ↔ h.Bars o above key := by
  have answer : (h.write o key v).1 = h.canWrite o key := by
    rw [write, assigned?]
    cases h.canWrite o key <;> rfl
  rw [answer, canWrite_lineage lineage key within, List.findSome?_cons, hasOwn, Bars]
  cases h.getOwn? o key with
  | some p => simp
  | none =>
    cases above.findSome? (h.getOwn? · key) with
    | none => simp
    | some p => cases constant : p.writable <;> simp [constant]

theorem write_accepted (there : o.index < h.objects.size) (allowed : (h.write o key v).1 = true) :
    h.AgreesOff o key (h.write o key v).2 ∧ (h.write o key v).2.getProperty? o key = some v ∧
      ∀ p, h.getOwn? o key = some p →
        (h.write o key v).2.getOwn? o key = some { p with value := v } := by
  unfold write at allowed ⊢
  cases assigned : h.assigned? o key v with
  | none => simp [assigned] at allowed
  | some p =>
    have own : (h.define o key p).getOwn? o key = some p :=
      (getOwn?_define there).trans (if_pos ⟨rfl, rfl⟩)
    refine ⟨agreesOff_modify there fun t => t.filter_insert key p,
      assigned?_value assigned ▸ getProperty?_own own, fun q found => own.trans ?_⟩
    rw [← assigned, assigned?, found]
    unfold assigned? at assigned
    split at assigned
    · rename_i can
      rw [if_pos can]
    · cases assigned

theorem remove_accepted (there : o.index < h.objects.size)
    (keys : (h.get o).properties.keys.Nodup) (allowed : (h.remove o key).1 = true) :
    h.AgreesOff o key (h.remove o key).2 ∧ (h.remove o key).2.getOwn? o key = none := by
  unfold remove at allowed ⊢
  cases found : h.getOwn? o key with
  | none => exact ⟨⟨rfl, fun _ _ => rfl, rfl, rfl⟩, found⟩
  | some p =>
    simp only [found] at allowed
    by_cases unlocked : p.configurable = true
    · simp only [unlocked, if_true]
      refine ⟨agreesOff_modify there fun t => t.filter_erase key, ?_⟩
      rw [getOwn?, erase, get_modify, if_pos ⟨rfl, there⟩, Table.find?_erase_self keys]
    · simp [unlocked] at allowed

end Heap

/-- Reading finds the nearest object on the chain that has the key. An assignment that is not barred
is read back, with the attributes of the own property kept, and a deletion is refused exactly when the
own property is not configurable. What is refused changes nothing. -/
theorem property_laws {h : Heap} (acyclic : h.Acyclic)
    (keys : ∀ o, (h.get o).properties.keys.Nodup) {o : ObjectId} (there : o.index < h.objects.size)
    (key : String) (v : Value) :
    ∃ above, h.Lineage o (o :: above) ∧
      h.getProperty? o key = ((o :: above).findSome? (h.getOwn? · key)).map (·.value) ∧
      (h.hasProperty o key = true ↔ ∃ w, h.getProperty? o key = some w) ∧
      ((h.write o key v).1 = false ↔ h.Bars o above key) ∧
      ((h.write o key v).1 = false → (h.write o key v).2 = h) ∧
      ((h.write o key v).1 = true → (h.write o key v).2.getProperty? o key = some v ∧
        (∀ p, h.getOwn? o key = some p →
          (h.write o key v).2.getOwn? o key = some { p with value := v }) ∧
        h.AgreesOff o key (h.write o key v).2) ∧
      ((h.remove o key).1 = false ↔ ∃ p, h.getOwn? o key = some p ∧ p.configurable = false) ∧
      ((h.remove o key).1 = false → (h.remove o key).2 = h) ∧
      ((h.remove o key).1 = true → (h.remove o key).2.getOwn? o key = none ∧
        h.AgreesOff o key (h.remove o key).2) := by
  obtain ⟨above, lineage, within⟩ := acyclic.exists_lineage o
  refine ⟨above, lineage, ?_, ?_, Heap.write_refused_iff lineage within, fun refused => ?_,
    fun allowed => ?_, ?_, fun refused => ?_, fun allowed => ?_⟩
  · rw [Heap.getProperty?, Heap.lookup, Heap.lookupWithin_lineage lineage key within]
  · rw [Heap.hasProperty, Heap.getProperty?]
    cases h.lookup o key <;> simp
  · unfold Heap.write at refused ⊢
    split at refused
    · cases refused
    · rfl
  · obtain ⟨agrees, now, own⟩ := Heap.write_accepted there allowed
    exact ⟨now, own, agrees⟩
  · unfold Heap.remove
    cases h.getOwn? o key with
    | none => simp
    | some p => cases unlocked : p.configurable <;> simp [unlocked]
  · unfold Heap.remove at refused ⊢
    cases found : h.getOwn? o key with
    | none => simp [found] at refused
    | some p => cases unlocked : p.configurable <;> simp_all
  · exact (Heap.remove_accepted there (keys o) allowed).symm

/-- The prototype has a read-only property, which an object below it inherits. -/
theorem property_laws_inherited :
    let h : Heap := ⟨#[{ properties := ⟨[("x", .readonlyHidden .null)]⟩ }, { prototype := some ⟨0⟩ }]⟩
    h.getOwn? ⟨1⟩ "x" = none ∧ h.getProperty? ⟨1⟩ "x" = some .null ∧
      (h.write ⟨1⟩ "x" .undefined).1 = false := by
  intro h
  have parents (o parent : ObjectId) (found : (h.get o).prototype = some parent) :
      parent.index = 0 ∧ o.index = 1 := by
    obtain ⟨_ | _ | _⟩ := o <;> simp_all [h, Heap.get]
    rw [← found]
  have acyclic : h.Acyclic := fun o circle => by
    obtain ⟨parent, found, -⟩ := Relation.TransGen.head'_iff.1 circle
    obtain ⟨child, -, found'⟩ := Relation.TransGen.tail'_iff.1 circle
    exact absurd ((parents _ _ found).2.symm.trans (parents _ _ found').1) Nat.one_ne_zero
  have keys (o : ObjectId) : (h.get o).properties.keys.Nodup := by
    obtain ⟨_ | _ | _⟩ := o <;> simp [h, Heap.get, Table.keys, Table.empty]
  obtain ⟨above, lineage, read, -, refused, -⟩ :=
    property_laws acyclic keys (o := ⟨1⟩) Nat.one_lt_two "x" .undefined
  cases lineage with
  | last ends => cases ends
  | step next rest =>
    cases next
    cases rest with
    | last => exact ⟨rfl, read.trans rfl, refused.2 (.inr ⟨rfl, .inl ⟨_, rfl, rfl⟩⟩)⟩
    | step next => cases next

/-! ## Instances -/

def Heap.isInstance (h : Heap) (final : ObjectId) : Value → Except Fault Bool
  | .object x => match h.getProperty? final "prototype" with
    | some (.object p) => .ok (h.inherits x p)
    | _ => .error (.typeError .instanceOfPrototype)
  | _ => .ok false

open Eval in
/-- What is an instance of a function, which may be bound, is what the `prototype` of the function
at the end is a prototype of. -/
theorem instanceOf_isPrototypeOf {engine : Engine σ} (host : engine.Discreet) {m : Machine σ}
    (visits : engine.Visits m) (fuel : Nat) (v : Value) {c : Value}
    (callable : m.heap.isCallable c = true) :
    ∃ o functions final, c = .object o ∧ m.heap.ComesTo o functions final ∧
      (v.asObject? = none → engine.run fuel (instanceOf v c) m = .finished (.ok false) m) ∧
      ∀ x, v = .object x →
        (∀ p, m.heap.getProperty? final "prototype" = some (.object p) →
          ∃ above, m.heap.Lineage x (x :: above) ∧
            engine.run fuel (instanceOf v c) m = .finished (.ok (decide (p ∈ above))) m ∧
            ∀ rest, engine.run fuel (Builtin.isPrototypeOf.call engine.shortcuts (.object p) (v :: rest)) m =
              .finished (.ok (.boolean (decide (p ∈ above)))) m) ∧
        ((∀ p, m.heap.getProperty? final "prototype" ≠ some (.object p)) →
          engine.run fuel (instanceOf v c) m =
            .finished (.error (.typeError .instanceOfPrototype)) m) := by
  have closed : m.heap.Closed m.Has := (visits.closed host).store.heap
  obtain ⟨o, rfl⟩ : ∃ o, c = .object o := by
    cases c with
    | object o => exact ⟨o, rfl⟩
    | _ => cases callable
  obtain ⟨functions, final, comes⟩ := closed.exists_comesTo o
  obtain ⟨f, made⟩ := Option.isSome_iff_exists.1 (comes.callable callable)
  have made : (m.heap.get final).callable? = some f := made
  have answer : instanceWithin m.heap v m.heap.bound o = m.heap.isInstance final v := by
    rw [comes.instanceOf _ v (Nat.le_refl _)]
    unfold instanceWithin
    rw [made]
    cases f with
    | bound f => exact absurd made (comes.free f)
    | _ => rfl
  have asked : engine.run fuel (instanceOf v (.object o)) m =
      .finished (instanceWithin m.heap v m.heap.bound o) m := rfl
  rw [answer] at asked
  refine ⟨o, functions, final, rfl, comes, fun primitive => ?_, ?_⟩
  · rw [asked]
    cases v with
    | object x => cases primitive
    | _ => rfl
  · rintro x rfl
    refine ⟨fun p found => ?_, fun none => ?_⟩
    · obtain ⟨objects, descends⟩ := closed.exists_descends x
      obtain ⟨above, rfl⟩ : ∃ above, objects = x :: above := by
        cases descends.lineage <;> exact ⟨_, rfl⟩
      have inherits : m.heap.inherits x p = decide (p ∈ above) :=
        descends.inherits _ p (Nat.le_refl _)
      refine ⟨above, descends.lineage, ?_, fun rest => ?_⟩
      · rw [asked, Heap.isInstance, found, ← inherits]
      · rw [← inherits]
        rfl
    · rw [asked, Heap.isInstance]
      split
      · rename_i p found
        exact absurd found (none p)
      · rfl

/-- The run ended with a function bound to the constructor of objects. -/
def boundObject : Outcome Unit (Except Fault Value) → Bool
  | .finished (.ok (.object o)) m => m.heap.target? o = some ⟨11⟩ ∧
    m.heap.target? ⟨11⟩ = none ∧ m.heap.isCallable (.object o) = true ∧
    (m.heap.getProperty? ⟨11⟩ "prototype").bind Value.asObject? = some ⟨0⟩ ∧
    (m.heap.get m.realm.global).prototype = some ⟨0⟩
  | _ => false

/-- The global object is an instance of what the script `Object.bind()` makes. -/
theorem instanceOf_isPrototypeOf_bound :
    let engine : Engine Unit := {}
    let script : Operation Value := .eval
      { body := [.expression (.call (.member (.identifier "Object" {}) (.name "bind") {}) [] {}) {}]
        strict := false, span := {} }
    ∃ o m, engine.run 2 (script.evaluate engine) (engine.start {} ()) = .finished (.ok (.object o)) m ∧
      m.heap.target? o = some ⟨11⟩ ∧ m.heap.isCallable (.object o) = true ∧
      engine.run 0 (Eval.instanceOf (.object m.realm.global) (.object o)) m =
        .finished (.ok true) m := by
  intro engine script
  have made : boundObject (engine.run 2 (script.evaluate engine) (engine.start {} ())) = true := by
    decide +kernel
  unfold boundObject at made
  split at made
  · rename_i o m run
    obtain ⟨bound, ends, callable, found, parent⟩ := of_decide_eq_true made
    have visits : engine.Visits m :=
      ⟨{}, (), m, .operate script (.refl _) (List.forall_mem_nil _) run, .inl rfl⟩
    obtain ⟨_, functions, final, same, comes, -, objects⟩ := instanceOf_isPrototypeOf
      (fun _ listed => by cases listed) visits 0 (.object m.realm.global) callable
    cases same
    obtain ⟨v, found, is⟩ := Option.bind_eq_some_iff.1 found
    have final : final = ⟨11⟩ := by
      have last := comes.last
      cases comes.targets with
      | last h => cases bound.symm.trans h
      | step h rest =>
        cases bound.symm.trans h
        cases rest with
        | last => exact (Option.some.inj last).symm
        | step h => cases ends.symm.trans h
    cases v with
    | object p =>
      cases is
      obtain ⟨above, lineage, asked, -⟩ := (objects _ rfl).1 _ (final ▸ found)
      have listed : (⟨0⟩ : ObjectId) ∈ above := by
        cases lineage with
        | last h => cases parent.symm.trans h
        | step h rest =>
          cases parent.symm.trans h
          cases rest <;> exact List.mem_cons_self
      exact ⟨o, m, run, bound, callable, asked.trans (by rw [decide_eq_true listed])⟩
    | _ => cases is
  · cases made

end ScriptEngine
