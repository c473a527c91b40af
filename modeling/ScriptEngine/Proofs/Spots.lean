import ScriptEngine.Proofs.Scopes

/-!
# Single bindings

A `Spot` is a name in a scope. No effect changes the bindings of two spots, and what it can make of
the one binding depends on the effect: `Effect.turns` lists all that can happen.
-/

namespace ScriptEngine

variable {σ α β : Type}

abbrev Spot := EnvironmentId × String

def Record.table? : Record → Option Bindings
  | .declarative b => some b
  | .function r => some r.bindings
  | .global r => some r.bindings
  | .object .. => none

def Record.binding? (record : Record) (name : String) : Option Binding :=
  record.table?.bind (·.find? name)

def Store.binding? (s : Store) (spot : Spot) : Option Binding :=
  (s.environment spot.1).record.binding? spot.2

inductive Effect.Turns : {β : Type} → Effect σ β → Spot → Option Binding → Option Binding → Prop
    where
  | same {β : Type} {effect : Effect σ β} {spot : Spot} {b : Option Binding} :
      Turns effect spot b b
  | enclosed {env : Environment} {spot : Spot} :
      Turns (.enclose env) spot none (env.record.binding? spot.2)
  | created {e : EnvironmentId} {name : String} {deletable : Bool} :
      Turns (.createMutable e name deletable) (e, name) none (some { mutable := true, deletable })
  | createdConstant {e : EnvironmentId} {name : String} {strict : Bool} :
      Turns (.createImmutable e name strict) (e, name) none (some { mutable := false, strict })
  | initialized {e : EnvironmentId} {name : String} {value : Value} {b : Binding} :
      Turns (.initBinding e name value) (e, name) (some b)
        (some { b with value, initialized := true })
  | assigned {e : EnvironmentId} {name : String} {value : Value} {strict : Bool} {b : Binding}
      (mutable : b.mutable = true) :
      Turns (.assign e name value strict) (e, name) (some b) (some { b with value })
  | added {e : EnvironmentId} {name : String} {value : Value} {strict : Bool} :
      Turns (.assign e name value strict) (e, name) none
        (some { value, mutable := true, initialized := true, deletable := true })
  | deleted {e : EnvironmentId} {name : String} {b : Binding} (deletable : b.deletable = true) :
      Turns (.deleteBinding e name) (e, name) (some b) none

/-! ## Tables -/

namespace Table

variable {t : Table α} {key : String} {a : α} {entry : String × α}

theorem mem_of_find? (found : t.find? key = some a) : (key, a) ∈ t.entries := by
  obtain ⟨entries⟩ := t
  simp only [find?] at found
  induction entries with
  | nil => cases found
  | cons first rest ih =>
    obtain ⟨k, b⟩ := first
    simp only [findIn] at found
    split at found
    · rename_i same
      cases found
      exact same ▸ List.mem_cons_self
    · exact List.mem_cons_of_mem _ (ih found)

theorem mem_insert (h : entry ∈ (t.insert key a).entries) :
    entry = (key, a) ∨ entry ∈ t.entries := by
  obtain ⟨entries⟩ := t
  simp only [insert] at h ⊢
  induction entries with
  | nil => exact .inl (List.mem_singleton.1 h)
  | cons first rest ih =>
    obtain ⟨k, b⟩ := first
    simp only [insertIn] at h
    split at h <;> grind

theorem sublist_erase : (t.erase key).entries.Sublist t.entries := by
  obtain ⟨entries⟩ := t
  simp only [erase]
  induction entries with
  | nil => exact .refl _
  | cons first rest ih =>
    obtain ⟨k, b⟩ := first
    simp only [eraseIn]
    split
    · exact List.sublist_cons_self _ rest
    · exact ih.cons_cons _

theorem keys_insert :
    (t.insert key a).keys = if key ∈ t.keys then t.keys else t.keys ++ [key] := by
  obtain ⟨entries⟩ := t
  simp only [keys, insert]
  induction entries with
  | nil => rfl
  | cons first rest ih =>
    obtain ⟨k, b⟩ := first
    by_cases same : k = key
    · simp [insertIn, same]
    · simp only [insertIn, same, if_false, List.map_cons, ih, List.mem_cons, Ne.symm same, false_or]
      split <;> simp_all

theorem keys_erase : (t.erase key).keys = t.keys.erase key := by
  obtain ⟨entries⟩ := t
  simp only [keys, erase]
  induction entries with
  | nil => rfl
  | cons first rest ih =>
    simp only [eraseIn, List.map_cons, List.erase_cons, beq_iff_eq]
    split
    · rfl
    · rw [List.map_cons, ih]

theorem nodup_insert (h : t.keys.Nodup) : (t.insert key a).keys.Nodup := by
  rw [keys_insert]
  split
  · exact h
  · rename_i absent
    exact List.nodup_append.2 ⟨h, List.pairwise_singleton _ key, by grind⟩

theorem find?_erase_self (h : t.keys.Nodup) : (t.erase key).find? key = none := by
  cases found : (t.erase key).find? key with
  | none => rfl
  | some a =>
    have listed : key ∈ (t.erase key).keys := List.mem_map.2 ⟨_, mem_of_find? found, rfl⟩
    rw [keys_erase] at listed
    exact absurd listed h.not_mem_erase

end Table

namespace Bindings

structure Settled (b : Bindings) : Prop where
  keys : b.keys.Nodup
  firm : ∀ entry ∈ b.entries, entry.2.mutable = false → entry.2.deletable = false

variable {b b' : Bindings} {e : EnvironmentId} {name : String} {binding : Binding} {value : Value}

theorem settled_empty : Settled .empty := ⟨.nil, nofun⟩

section

variable (settled : Settled b)

include settled

theorem Settled.insert (h : binding.mutable = false → binding.deletable = false) :
    Settled (b.insert name binding) := by
  refine ⟨Table.nodup_insert settled.keys, fun entry found => ?_⟩
  rcases Table.mem_insert found with rfl | old
  · exact h
  · exact settled.firm entry old

theorem Settled.create (h : binding.mutable = false → binding.deletable = false)
    (made : create b name binding = .ok b') : Settled b' := by
  unfold Bindings.create at made
  split at made
  · cases made
  · cases made
    exact settled.insert h

theorem Settled.initBinding (made : initBinding b name value = .ok b') : Settled b' := by
  unfold Bindings.initBinding at made
  split at made
  · cases made
  · rename_i binding found
    cases made
    exact settled.insert (settled.firm _ (Table.mem_of_find? found))

theorem Settled.assign {strict : Bool} (made : assign b name value strict = .ok b') :
    Settled b' := by
  unfold Bindings.assign at made
  split at made
  · split at made
    · cases made
    · cases made
      exact settled.insert nofun
  · rename_i binding found
    split at made
    · cases made
    · split at made
      · cases made
        exact settled.insert (settled.firm _ (Table.mem_of_find? found))
      · split at made
        · cases made
        · cases made
          exact settled

theorem Settled.delete (made : delete b name = some b') : Settled b' := by
  unfold Bindings.delete at made
  split at made
  · cases made
    exact settled
  · split at made
    · cases made
      have fewer : (Table.erase b name).entries.Sublist b.entries := Table.sublist_erase
      exact ⟨(fewer.map _).nodup settled.keys, fun entry found =>
        settled.firm entry (fewer.subset found)⟩
    · cases made

end

theorem turns_insert {effect : Effect σ β}
    (h : effect.Turns (e, name) (b.find? name) (some binding)) (other : String) :
    effect.Turns (e, other) (b.find? other) ((b.insert name binding).find? other) := by
  rw [Table.find?_insert]
  split
  · rename_i same
    exact same ▸ h
  · exact .same

theorem turns_create {effect : Effect σ β} (h : effect.Turns (e, name) none (some binding))
    (made : create b name binding = .ok b') (other : String) :
    effect.Turns (e, other) (b.find? other) (b'.find? other) := by
  unfold create at made
  split at made
  · cases made
  · rename_i absent
    cases made
    refine turns_insert ?_ other
    cases found : b.find? name with
    | none => exact h
    | some old => simp [Table.contains, found] at absent

theorem turns_initBinding (made : initBinding b name value = .ok b') (other : String) :
    (Effect.initBinding e name value : Effect σ _).Turns (e, other)
      (b.find? other) (b'.find? other) := by
  unfold initBinding at made
  split at made
  · cases made
  · rename_i binding found
    cases made
    refine turns_insert ?_ other
    rw [found]
    exact .initialized

theorem turns_assign {strict : Bool} (made : assign b name value strict = .ok b') (other : String) :
    (Effect.assign e name value strict : Effect σ _).Turns (e, other)
      (b.find? other) (b'.find? other) := by
  unfold assign at made
  split at made
  · rename_i absent
    split at made
    · cases made
    · cases made
      refine turns_insert ?_ other
      rw [absent]
      exact .added
  · rename_i binding found
    split at made
    · cases made
    · split at made
      · rename_i mutable
        cases made
        refine turns_insert ?_ other
        rw [found]
        exact .assigned mutable
      · split at made
        · cases made
        · cases made
          exact .same

theorem turns_delete (settled : Settled b) (made : delete b name = some b') (other : String) :
    (Effect.deleteBinding e name : Effect σ _).Turns (e, other) (b.find? other)
      (b'.find? other) := by
  unfold delete at made
  split at made
  · cases made
    exact .same
  · rename_i binding found
    split at made
    · rename_i deletable
      cases made
      by_cases same : other = name
      · subst same
        rw [found, Table.find?_erase_self settled.keys]
        exact .deleted deletable
      · rw [Table.find?_erase_of_ne b same]
        exact .same
    · cases made

end Bindings

/-! ## Changes of the store -/

def Record.Settled (record : Record) : Prop := ∀ b, record.table? = some b → Bindings.Settled b

def Change.TurnsBy (s : Store) (change : Change) (effect : Effect σ β) : Prop :=
  ∀ e record, change.record = some (e, record) → (s.environment e).record.Settled →
    (∀ name, effect.Turns (e, name) ((s.environment e).record.binding? name)
      (record.binding? name)) ∧ record.Settled

namespace Store

def Settled (s : Store) : Prop := ∀ e, (s.environment e).record.Settled

variable {s : Store} {e : EnvironmentId} {name : String} {change : Change} {spot : Spot}
  {effect : Effect σ β} {value : Value} {op : Bindings → Except Fault Bindings}
  {deletable strict : Bool}

theorem binding?_of_not_has (h : ¬ s.Has spot.1) : s.binding? spot = none := by
  rw [binding?, environment_of_not_has h]
  rfl

theorem has_of_binding? {b : Binding} (found : s.binding? spot = some b) : s.Has spot.1 :=
  Classical.byContradiction fun absent => by simp [binding?_of_not_has absent] at found

theorem Settled.firm (settled : s.Settled) {b : Binding} (found : s.binding? spot = some b)
    (constant : b.mutable = false) : b.deletable = false := by
  obtain ⟨table, record, found⟩ := Option.bind_eq_some_iff.1 found
  exact (settled spot.1 table record).firm _ (Table.mem_of_find? found) constant

theorem turns_apply (h : change.TurnsBy s effect) (settled : s.Settled) (spot : Spot) :
    effect.Turns spot (s.binding? spot) ((s.apply change).binding? spot) := by
  obtain ⟨scope, name⟩ := spot
  by_cases has : s.Has scope
  · simp only [binding?, environment_apply s change has]
    split
    · rename_i e record set
      split
      · rename_i here
        cases here
        exact (h _ record set (settled _)).1 name
      · exact .same
    · exact .same
  · have absent : ¬ (s.apply change).Has scope := fun h => has ((s.has_apply change _).1 h)
    have none {s : Store} (absent : ¬ s.Has scope) : s.binding? (scope, name) = none :=
      binding?_of_not_has absent
    rw [none absent, none has]
    exact .same

theorem settled_apply (h : change.TurnsBy s effect) (settled : s.Settled) :
    (s.apply change).Settled := by
  intro e
  by_cases has : s.Has e
  · rw [environment_apply s change has]
    split
    · rename_i e' record set
      split
      · rename_i here
        exact (h e' record set (here ▸ settled e)).2
      · exact settled e
    · exact settled e
  · have absent : ¬ (s.apply change).Has e := fun h => has ((s.has_apply change _).1 h)
    rw [environment_of_not_has absent]
    rintro _ ⟨⟩
    exact Bindings.settled_empty

theorem turnsBy_of_none (none : change.record = none) :
    change.TurnsBy s effect := fun e record set => by simp [none] at set

/-! ## Operations on bindings -/

theorem turnsBy_of_same {record : Record} (set : change.record = some (e, record))
    (same : record.table? = (s.environment e).record.table?) : change.TurnsBy s effect := by
  intro e' record' set' settled
  cases set.symm.trans set'
  refine ⟨fun name => ?_, fun b found => settled b (same ▸ found)⟩
  simp only [Record.binding?, same]
  exact .same

theorem turnsBy_of_table {record : Record} {b b' : Bindings}
    (set : change.record = some (e, record)) (before : (s.environment e).record.table? = some b)
    (after : record.table? = some b')
    (turns : Bindings.Settled b → (∀ name, effect.Turns (e, name) (b.find? name) (b'.find? name)) ∧ Bindings.Settled b') :
    change.TurnsBy s effect := by
  intro e' record' set' settled
  cases set.symm.trans set'
  obtain ⟨turns, settled'⟩ := turns (settled b before)
  refine ⟨fun name => ?_, fun b₁ found => ?_⟩
  · simp only [Record.binding?, before, after]
    exact turns name
  · cases after.symm.trans found
    exact settled'

theorem changeBindings_eq_ok {b : Bindings} (before : (s.environment e).record.table? = some b)
    (h : s.changeBindings e op = .ok change) :
    ∃ b' record, op b = .ok b' ∧ record.table? = some b' ∧ change = .ofRecord e record := by
  unfold changeBindings at h
  cases found : (s.environment e).record with
  | object o isWith => simp [found, Record.table?] at before
  | declarative | function | global =>
    simp only [found] at h before
    cases before
    obtain ⟨b', changed, rfl⟩ := map_eq_ok.1 h
    exact ⟨b', _, changed, rfl, rfl⟩

theorem changeBindings_turnsBy (turns : ∀ b b', op b = .ok b' → Bindings.Settled b →
      (∀ name, effect.Turns (e, name) (b.find? name) (b'.find? name)) ∧ Bindings.Settled b')
    (h : s.changeBindings e op = .ok change) : change.TurnsBy s effect := by
  cases before : (s.environment e).record.table? with
  | some b =>
    obtain ⟨b', record, changed, after, rfl⟩ := changeBindings_eq_ok before h
    exact turnsBy_of_table rfl before after (turns b b' changed)
  | none =>
    unfold changeBindings at h
    cases found : (s.environment e).record with
    | declarative | function | global => simp [found, Record.table?] at before
    | object o isWith =>
      simp only [found] at h
      cases h
      exact turnsBy_of_none rfl

theorem binding?_changeBindings (has : s.Has e) {b : Bindings}
    (table : (s.environment e).record.table? = some b) (h : s.changeBindings e op = .ok change) :
    ∃ b', op b = .ok b' ∧ ∀ name, (s.apply change).binding? (e, name) = b'.find? name := by
  obtain ⟨b', record, changed, after, rfl⟩ := changeBindings_eq_ok table h
  refine ⟨b', changed, fun name => ?_⟩
  simp [binding?, environment_apply s _ has, Change.ofRecord, Record.binding?, after]

theorem binding?_create (has : s.Has e) (table : (s.environment e).record.table?.isSome = true)
    {binding : Binding} (h : s.changeBindings e (Bindings.create · name binding) = .ok change) :
    s.binding? (e, name) = none ∧ (s.apply change).binding? (e, name) = some binding := by
  obtain ⟨b, table⟩ := Option.isSome_iff_exists.1 table
  obtain ⟨b', created, after⟩ := binding?_changeBindings has table h
  unfold Bindings.create at created
  split at created
  · cases created
  · rename_i absent
    cases created
    rw [after, Table.find?_insert, if_pos rfl, binding?, Record.binding?, table, Option.bind_some]
    simpa [Table.contains] using absent

theorem binding?_createMutable (has : s.Has e)
    (table : (s.environment e).record.table?.isSome = true)
    (h : (s.commit (s.createMutable e name deletable)).1 = .ok ()) :
    s.binding? (e, name) = none ∧ (s.commit (s.createMutable e name deletable)).2.binding?
      (e, name) = some { mutable := true, deletable } := by
  cases made : s.createMutable e name deletable with
  | error fault => simp [made, commit] at h
  | ok change =>
    unfold createMutable at made
    split at made
    · rename_i found
      simp [found, Record.table?] at table
    · exact binding?_create has table made

theorem binding?_createImmutable (has : s.Has e)
    (table : (s.environment e).record.table?.isSome = true)
    (h : (s.commit (s.createImmutable e name strict)).1 = .ok ()) :
    s.binding? (e, name) = none ∧ (s.commit (s.createImmutable e name strict)).2.binding?
      (e, name) = some { mutable := false, strict } := by
  cases made : s.createImmutable e name strict with
  | error fault => simp [made, commit] at h
  | ok change =>
    unfold createImmutable at made
    split at made
    · cases made
    · exact binding?_create has table made

theorem assignProperty_turnsBy {o : ObjectId}
    (h : s.assignProperty o name value strict = .ok change) : change.TurnsBy s effect := by
  unfold assignProperty at h
  split at h
  · cases h
  · split at h
    · cases h
      exact turnsBy_of_none rfl
    · split at h
      · cases h
      · cases h
        exact turnsBy_of_none rfl

theorem createMutable_turnsBy (h : s.createMutable e name deletable = .ok change) :
    change.TurnsBy s (.createMutable e name deletable : Effect σ _) := by
  unfold createMutable at h
  split at h
  · cases h
    exact turnsBy_of_none rfl
  · exact changeBindings_turnsBy (fun _ _ made settled =>
      ⟨Bindings.turns_create .created made, settled.create (by simp) made⟩) h

theorem createImmutable_turnsBy (h : s.createImmutable e name strict = .ok change) :
    change.TurnsBy s (.createImmutable e name strict : Effect σ _) := by
  unfold createImmutable at h
  split at h
  · cases h
  · exact changeBindings_turnsBy (fun _ _ made settled =>
      ⟨Bindings.turns_create .createdConstant made, settled.create (fun _ => rfl) made⟩) h

theorem initBinding_turnsBy (h : s.initBinding e name value = .ok change) :
    change.TurnsBy s (.initBinding e name value : Effect σ _) := by
  have table (h : s.changeBindings e (Bindings.initBinding · name value) = .ok change) :
      change.TurnsBy s (.initBinding e name value : Effect σ _) :=
    changeBindings_turnsBy (fun _ _ made settled =>
      ⟨Bindings.turns_initBinding made, settled.initBinding made⟩) h
  unfold initBinding at h
  split at h
  · split at h
    · exact table h
    · exact assignProperty_turnsBy h
  · exact assignProperty_turnsBy h
  · exact table h

theorem assign_turnsBy (h : s.assign e name value strict = .ok change) :
    change.TurnsBy s (.assign e name value strict : Effect σ _) := by
  have table (h : s.changeBindings e (Bindings.assign · name value strict) = .ok change) :
      change.TurnsBy s (.assign e name value strict : Effect σ _) :=
    changeBindings_turnsBy (fun _ _ made settled =>
      ⟨Bindings.turns_assign made, settled.assign made⟩) h
  unfold assign at h
  split at h
  · split at h
    · exact table h
    · exact assignProperty_turnsBy h
  · exact assignProperty_turnsBy h
  · exact table h

theorem deleteBinding_turnsBy (h : s.deleteBinding e name = some change) :
    change.TurnsBy s (.deleteBinding e name : Effect σ _) := by
  have table {b b' : Bindings} {record : Record} (deleted : Bindings.delete b name = some b')
      (before : (s.environment e).record.table? = some b) (after : record.table? = some b') :
      (Change.ofRecord e record).TurnsBy s (.deleteBinding e name : Effect σ _) :=
    turnsBy_of_table rfl before after fun settled =>
      ⟨Bindings.turns_delete settled deleted, settled.delete deleted⟩
  unfold deleteBinding at h
  split at h
  · rename_i b found
    obtain ⟨b', deleted, rfl⟩ := Option.map_eq_some_iff.1 h
    exact table deleted (by rw [found]; rfl) rfl
  · rename_i r found
    obtain ⟨b', deleted, rfl⟩ := Option.map_eq_some_iff.1 h
    exact table deleted (by rw [found]; rfl) rfl
  · rename_i r found
    split at h
    · obtain ⟨b', deleted, rfl⟩ := Option.map_eq_some_iff.1 h
      exact table deleted (by rw [found]; rfl) rfl
    · split at h
      · cases h
        exact turnsBy_of_none rfl
      · split at h
        · cases h
          exact turnsBy_of_same rfl (by rw [found]; rfl)
        · cases h
  · split at h
    · cases h
      exact turnsBy_of_none rfl
    · split at h
      · cases h
        exact turnsBy_of_none rfl
      · cases h

theorem bindThis_turnsBy (h : s.bindThis e value = .ok change) :
    change.TurnsBy s (.bindThis e value : Effect σ _) := by
  unfold bindThis at h
  split at h
  · rename_i r found
    split at h
    · cases h
    · cases h
    · cases h
      exact turnsBy_of_same rfl (by rw [found]; rfl)
  · cases h

theorem table?_noteVar (r : GlobalRecord) (name : String) :
    (Record.global (r.noteVar name)).table? = (Record.global r).table? := by
  unfold GlobalRecord.noteVar
  split <;> rfl

theorem declareVar_turnsBy (h : s.declareVar e name deletable = .ok change) :
    change.TurnsBy s (.declareVar e name deletable : Effect σ _) := by
  unfold declareVar at h
  split at h
  · rename_i r found
    cases h
    exact turnsBy_of_same rfl (by rw [found, table?_noteVar])
  · cases h

theorem declareFunction_turnsBy (h : s.declareFunction e name value deletable = .ok change) :
    change.TurnsBy s (.declareFunction e name value deletable : Effect σ _) := by
  unfold declareFunction at h
  split at h
  · rename_i r found
    dsimp only at h
    split at h
    · cases h
      exact turnsBy_of_same rfl (by rw [found, table?_noteVar])
    · cases h
  · cases h

end Store

namespace Effect

section

variable {effect : Effect σ β} {s : Store} (settled : s.Settled) {result : Except Fault Change}
  (h : ∀ change, result = .ok change → change.TurnsBy s effect)

include settled h

theorem turns_commit (spot : Spot) :
    effect.Turns spot (s.binding? spot) ((s.commit result).2.binding? spot) := by
  cases result with
  | ok change => exact Store.turns_apply (h change rfl) settled spot
  | error fault => exact .same

theorem settled_commit : (s.commit result).2.Settled := by
  cases result with
  | ok change => exact Store.settled_apply (h change rfl) settled
  | error fault => exact settled

end

theorem turns (effect : Effect σ β) {m : Machine σ} (settled : m.store.Settled) (spot : Spot) :
    effect.Turns spot (m.store.binding? spot) ((effect.apply m).2.store.binding? spot) := by
  cases effect with
  | enclose environment =>
    simp only [Effect.apply, Machine.onStore, Store.binding?, Store.environment_enclose]
    split
    · rename_i new
      have absent : ¬ m.store.Has spot.1 := by simp [Store.Has, new]
      rw [Store.environment_of_not_has absent]
      exact .enclosed
    · exact .same
  | createMutable => exact turns_commit settled (fun _ => Store.createMutable_turnsBy) spot
  | createImmutable => exact turns_commit settled (fun _ => Store.createImmutable_turnsBy) spot
  | initBinding => exact turns_commit settled (fun _ => Store.initBinding_turnsBy) spot
  | assign => exact turns_commit settled (fun _ => Store.assign_turnsBy) spot
  | bindThis => exact turns_commit settled (fun _ => Store.bindThis_turnsBy) spot
  | declareVar => exact turns_commit settled (fun _ => Store.declareVar_turnsBy) spot
  | declareFunction => exact turns_commit settled (fun _ => Store.declareFunction_turnsBy) spot
  | deleteBinding e name =>
    simp only [Effect.apply, Machine.onStore]
    split
    · rename_i change found
      exact Store.turns_apply (Store.deleteBinding_turnsBy found) settled spot
    · exact .same
  | startRun | takeResumePoint | pushResumePoint | takeResumption =>
    simp only [Effect.apply]
    repeat' split
    all_goals exact .same
  | _ => exact .same

def enclosed? : Effect σ β → Option Environment
  | .enclose environment => some environment
  | _ => none

theorem settled (effect : Effect σ β) {m : Machine σ} (settled : m.store.Settled)
    (opened : ∀ env, effect.enclosed? = some env → env.record.Settled) :
    (effect.apply m).2.store.Settled := by
  cases effect with
  | enclose environment =>
    intro e
    simp only [Effect.apply, Machine.onStore, Store.environment_enclose]
    split
    · exact opened environment rfl
    · exact settled e
  | createMutable => exact settled_commit settled fun _ => Store.createMutable_turnsBy (σ := σ)
  | createImmutable => exact settled_commit settled fun _ => Store.createImmutable_turnsBy (σ := σ)
  | initBinding => exact settled_commit settled fun _ => Store.initBinding_turnsBy (σ := σ)
  | assign => exact settled_commit settled fun _ => Store.assign_turnsBy (σ := σ)
  | bindThis => exact settled_commit settled fun _ => Store.bindThis_turnsBy (σ := σ)
  | declareVar => exact settled_commit settled fun _ => Store.declareVar_turnsBy (σ := σ)
  | declareFunction => exact settled_commit settled fun _ => Store.declareFunction_turnsBy (σ := σ)
  | deleteBinding e name =>
    simp only [Effect.apply, Machine.onStore]
    split
    · rename_i change found
      exact Store.settled_apply (Store.deleteBinding_turnsBy (σ := σ) found) settled
    · exact settled
  | startRun | takeResumePoint | pushResumePoint | takeResumption =>
    simp only [Effect.apply]
    repeat' split
    all_goals exact settled
  | _ => exact settled

end Effect

end ScriptEngine
