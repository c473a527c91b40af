import ScriptEngine.Proofs.Spots

/-!
# New global names

New names are only added by the effects that declare them (`Effect.keepsName`): an assignment to an
unknown name makes a property and no name.
-/

namespace ScriptEngine

variable {σ : Type} {β : Type}

def Record.hasLexical : Record → String → Bool
  | .global r, name => r.bindings.contains name
  | _, _ => false

def Record.hasVar : Record → String → Bool
  | .global r, name => r.varNames.contains name
  | _, _ => false

theorem Store.hasLexical_eq (s : Store) (e : EnvironmentId) (name : String) :
    s.hasLexical e name = (s.environment e).record.hasLexical name := by
  unfold Store.hasLexical Environment.globalRecord? Record.hasLexical
  cases (s.environment e).record <;> rfl

theorem Store.hasVar_eq (s : Store) (e : EnvironmentId) (name : String) :
    s.hasVar e name = (s.environment e).record.hasVar name := by
  unfold Store.hasVar Environment.globalRecord? Record.hasVar
  cases (s.environment e).record <;> rfl

structure Record.KeepsName (record record' : Record) (name : String) : Prop where
  lexical : record'.hasLexical name = true → record.hasLexical name = true
  var : record'.hasVar name = true → record.hasVar name = true

theorem Record.KeepsName.refl (record : Record) (name : String) : record.KeepsName record name :=
  ⟨id, id⟩

def Store.KeepsName (p : Spot) (s s' : Store) : Prop :=
  (s.environment p.1).record.KeepsName (s'.environment p.1).record p.2

theorem Store.KeepsName.trans {p : Spot} {s s' s'' : Store} (h : s.KeepsName p s')
    (h' : s'.KeepsName p s'') : s.KeepsName p s'' :=
  ⟨fun found => h.lexical (h'.lexical found), fun found => h.var (h'.var found)⟩

def Change.KeepsName (p : Spot) (s : Store) (change : Change) : Prop :=
  ∀ record, change.record = some (p.1, record) →
    (s.environment p.1).record.KeepsName record p.2

namespace Store

variable {s : Store} {e : EnvironmentId} {name : String} {change : Change} {p : Spot}
  {b b' : Bindings} {other : String} {value : Value} {strict deletable : Bool}

theorem keepsName_apply (has : s.Has p.1) (h : change.KeepsName p s) :
    s.KeepsName p (s.apply change) := by
  unfold KeepsName
  rw [environment_apply s change has]
  split
  · rename_i e record set
    split
    · rename_i here
      exact h record (here ▸ set)
    · exact .refl _ _
  · exact .refl _ _

theorem keepsName_commit (has : s.Has p.1) {result : Except Fault Change}
    (h : ∀ change, result = .ok change → change.KeepsName p s) :
    s.KeepsName p (s.commit result).2 := by
  cases result with
  | ok change => exact keepsName_apply has (h change rfl)
  | error fault => exact .refl _ _

theorem keepsName_of_none (none : change.record = none) : change.KeepsName p s :=
  fun record set => by simp [none] at set

theorem changeBindings_keepsName {op : Bindings → Except Fault Bindings}
    (keeps : p.1 = e → ∀ r b, (s.environment e).record = .global r → op r.bindings = .ok b →
      b.contains p.2 = true → r.bindings.contains p.2 = true)
    (h : s.changeBindings e op = .ok change) : change.KeepsName p s := by
  unfold changeBindings at h
  split at h
  · obtain ⟨b, changed, rfl⟩ := map_eq_ok.1 h
    rintro _ ⟨⟩
    exact ⟨nofun, nofun⟩
  · obtain ⟨b, changed, rfl⟩ := map_eq_ok.1 h
    rintro _ ⟨⟩
    exact ⟨nofun, nofun⟩
  · rename_i r found
    obtain ⟨b, changed, rfl⟩ := map_eq_ok.1 h
    rintro _ ⟨⟩
    rw [found]
    exact ⟨keeps rfl r b found changed, id⟩
  · cases h
    exact keepsName_of_none rfl

theorem assignProperty_keepsName {o : ObjectId}
    (h : s.assignProperty o name value strict = .ok change) : change.KeepsName p s := by
  unfold assignProperty at h
  split at h
  · cases h
  · split at h
    · cases h
      exact keepsName_of_none rfl
    · split at h
      · cases h
      · cases h
        exact keepsName_of_none rfl

section

variable (elsewhere : p = (e, name) → (s.environment e).globalRecord? = none)

include elsewhere

theorem create_keepsName {binding : Binding}
    (h : s.changeBindings e (Bindings.create · name binding) = .ok change) :
    change.KeepsName p s := by
  refine changeBindings_keepsName (fun here r b found created has => ?_) h
  unfold Bindings.create at created
  split at created
  · cases created
  · cases created
    rw [Table.contains, Table.find?_insert] at has
    split at has
    · rename_i same
      have none := elsewhere (Prod.ext here same)
      simp [Environment.globalRecord?, found] at none
    · exact has

theorem createMutable_keepsName (h : s.createMutable e name deletable = .ok change) :
    change.KeepsName p s := by
  unfold createMutable at h
  split at h
  · cases h
    exact keepsName_of_none rfl
  · exact create_keepsName elsewhere h

theorem createImmutable_keepsName (h : s.createImmutable e name strict = .ok change) :
    change.KeepsName p s := by
  unfold createImmutable at h
  split at h
  · cases h
  · exact create_keepsName elsewhere h

end

theorem contains_of_insert {binding : Binding} (known : b.contains name = true)
    (h : (b.insert name binding).contains other = true) : b.contains other = true := by
  rw [Table.contains, Table.find?_insert] at h
  split at h
  · rename_i same
    exact same ▸ known
  · exact h

theorem contains_of_initBinding (made : Bindings.initBinding b name value = .ok b')
    (h : b'.contains other = true) : b.contains other = true := by
  unfold Bindings.initBinding at made
  split at made
  · cases made
  · rename_i binding found
    cases made
    exact contains_of_insert (by simp [Table.contains, found]) h

theorem contains_of_assign (known : b.contains name = true)
    (made : Bindings.assign b name value strict = .ok b') (h : b'.contains other = true) :
    b.contains other = true := by
  unfold Bindings.assign at made
  split at made
  · rename_i absent
    simp [Table.contains, absent] at known
  · split at made
    · cases made
    · split at made
      · cases made
        exact contains_of_insert known h
      · split at made
        · cases made
        · cases made
          exact h

theorem contains_of_delete (made : Bindings.delete b name = some b') (h : b'.contains other = true) :
    b.contains other = true := by
  unfold Bindings.delete at made
  split at made
  · cases made
    exact h
  · split at made
    · rename_i binding found _
      cases made
      by_cases same : other = name
      · simp [Table.contains, same, found]
      · rwa [Table.contains, Table.find?_erase_of_ne b same] at h
    · cases made

theorem initBinding_keepsName (h : s.initBinding e name value = .ok change) :
    change.KeepsName p s := by
  have table (h : s.changeBindings e (Bindings.initBinding · name value) = .ok change) :
      change.KeepsName p s :=
    changeBindings_keepsName (fun _ _ _ _ => contains_of_initBinding) h
  unfold initBinding at h
  split at h
  · split at h
    · exact table h
    · exact assignProperty_keepsName h
  · exact assignProperty_keepsName h
  · exact table h

theorem assign_keepsName (h : s.assign e name value strict = .ok change) :
    change.KeepsName p s := by
  unfold assign at h
  split at h
  · rename_i r global
    split at h
    · rename_i known
      refine changeBindings_keepsName (fun _ r' _ found => contains_of_assign ?_) h
      cases global.symm.trans found
      exact known
    · exact assignProperty_keepsName h
  · exact assignProperty_keepsName h
  · rename_i other _
    exact changeBindings_keepsName (fun _ r _ found => absurd found (other r)) h

theorem deleteBinding_keepsName (h : s.deleteBinding e name = some change) :
    change.KeepsName p s := by
  unfold deleteBinding at h
  split at h
  · obtain ⟨b, deleted, rfl⟩ := Option.map_eq_some_iff.1 h
    rintro _ ⟨⟩
    exact ⟨nofun, nofun⟩
  · obtain ⟨b, deleted, rfl⟩ := Option.map_eq_some_iff.1 h
    rintro _ ⟨⟩
    exact ⟨nofun, nofun⟩
  · rename_i r found
    split at h
    · obtain ⟨b, deleted, rfl⟩ := Option.map_eq_some_iff.1 h
      rintro _ ⟨⟩
      rw [found]
      exact ⟨contains_of_delete deleted, id⟩
    · split at h
      · cases h
        exact keepsName_of_none rfl
      · split at h
        · cases h
          rintro _ ⟨⟩
          rw [found]
          exact ⟨id, fun has => by simp_all [Record.hasVar]⟩
        · cases h
  · split at h
    · cases h
      exact keepsName_of_none rfl
    · split at h
      · cases h
        exact keepsName_of_none rfl
      · cases h

theorem bindThis_keepsName (h : s.bindThis e value = .ok change) : change.KeepsName p s := by
  unfold bindThis at h
  split at h
  · split at h
    · cases h
    · cases h
    · cases h
      rintro _ ⟨⟩
      exact ⟨nofun, nofun⟩
  · cases h

theorem keepsName_noteVar {r : GlobalRecord} (h : other ≠ name) :
    (Record.global r).KeepsName (.global (r.noteVar name)) other := by
  unfold GlobalRecord.noteVar
  split
  · exact .refl _ _
  · exact ⟨id, fun has => by simpa [Record.hasVar, h] using has⟩

theorem declareVar_keepsName (elsewhere : p ≠ (e, name))
    (h : s.declareVar e name deletable = .ok change) : change.KeepsName p s := by
  unfold declareVar at h
  split at h
  · rename_i r found
    cases h
    rintro _ ⟨⟩
    rw [found]
    exact keepsName_noteVar fun same => elsewhere (Prod.ext rfl same)
  · cases h

theorem declareFunction_keepsName (elsewhere : p ≠ (e, name))
    (h : s.declareFunction e name value deletable = .ok change) : change.KeepsName p s := by
  unfold declareFunction at h
  split at h
  · rename_i r found
    dsimp only at h
    split at h
    · cases h
      rintro _ ⟨⟩
      rw [found]
      exact keepsName_noteVar fun same => elsewhere (Prod.ext rfl same)
    · cases h
  · cases h

end Store

def Effect.Declares (p : Spot) (s : Store) : Effect σ β → Prop
  | .createMutable e name _ | .createImmutable e name _ =>
    p = (e, name) ∧ (s.environment e).globalRecord? ≠ none
  | .declareVar e name _ | .declareFunction e name _ _ => p = (e, name)
  | _ => False

theorem Effect.keepsName {p : Spot} {effect : Effect σ β} {m : Machine σ} (has : m.store.Has p.1)
    (h : ¬ effect.Declares p m.store) : m.store.KeepsName p (effect.apply m).2.store := by
  cases effect with
  | enclose environment =>
    have older : p.1.index ≠ m.store.environments.size := Nat.ne_of_lt has
    unfold Store.KeepsName
    simp only [Effect.apply, Machine.onStore, Store.environment_enclose, if_neg older]
    exact .refl _ _
  | createMutable e name deletable =>
    exact Store.keepsName_commit has fun _ => Store.createMutable_keepsName fun here =>
      Classical.byContradiction fun global => h ⟨here, global⟩
  | createImmutable e name strict =>
    exact Store.keepsName_commit has fun _ => Store.createImmutable_keepsName fun here =>
      Classical.byContradiction fun global => h ⟨here, global⟩
  | initBinding => exact Store.keepsName_commit has fun _ => Store.initBinding_keepsName
  | assign => exact Store.keepsName_commit has fun _ => Store.assign_keepsName
  | bindThis => exact Store.keepsName_commit has fun _ => Store.bindThis_keepsName
  | declareVar e name deletable =>
    exact Store.keepsName_commit has fun _ => Store.declareVar_keepsName h
  | declareFunction e name value deletable =>
    exact Store.keepsName_commit has fun _ => Store.declareFunction_keepsName h
  | deleteBinding e name =>
    simp only [Effect.apply, Machine.onStore]
    split
    · rename_i change found
      exact Store.keepsName_apply has (Store.deleteBinding_keepsName found)
    · exact .refl _ _
  | startRun | takeResumePoint | pushResumePoint | takeResumption =>
    simp only [Effect.apply]
    repeat' split
    all_goals exact .refl _ _
  | _ => exact .refl _ _

end ScriptEngine
