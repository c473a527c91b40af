import ScriptEngine.Proofs.Fixed

/-!
# Scopes last

A scope stays what it was made as: it keeps its kind and the scope around it. Bindings that cannot
be deleted stay, and so does the way they can be used; what was initialized stays initialized.
-/

namespace ScriptEngine

variable {σ α : Type}

namespace Table

variable (t : Table α) {key key' : String} (a : α)

theorem find?_insert : (t.insert key a).find? key' = if key' = key then some a else t.find? key' := by
  obtain ⟨entries⟩ := t
  simp only [insert, find?]
  induction entries with
  | nil =>
    simp only [insertIn, findIn]
    split <;> split <;> simp_all
  | cons entry rest ih =>
    obtain ⟨k, b⟩ := entry
    by_cases replaced : k = key
    · subst replaced
      by_cases asked : k = key'
      · simp [insertIn, findIn, asked]
      · simp [insertIn, findIn, asked, Ne.symm asked]
    · by_cases asked : k = key'
      · subst asked
        simp [insertIn, findIn, replaced]
      · simp [insertIn, findIn, replaced, asked, ih]

theorem find?_erase_of_ne (other : key' ≠ key) : (t.erase key).find? key' = t.find? key' := by
  obtain ⟨entries⟩ := t
  simp only [erase, find?]
  induction entries with
  | nil => rfl
  | cons entry rest ih =>
    obtain ⟨k, b⟩ := entry
    simp only [eraseIn]
    split
    · rename_i same
      simp [findIn, same, other.symm]
    · simp only [findIn, ih]

end Table

/-! ## Bindings -/

structure Binding.Lasts (b b' : Binding) : Prop where
  mutable : b'.mutable = b.mutable
  deletable : b'.deletable = b.deletable
  initialized : b.initialized = true → b'.initialized = true

theorem Binding.Lasts.refl (b : Binding) : b.Lasts b := ⟨rfl, rfl, fun h => h⟩

theorem Binding.Lasts.trans {b₁ b₂ b₃ : Binding} (h : b₁.Lasts b₂) (h' : b₂.Lasts b₃) :
    b₁.Lasts b₃ :=
  ⟨h'.mutable.trans h.mutable, h'.deletable.trans h.deletable, fun i =>
    h'.initialized (h.initialized i)⟩

namespace Bindings

def Keeps (b b' : Bindings) : Prop :=
  ∀ name binding, b.find? name = some binding → binding.deletable = false →
    ∃ binding', b'.find? name = some binding' ∧ binding.Lasts binding'

variable {b b' b'' : Bindings} {name : String}

theorem Keeps.refl (b : Bindings) : Keeps b b := fun _ binding found _ => ⟨binding, found, .refl _⟩

theorem Keeps.trans (h : Keeps b b') (h' : Keeps b' b'') : Keeps b b'' := by
  intro name binding found firm
  obtain ⟨binding', found', lasts⟩ := h name binding found firm
  obtain ⟨binding'', found'', lasts'⟩ := h' name binding' found' (lasts.deletable.trans firm)
  exact ⟨binding'', found'', lasts.trans lasts'⟩

theorem keeps_insert {binding : Binding} (lasts : ∀ old, b.find? name = some old → old.Lasts binding) :
    Keeps b (b.insert name binding) := by
  intro other old found _
  rw [Table.find?_insert]
  by_cases same : other = name
  · subst same
    exact ⟨binding, if_pos rfl, lasts old found⟩
  · exact ⟨old, by rw [if_neg same, found], .refl _⟩

theorem keeps_of_create {binding : Binding} (h : create b name binding = .ok b') : Keeps b b' := by
  unfold create at h
  split at h
  · cases h
  · rename_i absent
    cases h
    refine keeps_insert fun old found => ?_
    simp [Table.contains, found] at absent

theorem keeps_of_initBinding {value : Value} (h : initBinding b name value = .ok b') :
    Keeps b b' := by
  unfold initBinding at h
  split at h
  · cases h
  · rename_i binding found
    cases h
    refine keeps_insert fun old found' => ?_
    cases found.symm.trans found'
    exact ⟨rfl, rfl, fun _ => rfl⟩

theorem keeps_of_assign {value : Value} {strict : Bool} (h : assign b name value strict = .ok b') :
    Keeps b b' := by
  unfold assign at h
  split at h
  · rename_i absent
    split at h
    · cases h
    · cases h
      exact keeps_insert fun old found => by simp [absent] at found
  · rename_i binding found
    split at h
    · cases h
    · split at h
      · cases h
        refine keeps_insert fun old found' => ?_
        cases found.symm.trans found'
        exact ⟨rfl, rfl, fun h => h⟩
      · split at h
        · cases h
        · cases h
          exact .refl b

theorem keeps_of_delete (h : delete b name = some b') : Keeps b b' := by
  unfold delete at h
  split at h
  · cases h
    exact .refl b
  · rename_i binding found
    split at h
    · rename_i deletable
      cases h
      intro other old found' firm
      have different : other ≠ name := by
        rintro rfl
        cases found.symm.trans found'
        simp [firm] at deletable
      exact ⟨old, by rw [Table.find?_erase_of_ne b different, found'], .refl _⟩
    · cases h

end Bindings

/-- The second is what the first one may become: `this` is bound once, and never in an arrow
function. -/
def ThisBinding.Lasts : ThisBinding → ThisBinding → Prop
  | .lexical, this => this = .lexical
  | .uninitialized, this => this ≠ .lexical
  | .bound value, this => this = .bound value

theorem ThisBinding.Lasts.refl (this : ThisBinding) : this.Lasts this := by
  cases this with
  | uninitialized => nofun
  | _ => rfl

theorem ThisBinding.Lasts.trans {t₁ t₂ t₃ : ThisBinding} (h : t₁.Lasts t₂) (h' : t₂.Lasts t₃) :
    t₁.Lasts t₃ := by
  cases t₁ with
  | lexical =>
    cases h
    exact h'
  | bound value =>
    cases h
    exact h'
  | uninitialized =>
    cases t₂ with
    | lexical => exact absurd rfl h
    | uninitialized => exact h'
    | bound value =>
      cases h'
      nofun

theorem ThisBinding.Lasts.lexical_iff {t t' : ThisBinding} (h : t.Lasts t') :
    t' = .lexical ↔ t = .lexical := by
  cases t with
  | lexical => exact ⟨fun _ => rfl, fun _ => h⟩
  | uninitialized => exact ⟨fun lexical => absurd lexical h, nofun⟩
  | bound value => simp [show t' = .bound value from h]

namespace Record

def Extends : Record → Record → Prop
  | .declarative b, .declarative b' => Bindings.Keeps b b'
  | .function r, .function r' =>
    Bindings.Keeps r.bindings r'.bindings ∧ r.this.Lasts r'.this ∧ r'.newTarget = r.newTarget
  | .global r, .global r' => Bindings.Keeps r.bindings r'.bindings ∧ r'.object = r.object
  | .object o isWith, .object o' isWith' => o' = o ∧ isWith' = isWith
  | _, _ => False

theorem Extends.refl (record : Record) : record.Extends record := by
  cases record with
  | declarative b => exact Bindings.Keeps.refl b
  | function r => exact ⟨.refl r.bindings, .refl r.this, rfl⟩
  | global r => exact ⟨.refl r.bindings, rfl⟩
  | object o isWith => exact ⟨rfl, rfl⟩

theorem Extends.trans {r₁ r₂ r₃ : Record} (h : r₁.Extends r₂) (h' : r₂.Extends r₃) :
    r₁.Extends r₃ := by
  cases r₁ <;> cases r₂ <;> cases r₃ <;> simp only [Extends] at *
  · exact h.trans h'
  · exact ⟨h.1.trans h'.1, h.2.1.trans h'.2.1, h'.2.2.trans h.2.2⟩
  · exact ⟨h.1.trans h'.1, h'.2.trans h.2⟩
  · exact ⟨h'.1.trans h.1, h'.2.trans h.2⟩

end Record

/-! ## Stores -/

namespace Store

def Has (s : Store) (e : EnvironmentId) : Prop := e.index < s.environments.size

def Grows (s s' : Store) : Prop :=
  ∀ e, s.Has e → s'.Has e ∧ (s'.environment e).outer = (s.environment e).outer ∧
    (s.environment e).record.Extends (s'.environment e).record

variable {s s' s'' : Store} {e : EnvironmentId} {name : String} {change : Change}

theorem Grows.refl (s : Store) : s.Grows s := fun _ has => ⟨has, rfl, .refl _⟩

theorem Grows.trans (h : s.Grows s') (h' : s'.Grows s'') : s.Grows s'' := by
  intro e has
  obtain ⟨has₁, outer, record⟩ := h e has
  obtain ⟨has₂, outer', record'⟩ := h' e has₁
  exact ⟨has₂, outer'.trans outer, record.trans record'⟩

theorem Grows.has (h : s.Grows s') (has : s.Has e) : s'.Has e := (h e has).1

theorem Grows.record (h : s.Grows s') (has : s.Has e) :
    (s.environment e).record.Extends (s'.environment e).record := (h e has).2.2

theorem environment_of_not_has (h : ¬ s.Has e) : s.environment e = {} := by
  have beyond : s.environments.size ≤ e.index := Nat.le_of_not_lt h
  simp [environment, Array.getD_eq_getD_getElem?, Array.getElem?_eq_none beyond]

theorem has_of_global {r : GlobalRecord} (record : (s.environment e).record = .global r) :
    s.Has e := by
  refine Classical.byContradiction fun absent => ?_
  rw [environment_of_not_has absent] at record
  cases record

theorem Grows.global (h : s.Grows s') {r : GlobalRecord}
    (record : (s.environment e).record = .global r) :
    ∃ r', (s'.environment e).record = .global r' ∧ r'.object = r.object := by
  have extended := h.record (has_of_global record)
  rw [record] at extended
  cases record' : (s'.environment e).record with
  | global r' =>
    rw [record'] at extended
    exact ⟨r', rfl, extended.2⟩
  | _ => simp [record', Record.Extends] at extended

/-! ## New scopes and records -/

theorem environment_enclose (s : Store) (env : Environment) (e : EnvironmentId) :
    (s.enclose env).2.environment e =
      if e.index = s.environments.size then env else s.environment e := by
  simp only [environment, enclose, Array.getD_eq_getD_getElem?, Array.getElem?_push]
  split <;> simp_all

theorem has_enclose (s : Store) (env : Environment) (e : EnvironmentId) :
    (s.enclose env).2.Has e ↔ s.Has e ∨ e.index = s.environments.size := by
  simp only [Has, enclose, Array.size_push]
  omega

theorem environment_setRecord (s : Store) (e : EnvironmentId) (record : Record)
    (e' : EnvironmentId) (has : s.Has e') :
    (s.setRecord e record).environment e' =
      if e' = e then { s.environment e' with record } else s.environment e' := by
  obtain ⟨i⟩ := e
  obtain ⟨j⟩ := e'
  have found : j < s.environments.size := has
  simp only [environment, setRecord, Array.getD_eq_getD_getElem?, Array.getElem?_modify,
    EnvironmentId.mk.injEq]
  by_cases same : i = j
  · subst same
    simp [found]
  · have other : j ≠ i := fun eq => same eq.symm
    simp [same, other]

theorem grows_enclose (s : Store) (env : Environment) : s.Grows (s.enclose env).2 := by
  intro e has
  have older : e.index ≠ s.environments.size := Nat.ne_of_lt has
  refine ⟨(s.has_enclose env e).2 (.inl has), ?_⟩
  rw [environment_enclose, if_neg older]
  exact ⟨rfl, .refl _⟩

theorem apply_environments (s : Store) (change : Change) :
    (s.apply change).environments = (match change.record with
      | some (e, record) => s.setRecord e record
      | none => s).environments := by
  obtain ⟨record, property⟩ := change
  have same : (s.apply ⟨none, property⟩).environments = s.environments := by
    rcases property with _ | ⟨o, key, _ | property⟩ <;> rfl
  cases record with
  | none => exact same
  | some changed =>
    obtain ⟨e, record⟩ := changed
    exact congrArg (fun envs => envs.modify e.index fun env => { env with record }) same

theorem has_apply (s : Store) (change : Change) (e : EnvironmentId) :
    (s.apply change).Has e ↔ s.Has e := by
  unfold Has
  rw [apply_environments]
  split
  · simp [setRecord]
  · rfl

theorem environment_apply (s : Store) (change : Change) (has : s.Has e) :
    (s.apply change).environment e = match change.record with
      | some (e', record) =>
        if e = e' then { s.environment e with record } else s.environment e
      | none => s.environment e := by
  have environments := s.apply_environments change
  cases found : change.record with
  | none =>
    simp only [found] at environments
    simp only [environment, environments]
  | some changed =>
    obtain ⟨e', record⟩ := changed
    simp only [found] at environments
    have same : (s.apply change).environment e = (s.setRecord e' record).environment e := by
      simp only [environment, environments]
    rw [same, environment_setRecord s e' record e has]

theorem outer_apply (s : Store) (change : Change) (has : s.Has e) :
    ((s.apply change).environment e).outer = (s.environment e).outer := by
  rw [environment_apply s change has]
  split
  · split <;> rfl
  · rfl

end Store

theorem map_eq_ok {β : Type} {r : Except Fault α} {f : α → β} {b : β} :
    r.map f = .ok b ↔ ∃ a, r = .ok a ∧ f a = b := by
  cases r <;> simp [Except.map]

def Change.Extends (s : Store) (change : Change) : Prop :=
  ∀ e record, change.record = some (e, record) → (s.environment e).record.Extends record

namespace Store

variable {s : Store} {e : EnvironmentId} {name : String} {change : Change} {value : Value}
  {deletable strict : Bool}

theorem grows_apply (h : change.Extends s) : s.Grows (s.apply change) := by
  intro e has
  refine ⟨(s.has_apply change e).2 has, s.outer_apply change has, ?_⟩
  rw [environment_apply s change has]
  split
  · rename_i e' record found
    split
    · rename_i same
      exact same ▸ h e' record found
    · exact .refl _
  · exact .refl _

theorem grows_commit {result : Except Fault Change}
    (h : ∀ change, result = .ok change → change.Extends s) : s.Grows (s.commit result).2 := by
  cases result with
  | ok change => exact grows_apply (h change rfl)
  | error fault => exact .refl s

/-! ## Operations on bindings -/

theorem changeBindings_extends {op : Bindings → Except Fault Bindings}
    (keeps : ∀ b b', op b = .ok b' → Bindings.Keeps b b')
    (h : s.changeBindings e op = .ok change) : change.Extends s := by
  unfold changeBindings at h
  split at h
  · rename_i b record
    obtain ⟨b', changed, rfl⟩ := map_eq_ok.1 h
    rintro e' _ ⟨⟩
    rw [record]
    exact keeps b b' changed
  · rename_i r record
    obtain ⟨b', changed, rfl⟩ := map_eq_ok.1 h
    rintro e' _ ⟨⟩
    rw [record]
    exact ⟨keeps r.bindings b' changed, .refl r.this, rfl⟩
  · rename_i r record
    obtain ⟨b', changed, rfl⟩ := map_eq_ok.1 h
    rintro e' _ ⟨⟩
    rw [record]
    exact ⟨keeps r.bindings b' changed, rfl⟩
  · cases h
    exact nofun

theorem assignProperty_extends {o : ObjectId}
    (h : s.assignProperty o name value strict = .ok change) : change.Extends s := by
  unfold assignProperty at h
  split at h
  · cases h
  · split at h
    · cases h
      exact nofun
    · split at h
      · cases h
      · cases h
        exact nofun

theorem createMutable_extends (h : s.createMutable e name deletable = .ok change) :
    change.Extends s := by
  unfold createMutable at h
  split at h
  · cases h
    exact nofun
  · exact changeBindings_extends (fun _ _ => Bindings.keeps_of_create) h

theorem createImmutable_extends (h : s.createImmutable e name strict = .ok change) :
    change.Extends s := by
  unfold createImmutable at h
  split at h
  · cases h
  · exact changeBindings_extends (fun _ _ => Bindings.keeps_of_create) h

theorem initBinding_extends (h : s.initBinding e name value = .ok change) : change.Extends s := by
  unfold initBinding at h
  split at h
  · split at h
    · exact changeBindings_extends (fun _ _ => Bindings.keeps_of_initBinding) h
    · exact assignProperty_extends h
  · exact assignProperty_extends h
  · exact changeBindings_extends (fun _ _ => Bindings.keeps_of_initBinding) h

theorem assign_extends (h : s.assign e name value strict = .ok change) : change.Extends s := by
  unfold assign at h
  split at h
  · split at h
    · exact changeBindings_extends (fun _ _ => Bindings.keeps_of_assign) h
    · exact assignProperty_extends h
  · exact assignProperty_extends h
  · exact changeBindings_extends (fun _ _ => Bindings.keeps_of_assign) h

theorem deleteBinding_extends (h : s.deleteBinding e name = some change) : change.Extends s := by
  unfold deleteBinding at h
  split at h
  · rename_i b record
    obtain ⟨b', deleted, rfl⟩ := Option.map_eq_some_iff.1 h
    rintro e' _ ⟨⟩
    rw [record]
    exact Bindings.keeps_of_delete deleted
  · rename_i r record
    obtain ⟨b', deleted, rfl⟩ := Option.map_eq_some_iff.1 h
    rintro e' _ ⟨⟩
    rw [record]
    exact ⟨Bindings.keeps_of_delete deleted, .refl r.this, rfl⟩
  · rename_i r record
    split at h
    · obtain ⟨b', deleted, rfl⟩ := Option.map_eq_some_iff.1 h
      rintro e' _ ⟨⟩
      rw [record]
      exact ⟨Bindings.keeps_of_delete deleted, rfl⟩
    · split at h
      · cases h
        exact nofun
      · split at h
        · cases h
          rintro e' _ ⟨⟩
          rw [record]
          exact ⟨.refl r.bindings, rfl⟩
        · cases h
  · split at h
    · cases h
      exact nofun
    · split at h
      · cases h
        exact nofun
      · cases h

theorem bindThis_extends (h : s.bindThis e value = .ok change) : change.Extends s := by
  unfold bindThis at h
  split at h
  · rename_i r record
    split at h
    · cases h
    · cases h
    · rename_i this
      cases h
      rintro e' _ ⟨⟩
      rw [record]
      refine ⟨.refl r.bindings, ?_, rfl⟩
      rw [this]
      nofun
  · cases h

theorem extends_noteVar {r : GlobalRecord} (record : (s.environment e).record = .global r)
    (name : String) : (s.environment e).record.Extends (.global (r.noteVar name)) := by
  rw [record]
  unfold GlobalRecord.noteVar
  split <;> exact ⟨.refl r.bindings, rfl⟩

theorem declareVar_extends (h : s.declareVar e name deletable = .ok change) : change.Extends s := by
  unfold declareVar at h
  split at h
  · rename_i r record
    cases h
    rintro e' _ ⟨⟩
    exact extends_noteVar record name
  · cases h

theorem declareFunction_extends (h : s.declareFunction e name value deletable = .ok change) :
    change.Extends s := by
  unfold declareFunction at h
  split at h
  · rename_i r record
    dsimp only at h
    split at h
    · cases h
      rintro e' _ ⟨⟩
      exact extends_noteVar record name
    · cases h
  · cases h

end Store

theorem Effect.grows {β : Type} (effect : Effect σ β) (m : Machine σ) :
    m.store.Grows (effect.apply m).2.store := by
  cases effect with
  | enclose environment => exact m.store.grows_enclose environment
  | createMutable => exact Store.grows_commit fun _ => Store.createMutable_extends
  | createImmutable => exact Store.grows_commit fun _ => Store.createImmutable_extends
  | initBinding => exact Store.grows_commit fun _ => Store.initBinding_extends
  | assign => exact Store.grows_commit fun _ => Store.assign_extends
  | bindThis => exact Store.grows_commit fun _ => Store.bindThis_extends
  | declareVar => exact Store.grows_commit fun _ => Store.declareVar_extends
  | declareFunction => exact Store.grows_commit fun _ => Store.declareFunction_extends
  | deleteBinding e name =>
    simp only [Effect.apply, Machine.onStore]
    split
    · rename_i change found
      exact Store.grows_apply (Store.deleteBinding_extends found)
    · exact .refl _
  | allocate | define | write | remove | preventExtensions =>
    exact fun e has => ⟨has, rfl, .refl _⟩
  | startRun | takeResumePoint | pushResumePoint | takeResumption =>
    simp only [Effect.apply]
    repeat' split
    all_goals exact .refl _
  | _ => exact .refl _

theorem scopes_kept : Kept fun m m' : Machine σ => m.store.Grows m'.store where
  refl m := .refl m.store
  trans := .trans
  effect := Effect.grows
  scope _ _ h := h
  frame _ h := h

end ScriptEngine
