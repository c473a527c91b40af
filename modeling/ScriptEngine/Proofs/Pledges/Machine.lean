import ScriptEngine.Proofs.Generator.Resuming
import ScriptEngine.Proofs.GlobalNames
import ScriptEngine.Proofs.Integrity.Store
import ScriptEngine.Proofs.Pledges.Tree

/-!
# Who may initialize a binding

A lexical binding is initialized by the statement that declares it. While that statement is still to
come, it is either ahead of the code that is running or ahead of a generator that is parked, and
never of two of them.
-/

namespace ScriptEngine

variable {σ α β : Type} {e : EnvironmentId} {s s' : Store}

namespace Store

variable (once : Bool) (p : Spot) (s : Store)

def Reserved : Prop :=
  ∃ b, s.binding? p = some b ∧ b.deletable = false ∧ (once = true → b.initialized = false)

variable {once p s}

theorem Reserved.has (h : s.Reserved once p) : s.Has p.1 :=
  let ⟨_, found, _⟩ := h
  has_of_binding? found

theorem Grows.binding? (h : s.Grows s') {b : Binding} (found : s.binding? p = some b)
    (firm : b.deletable = false) : ∃ b', s'.binding? p = some b' ∧ b.Lasts b' := by
  have record := h.record (has_of_binding? found)
  unfold Store.binding? Record.binding? at found ⊢
  cases before : (s.environment p.1).record <;> cases after : (s'.environment p.1).record <;>
    rw [before, after] at record <;> rw [before] at found <;>
    simp only [Record.Extends] at record <;>
    simp only [Record.table?, Option.bind_some, Option.bind_none, reduceCtorEq] at found ⊢
  · exact record _ b found firm
  · exact record.1 _ b found firm
  · exact record.1 _ b found firm

structure Retains (p : Spot) (s s' : Store) : Prop where
  constant : ∀ b, s.binding? p = some b → b.mutable = false → b.initialized = true →
    s'.binding? p = some b
  initialized : ∀ b b', s.binding? p = some b → s'.binding? p = some b' → b.initialized = true →
    b'.initialized = true

theorem Retains.refl (p : Spot) (s : Store) : s.Retains p s :=
  ⟨fun _ found _ _ => found, fun b b' found found' initialized => by
    cases found.symm.trans found'
    exact initialized⟩

end Store

/-! ## Code and generators -/

def Callable.Tidy (once : Bool) : Callable → Prop
  | .script closure | .generator closure => closure.node.tidy once = true
  | .native _ | .bound _ => True

def Heap.Tidy (once : Bool) (h : Heap) : Prop :=
  ∀ o callable, (h.get o).callable? = some callable → callable.Tidy once

def Generator.dues (generator : Generator) : Dues :=
  match generator.frame with
  | none => 0
  | some frame =>
    generator.closure.node.body.dues frame.strict frame.lexical generator.resumePoints

structure Watch where
  /-- Statement lists declare no name twice, and it matters if a binding is initialized twice. -/
  once : Bool
  sound : Bool := false
  /-- So many objects are not to be given properties without a look at what they have. -/
  objects : Nat := 0
  /-- The names that may be declared as global functions. -/
  functions : Spot → Prop := fun _ => True
  /-- The bindings that are not to be initialized. -/
  sealed : Spot → Prop := fun _ => False

namespace Watch

variable (W : Watch)

def Asks (tidy wellFormed : Bool) : Prop := tidy = true ∧ (W.sound = true → wellFormed = true)

def Admits (s : Store) (callable : Callable) : Prop :=
  callable.Tidy W.once ∧ (W.sound = true → callable.Intact s)

variable {W}

theorem asks_and {a b c d : Bool} : W.Asks (a && b) (c && d) ↔ W.Asks a c ∧ W.Asks b d := by
  simp only [Asks, Bool.and_eq_true]
  grind

theorem asks_of_and {a b c : Bool} : W.Asks (a && b) c ↔ a = true ∧ W.Asks b c := by
  simp only [Asks, Bool.and_eq_true, and_assoc]

theorem asks_and_of {a b c : Bool} : W.Asks (a && b) c ↔ W.Asks a c ∧ b = true := by
  simp only [Asks, Bool.and_eq_true]
  grind

theorem admits_of_none {s : Store} {object : Object} (h : object.callable? = none) (callable : Callable)
    (found : object.callable? = some callable) : W.Admits s callable := by
  cases h.symm.trans found

end Watch

/-! ## Machines without internal errors -/

structure Store.Inner (s : Store) (e : EnvironmentId) : Prop where
  has : s.Has e
  inner : e ≠ ⟨0⟩

theorem Store.Grows.inner (h : s.Grows s') (inner : s.Inner e) :
    s'.Inner e := ⟨h.has inner.has, inner.inner⟩

def ResumePoint.scope? : ResumePoint → Option EnvironmentId
  | .scope own | .loop _ own | .switch _ _ own | .tryCatch (.handler own) => own
  | _ => none

structure Generator.Intact (s : Store) (generator : Generator) : Prop where
  node : generator.closure.node.wellFormed = true
  frame : ∀ frame, generator.frame = some frame → s.Inner frame.lexical
  records : ∀ point ∈ generator.resumePoints, ∀ e, point.scope? = some e → s.Inner e

theorem Generator.Intact.grows {generator : Generator} (h : generator.Intact s) (grows : s.Grows s') :
    generator.Intact s' :=
  ⟨h.node, fun frame parked => grows.inner (h.frame frame parked),
    fun point listed e named => grows.inner (h.records point listed e named)⟩

namespace Machine

def Grounds (m : Machine σ) (e : EnvironmentId) : Prop :=
  m.store.Has e ∧ (m.runningGenerator? ≠ none → e ≠ ⟨0⟩)

/-- The scopes of the machine are such that no internal error can come about. -/
structure Intact (m : Machine σ) : Prop where
  store : m.store.Intact
  realm : m.realm.globalEnvironment = ⟨0⟩
  lexical : m.Grounds m.lexical
  generators : ∀ g generator, m.generator? g = some generator → generator.Intact m.store

variable {m m' : Machine σ}

theorem Grounds.congr (h : m.Grounds e) (grows : m.store.Grows m'.store)
    (running : m'.runningGenerator? = m.runningGenerator?) : m'.Grounds e :=
  ⟨grows.has h.1, fun found => h.2 (running ▸ found)⟩

theorem grounds_of_inner (h : m.store.Inner e) : m.Grounds e :=
  ⟨h.has, fun _ => h.inner⟩

theorem Grounds.inner (h : m.Grounds e) {g : GeneratorId} (running : m.runningGenerator? = some g) :
    m.store.Inner e := ⟨h.1, h.2 (by simp [running])⟩

def Inside (e : EnvironmentId) (m : Machine σ) : Prop :=
  m.stack.running?.map (·.lexical) = some e

theorem Inside.lexical (h : m.Inside e) : m.lexical = e := by
  obtain ⟨frame, running, here⟩ := Option.map_eq_some_iff.1 h
  rw [Machine.lexical, running]
  exact here

theorem Inside.setScope {scope : EnvironmentId} (h : m.Inside scope) (varScope : EnvironmentId) :
    (m.setScope e varScope).Inside e := by
  obtain ⟨frame, running, -⟩ := Option.map_eq_some_iff.1 h
  unfold Inside Machine.setScope CallStack.setScope
  unfold CallStack.running? at running ⊢
  split
  · simp_all
  · rfl

theorem Inside.congr (h : m.Inside e) (stack : m'.stack = m.stack) : m'.Inside e := by
  unfold Inside
  rw [stack]
  exact h

theorem Orderly.inside (h : m.Orderly) : m.Inside m.lexical := by
  unfold Inside Machine.lexical CallStack.running?
  cases frames : m.stack.frames with
  | nil =>
    have root := h.root
    simp [links, frames] at root
  | cons frame rest => rfl

theorem lexical_of_stack (h : m.Orderly) (stack : m'.stack = m.stack) : m'.lexical = m.lexical :=
  (h.inside.congr stack).lexical

theorem Intact.change (h : m.Intact) (orderly : m.Orderly) (store : m'.store.Intact)
    (grows : m.store.Grows m'.store) (stack : m'.stack = m.stack) (realm : m'.realm = m.realm)
    (generators : ∀ g generator, m'.generator? g = some generator → generator.Intact m'.store) :
    m'.Intact where
  store := store
  realm := realm ▸ h.realm
  lexical := by
    rw [lexical_of_stack orderly stack]
    exact h.lexical.congr grows (by simp only [runningGenerator?, stack])
  generators := generators

end Machine

/-! ## The invariant -/

namespace Machine

def Claimed (p : Spot) (m : Machine σ) : Prop :=
  ∃ g generator, m.generator? g = some generator ∧ 0 < generator.dues p

/-- What parked generators pledge can be done, and no two of them pledge the same. -/
structure Tidy (W : Watch) (m : Machine σ) : Prop where
  orderly : m.Orderly
  settled : m.store.Settled
  objects : W.objects ≤ m.heap.objects.size
  heap : m.heap.Tidy W.once
  bodies : ∀ g generator, m.generator? g = some generator →
    generator.closure.node.tidy W.once = true
  pledged : ∀ p g generator, m.generator? g = some generator → 0 < generator.dues p →
    m.store.Reserved W.once p ∧ (W.once = true → generator.dues p ≤ 1)
  apart : ∀ p g g' generator generator', m.generator? g = some generator →
    m.generator? g' = some generator' → 0 < generator.dues p → 0 < generator'.dues p → g = g'
  sealed : ∀ p, W.sealed p → m.store.Reserved W.once p ∧ ¬ m.Claimed p
  intact : W.sound = true → m.Intact

structure Awaits (W : Watch) (p : Spot) (m : Machine σ) : Prop where
  reserved : m.store.Reserved W.once p
  unclaimed : ¬ m.Claimed p
  unsealed : ¬ W.sealed p

end Machine

structure Rights where
  init : Spot → Prop
  declare : Prop

namespace Rights

def none : Rights := ⟨fun _ => False, False⟩

def upTo (n : Dues) : Rights := ⟨fun p => 0 < n p, False⟩

def since (first : Nat) : Rights := ⟨fun p => first ≤ p.1.index, False⟩

def script : Rights := ⟨fun _ => False, True⟩

structure Le (R R' : Rights) : Prop where
  init : ∀ p, R.init p → R'.init p
  declare : R.declare → R'.declare

theorem Le.refl (R : Rights) : R.Le R := ⟨fun _ => id, id⟩

theorem none_le (R : Rights) : none.Le R := ⟨fun _ => False.elim, False.elim⟩

theorem upTo_zero_le (R : Rights) : (upTo 0).Le R :=
  ⟨fun _ positive => absurd positive (Nat.lt_irrefl 0), False.elim⟩

theorem upTo_le {a n : Dues} (h : a ≤ n) : (upTo a).Le (upTo n) :=
  ⟨fun p positive => Nat.lt_of_lt_of_le positive (h p), id⟩

theorem among_le_since {first : Nat} {e : EnvironmentId} (new : first ≤ e.index)
    (names : List String) : (upTo (.among e names)).Le (.since first) := by
  refine ⟨fun p held => ?_, id⟩
  change first ≤ p.1.index
  rwa [Dues.scope_of_among held]

end Rights

structure Store.Takes (R : Rights) (e : EnvironmentId) (s : Store) : Prop where
  has : s.Has e
  table : (s.environment e).record.table?.isSome = true
  declare : R.declare ∨ (s.environment e).globalRecord? = none

theorem Store.Takes.mono {R R' : Rights} (h : s.Takes R e) (le : R.declare → R'.declare) :
    s.Takes R' e := ⟨h.has, h.table, h.declare.imp_left le⟩

theorem Store.Takes.declares {R : Rights} (h : s.Takes R e) :
    s.Declares e := ⟨h.has, fun o isWith record => by
  have table := h.table
  simp [record, Record.table?] at table⟩

theorem Store.Grows.takes {R : Rights} (h : s.Grows s') (takes : s.Takes R e) : s'.Takes R e := by
  have record := h.record takes.has
  have table := takes.table
  have declare := takes.declare
  unfold Environment.globalRecord? at declare
  refine ⟨h.has takes.has, ?_, ?_⟩
  · cases before : (s.environment e).record <;> cases after : (s'.environment e).record <;>
      simp_all [Record.Extends, Record.table?]
  · unfold Environment.globalRecord?
    cases before : (s.environment e).record <;> cases after : (s'.environment e).record <;>
      simp_all [Record.Extends]

namespace Machine

structure Honors (W : Watch) (R : Rights) (m m' : Machine σ) : Prop where
  grows : m.store.Grows m'.store
  unclaimed : ∀ p, m.store.Has p.1 → ¬ m.Claimed p → ¬ m'.Claimed p
  reserved : ∀ p, (W.once = true → ¬ R.init p) → m.store.Reserved W.once p → ¬ m.Claimed p →
    m'.store.Reserved W.once p
  names : ∀ p, ¬ R.declare → m.store.Has p.1 → m.store.KeepsName p m'.store

def Holds (W : Watch) (m : Machine σ) (n : Dues) : Prop :=
  ∀ p, 0 < n p → m.Awaits W p ∧ (W.once = true → n p ≤ 1)

variable {W : Watch} {p : Spot} {m m₁ m' : Machine σ} {R R' : Rights} {n n' : Dues}

theorem Claimed.congr (generators : m'.generators = m.generators) :
    m'.Claimed p ↔ m.Claimed p := by
  simp only [Claimed, generator?, generators]

theorem Awaits.congr (h : m.Awaits W p) (store : m'.store = m.store)
    (generators : m'.generators = m.generators) : m'.Awaits W p :=
  ⟨store ▸ h.reserved, fun claimed => h.unclaimed ((Claimed.congr generators).1 claimed), h.unsealed⟩

theorem Tidy.awaits (h : m.Tidy W) (generators : m'.generators = m.generators)
    (absent : ¬ m.store.Reserved W.once p) (reserved : m'.store.Reserved W.once p) :
    m'.Awaits W p := by
  refine ⟨reserved, fun claimed => ?_, fun sealed => absent (h.sealed p sealed).1⟩
  obtain ⟨g, generator, hg, pledges⟩ := (Claimed.congr generators).1 claimed
  exact absent (h.pledged p g generator hg pledges).1

namespace Honors

theorem refl (m : Machine σ) : m.Honors W R m :=
  ⟨.refl _, fun _ _ h => h, fun _ _ h _ => h, fun _ _ _ => .refl _ _⟩

theorem step (h : m.Honors W R m₁) (h' : m₁.Honors W R' m')
    (init : ∀ p, m.store.Reserved W.once p → R'.init p → R.init p)
    (declare : R'.declare → R.declare) : m.Honors W R m' where
  grows := h.grows.trans h'.grows
  unclaimed p has free := h'.unclaimed p (h.grows.has has) (h.unclaimed p has free)
  reserved p refused reserved free := h'.reserved p (fun o used => refused o (init p reserved used))
    (h.reserved p refused reserved free) (h.unclaimed p reserved.has free)
  names p refused has := (h.names p refused has).trans
    (h'.names p (fun used => refused (declare used)) (h.grows.has has))

theorem trans (h : m.Honors W R m₁) (h' : m₁.Honors W R m') : m.Honors W R m' :=
  h.step h' (fun _ _ => id) id

theorem weaken (h : m.Honors W R m') (init : ∀ p, m.store.Reserved W.once p → R.init p → R'.init p)
    (declare : R.declare → R'.declare) : m.Honors W R' m' :=
  (refl m).step h init declare

theorem mono (h : m.Honors W R m') (le : R.Le R') : m.Honors W R' m' :=
  h.weaken (fun p _ => le.init p) le.declare

theorem congr {m₂ m₃ : Machine σ} (h : m.Honors W R m') (store : m₂.store = m.store)
    (generators : m₂.generators = m.generators) (store' : m₃.store = m'.store)
    (generators' : m₃.generators = m'.generators) : m₂.Honors W R m₃ where
  grows := by rw [store, store']; exact h.grows
  unclaimed p := by
    rw [store, Claimed.congr generators, Claimed.congr generators']; exact h.unclaimed p
  reserved p := by rw [store, store', Claimed.congr generators]; exact h.reserved p
  names p := by rw [store, store']; exact h.names p

end Honors

/-! ## Holding rights -/

theorem Awaits.honors (h : m.Awaits W p) (honors : m.Honors W R m')
    (refused : W.once = true → ¬ R.init p) : m'.Awaits W p :=
  ⟨honors.reserved p refused h.reserved h.unclaimed, honors.unclaimed p h.reserved.has h.unclaimed,
    h.unsealed⟩

theorem Holds.zero : m.Holds W 0 := nofun

theorem Holds.mono (h : m.Holds W n) (le : n' ≤ n) : m.Holds W n' := fun p positive =>
  let ⟨awaits, single⟩ := h p (Nat.lt_of_lt_of_le positive (le p))
  ⟨awaits, fun o => Nat.le_trans (le p) (single o)⟩

theorem Holds.congr (h : m.Holds W n) (store : m'.store = m.store)
    (generators : m'.generators = m.generators) : m'.Holds W n := fun p positive =>
  (h p positive).imp_left (·.congr store generators)

theorem Holds.honors (h : m.Holds W n) (honors : m.Honors W R m')
    (refused : W.once = true → ∀ p, 0 < n p → ¬ R.init p) : m'.Holds W n := fun p positive =>
  (h p positive).imp_left (·.honors honors fun o => refused o p positive)

theorem Holds.none (h : m.Holds W n) (honors : m.Honors W .none m') : m'.Holds W n :=
  h.honors honors fun _ _ _ => id

theorem Holds.spend {a : Dues} (h : m.Holds W (a + n)) (honors : m.Honors W (.upTo a) m') :
    m'.Holds W n := by
  refine (h.mono le_add_self).honors honors fun o p positive spends => ?_
  have single : a p + n p ≤ 1 := (h p (Nat.add_pos_right _ positive)).2 o
  change 0 < a p at spends
  omega

theorem Holds.add (h : m.Holds W n) (h' : m.Holds W n')
    (single : W.once = true → ∀ p, 0 < n p → 0 < n' p → False) : m.Holds W (n + n') := by
  intro p positive
  rw [Pi.add_apply] at positive ⊢
  rcases Nat.eq_zero_or_pos (n p) with none | used
  · rw [none, Nat.zero_add] at positive ⊢
    exact h' p positive
  · refine ⟨(h p used).1, fun o => ?_⟩
    have alone : n' p = 0 := Nat.eq_zero_of_not_pos (single o p used)
    rw [alone]
    exact (h p used).2 o

end Machine

/-! ## Effects -/

def Effect.Allowed (W : Watch) (R : Rights) (m : Machine σ) : Effect σ β → Prop
  | .allocate object => ∀ callable, object.callable? = some callable → W.Admits m.store callable
  | .define o _ _ => W.objects ≤ o.index
  | .enclose environment => environment.record.Settled ∧ (W.sound = true →
      environment.record.Proper ∧ ∃ outer, environment.outer = some outer ∧ m.store.Has outer)
  | .createMutable e _ _ | .createImmutable e _ _ => m.store.Takes R e
  | .initBinding e name _ => R.init (e, name) ∧ m.Awaits W (e, name)
  | .bindThis e value => W.sound = true → ∃ target, m.store.OwnsThis e target ∧
      ∀ o, target = .object o → ∃ o, value = .object o
  | .declareVar e .. => R.declare ∧ (W.sound = true → e = ⟨0⟩)
  | .declareFunction e name _ _ => R.declare ∧ W.functions (e, name) ∧ (W.sound = true → e = ⟨0⟩)
  | .createGenerator .. | .startRun .. | .suspend .. | .complete _ | .takeResumePoint
  | .pushResumePoint _ | .takeResumption => False
  | _ => True

def Moment.Watched (W : Watch) : Moment σ → Prop
  | .look m | .round _ m => m.Tidy W
  | .change before after => after.store = before.store ∨ before.store.Settled ∧
      ∃ (β : Type) (effect : Effect σ β) (R : Rights), effect.Allowed W R before ∧
        after = (effect.apply before).2

namespace Effect

variable {W : Watch} {p : Spot} {R : Rights} {effect : Effect σ β} {m : Machine σ}

section

variable (h : effect.Allowed W R m)

include h

theorem Allowed.generators : (effect.apply m).2.generators = m.generators := by
  cases effect with
  | createGenerator | startRun | suspend | complete | takeResumePoint | pushResumePoint
  | takeResumption => exact h.elim
  | _ => rfl

theorem Allowed.watched (tidy : m.Tidy W) :
    (Moment.change m (effect.apply m).2).Watched W := .inr ⟨tidy.settled, β, effect, R, h, rfl⟩

theorem Allowed.reserved (settled : m.store.Settled)
    (refused : W.once = true → ¬ (R.init p ∧ m.Awaits W p)) (reserved : m.store.Reserved W.once p) :
    (effect.apply m).2.store.Reserved W.once p := by
  obtain ⟨b, found, firm, usable⟩ := reserved
  have turns := effect.turns settled p
  rw [found] at turns
  generalize after : (effect.apply m).2.store.binding? p = b' at turns
  cases turns with
  | same => exact ⟨b, after, firm, usable⟩
  | initialized => exact ⟨_, after, firm, fun o => (refused o h).elim⟩
  | assigned => exact ⟨_, after, firm, usable⟩
  | deleted deletable => simp [firm] at deletable

theorem Allowed.retains (settled : m.store.Settled) (once : W.once = true) (p : Spot) :
    m.store.Retains p (effect.apply m).2.store := by
  have turns := effect.turns settled p
  generalize before : m.store.binding? p = b at turns
  generalize after : (effect.apply m).2.store.binding? p = b' at turns
  constructor
  · intro c found constant initialized
    cases before.symm.trans found
    cases turns with
    | same => exact after
    | initialized =>
      obtain ⟨_, found', -, usable⟩ := h.2.reserved
      cases before.symm.trans found'
      simp [initialized, once] at usable
    | assigned mutable => simp [constant] at mutable
    | deleted deletable =>
      have firm := settled.firm before constant
      simp [firm] at deletable
  · intro c c' found found' initialized
    cases before.symm.trans found
    cases after.symm.trans found'
    cases turns with
    | same => exact initialized
    | initialized => rfl
    | assigned => exact initialized

theorem Allowed.heap (tidy : m.heap.Tidy W.once) : (effect.apply m).2.heap.Tidy W.once := by
  have alike (same : effect.allocated? = none) : (effect.apply m).2.heap.Tidy W.once := by
    intro o callable found
    have kind := (Effect.alike same m).kind o
    exact tidy o callable (by simpa only [Object.callable?, kind] using found)
  cases effect with
  | allocate object =>
    intro o callable found
    change ((m.heap.allocate object).2.get o).callable? = some callable at found
    rw [Heap.get_allocate] at found
    split at found
    · exact (h callable found).1
    · exact tidy o callable found
  | _ => exact alike rfl

theorem Allowed.names (refused : ¬ R.declare) (has : m.store.Has p.1) :
    m.store.KeepsName p (effect.apply m).2.store := by
  refine Effect.keepsName has fun declares => ?_
  cases effect with
  | createMutable | createImmutable => exact h.declare.elim refused declares.2
  | declareVar | declareFunction => exact refused h.1
  | _ => exact declares

theorem Allowed.honors (settled : m.store.Settled) : m.Honors W R (effect.apply m).2 where
  grows := effect.grows m
  unclaimed _ _ free := by rwa [Machine.Claimed.congr h.generators]
  reserved _ refused reserved _ :=
    h.reserved settled (fun o used => refused o used.1) reserved
  names _ := h.names

end

theorem contains_of_reserved {once : Bool} {s : Store} {e : EnvironmentId}
    {name : String} (h : s.Reserved once (e, name)) {b : Bindings}
    (table : (s.environment e).record.bindings? = some b) : b.contains name = true := by
  obtain ⟨binding, found, -⟩ := h
  unfold Store.binding? Record.binding? at found
  cases record : (s.environment e).record <;> simp only [record] at table found <;> cases table <;>
    simp_all [Record.table?, Table.contains]

theorem intact_commit {s : Store} (intact : s.Intact)
    {op : Except Fault Change} {Q : Change → Prop}
    (ends : EndsWell (fun change => change.Proper ∧ Q change) op)
    (grows : s.Grows (s.commit op).2) : (s.commit op).2.Intact := by
  cases op with
  | error fault => exact intact
  | ok change => exact intact.apply grows ends.1

variable (h : effect.Allowed W R m)

include h

theorem Allowed.endsWell (sound : W.sound = true) (intact : m.store.Intact) :
    match effect with
    | .createMutable e name deletable => EndsWell Change.Proper (m.store.createMutable e name deletable)
    | .createImmutable e name strict => EndsWell Change.Proper (m.store.createImmutable e name strict)
    | .initBinding e name value => EndsWell Change.Proper (m.store.initBinding e name value)
    | .assign e name value strict => EndsWell Change.Proper (m.store.assign e name value strict)
    | .bindThis e value => EndsWell Change.Proper (m.store.bindThis e value)
    | .declareVar e name deletable => EndsWell Change.Proper (m.store.declareVar e name deletable)
    | .declareFunction e name value deletable =>
      EndsWell Change.Proper (m.store.declareFunction e name value deletable)
    | _ => True := by
  obtain ⟨r, global⟩ := intact.global
  cases effect with
  | createMutable e name deletable => exact m.store.createMutable_endsWell intact e name deletable
  | createImmutable e name strict =>
    exact m.store.createImmutable_endsWell intact h.declares name strict
  | initBinding e name value =>
    exact m.store.initBinding_endsWell intact (fun _ => contains_of_reserved h.2.reserved) value
  | assign e name value strict => exact m.store.assign_endsWell intact e name value strict
  | bindThis e value =>
    obtain ⟨target, owns, object⟩ := h sound
    exact Store.bindThis_endsWell owns object
  | declareVar e name deletable =>
    obtain rfl := h.2 sound
    exact Store.declareVar_endsWell global name deletable
  | declareFunction e name value deletable =>
    obtain rfl := h.2.2 sound
    exact Store.declareFunction_endsWell global name value deletable
  | _ => trivial

theorem Allowed.intact (sound : W.sound = true) (intact : m.store.Intact) :
    (effect.apply m).2.store.Intact := by
  have grows := effect.grows m
  have ends := h.endsWell sound intact
  have alike (same : effect.allocated? = none)
      (environments : (effect.apply m).2.store.environments = m.store.environments) :
      (effect.apply m).2.store.Intact := by
    have store : (effect.apply m).2.store = ⟨(effect.apply m).2.heap, m.store.environments⟩ := by
      rw [← environments]
      rfl
    rw [store]
    exact intact.alike (Effect.alike same m)
  have commit {op : Except Fault Change} (ends : EndsWell Change.Proper op)
      (grows : m.store.Grows (m.store.commit op).2) : (m.store.commit op).2.Intact :=
    intact_commit intact (ends.mono fun _ proper => ⟨proper, trivial⟩) grows
  cases effect with
  | allocate object => exact intact.allocate fun callable found => (h callable found).2 sound
  | enclose environment =>
    obtain ⟨proper, outer, around, has⟩ := h.2 sound
    exact intact.enclose around has proper
  | createMutable | createImmutable | initBinding | assign | bindThis | declareVar | declareFunction =>
    exact commit ends grows
  | deleteBinding e name =>
    simp only [Effect.apply, Machine.onStore]
    split
    · rename_i change found
      exact intact.apply (Store.grows_apply (Store.deleteBinding_extends found))
        (Store.deleteBinding_proper intact found)
    · exact intact
  | define | write | remove | preventExtensions => exact alike rfl rfl
  | createGenerator | startRun | suspend | complete | takeResumePoint | pushResumePoint
  | takeResumption => exact h.elim
  | _ => exact intact

theorem Allowed.tidy (tidy : m.Tidy W) : (effect.apply m).2.Tidy W := by
  have found {g : GeneratorId} {generator : Generator}
      (hg : (effect.apply m).2.generator? g = some generator) :
      m.generator? g = some generator := by
    simpa only [Machine.generator?, h.generators] using hg
  refine ⟨tidy.orderly.effect h.generators, ?_,
    Nat.le_trans tidy.objects (kinds_kept.effect effect m).size, h.heap tidy.heap,
    fun g generator hg => tidy.bodies g generator (found hg), fun p g generator hg pledges => ?_,
    fun p g g' generator generator' hg hg' => tidy.apart p g g' generator generator' (found hg)
      (found hg'), fun p sealed => ⟨?_, ?_⟩, fun sound => ?_⟩
  · refine effect.settled tidy.settled fun env opened => ?_
    cases effect with
    | enclose environment =>
      cases opened
      exact h.1
    | _ => cases opened
  · obtain ⟨reserved, single⟩ := tidy.pledged p g generator (found hg) pledges
    have claimed : m.Claimed p := ⟨g, generator, found hg, pledges⟩
    exact ⟨h.reserved tidy.settled (fun _ used => used.2.unclaimed claimed) reserved, single⟩
  · exact h.reserved tidy.settled (fun _ used => used.2.unsealed sealed) (tidy.sealed p sealed).1
  · rw [Machine.Claimed.congr h.generators]
    exact (tidy.sealed p sealed).2
  · have intact := tidy.intact sound
    have grows := effect.grows m
    exact intact.change tidy.orderly (h.intact sound intact.store) grows (effect.apply_stack m)
      (realm_kept.effect effect m) fun g generator hg =>
        (intact.generators g generator (found hg)).grows grows

end Effect

structure Fine (W : Watch) (r : Except Fault α) : Prop where
  unsuspended : Unsuspended r
  benign : W.sound = true → ∀ issue, r ≠ .error (.internal issue)

section

variable {W : Watch}

theorem fine_ok (a : α) : Fine W (.ok a : Except Fault α) := ⟨unsuspended_ok a, nofun⟩

theorem fine_error {fault : Fault} (h : fault.Benign) : Fine W (.error fault : Except Fault α) := by
  refine ⟨unsuspended_error.2 ?_, fun _ issue => ?_⟩
  · rintro v rfl
    exact h
  · rintro ⟨⟩
    exact h

theorem Fine.error {fault : Fault} (h : Fine W (.error fault : Except Fault α)) :
    Fine W (.error fault : Except Fault β) :=
  ⟨unsuspended_error.2 (unsuspended_error.1 h.unsuspended), fun sound issue same => by
    cases same
    exact h.benign sound issue rfl⟩

theorem EndsWell.fine {Q : α → Prop} {r : Except Fault α} (h : EndsWell Q r) : Fine W r := by
  cases r with
  | ok a => exact fine_ok a
  | error fault => exact fine_error h

theorem fine_commit {s : Store} {op : Except Fault Change} (unsuspended : Unsuspended op)
    (ends : W.sound = true → EndsWell Change.Proper op) : Fine W (s.commit op).1 := by
  refine ⟨s.commit_unsuspended unsuspended, fun sound issue same => ?_⟩
  have ends := ends sound
  cases op with
  | ok change => cases same
  | error fault =>
    cases same
    exact ends

end

end ScriptEngine
