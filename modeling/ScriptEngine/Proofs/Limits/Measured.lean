import ScriptEngine.Proofs.Generator.Calls

/-!
# Measured evaluations

What bounds a run can be read off the evaluation. It opens a frame only where the stack is not full.
-/

namespace ScriptEngine

variable {σ α β : Type}

def Except.isAbort : Except Fault α → Bool
  | .ok _ => false
  | .error fault => fault.isHostAbort

def Effect.exceeds : Effect σ β → Machine σ → Bool
  | .checkLimits, m => Except.isAbort (Limit.checkAll m.cancelled m.limits).1
  | _, _ => false

/-- A bound function refers to an object that is there, and limits are not reset. -/
def Effect.Measured : Effect σ β → Machine σ → Prop
  | .allocate object, m =>
    ∀ f, object.kind = .function (.bound f) → f.target.index < m.heap.objects.size
  | .resetLimits, _ => False
  | _, _ => True

def Action.Measured : {α : Type} → Action σ α → (full : Bool) → (size known : Nat) →
    (aborted : Bool) → (ok : α → Bool → Prop) → Prop
  | _, .pure a, _, _, _, aborted, ok => ok a aborted
  | _, .read view next, full, size, known, aborted, ok =>
    ∀ m, m.isFull = full → known ≤ m.heap.objects.size →
      Measured (next (view m)) full size m.heap.objects.size aborted ok
  | _, .perform effect next, full, size, known, aborted, ok =>
    ∀ m, m.isFull = full → known ≤ m.heap.objects.size → effect.Measured m ∧
      Measured (next (effect.apply m).1) full size known (aborted || effect.exceeds m) ok
  | _, .inScope _ _ body next, full, size, known, aborted, ok =>
    Measured body full size known aborted fun b aborted =>
      Measured (next b) full size known aborted ok
  | _, .inFrame _ body next, full, size, known, aborted, ok =>
    full = false ∧ ∀ inner, ∃ large, Measured body inner large known aborted fun b aborted =>
      Measured (next b) full size known aborted ok
  | _, .invoke _ next, full, size, known, aborted, ok =>
    aborted = false ∧ 0 < size ∧
      ∀ r, Measured (next r) full size known (Except.isAbort r) ok
  | _, .loop l next, full, size, known, aborted, ok =>
    aborted = false ∧ sizeOf l.body < size ∧
      ∀ r, Measured (next r) full size known (Except.isAbort r) ok

namespace Action

variable {full : Bool} {size known : Nat} {aborted : Bool} {ok : α → Bool → Prop} {x : Action σ α}

theorem Measured.mono (h : x.Measured full size known aborted ok) {size' : Nat}
    (larger : size ≤ size') {known' : Nat} (grown : known ≤ known') {ok' : α → Bool → Prop}
    (weaker : ∀ a b, ok a b → ok' a b) : x.Measured full size' known' aborted ok' := by
  induction x generalizing full size size' known known' aborted with
  | pure a => exact weaker a aborted h
  | read view next ih =>
    exact fun m hm le => ih _ (h m hm (Nat.le_trans grown le)) larger (Nat.le_refl _) weaker
  | perform effect next ih =>
    intro m hm le
    obtain ⟨measured, rest⟩ := h m hm (Nat.le_trans grown le)
    exact ⟨measured, ih _ rest larger grown weaker⟩
  | inScope lexical varScope body next ihBody ih =>
    exact ihBody h larger grown fun b _ rest => ih b rest larger grown weaker
  | inFrame frame body next ihBody ih =>
    refine ⟨h.1, fun inner => ?_⟩
    obtain ⟨large, hbody⟩ := h.2 inner
    exact ⟨large, ihBody hbody (Nat.le_refl _) grown fun b _ rest =>
      ih b rest larger grown weaker⟩
  | invoke invocation next ih | loop l next ih =>
    exact ⟨h.1, Nat.lt_of_lt_of_le h.2.1 larger, fun r => ih r (h.2.2 r) larger grown weaker⟩

theorem measured_bind {f : α → Action σ β} {ok : β → Bool → Prop}
    (h : x.Measured full size known aborted fun a aborted => (f a).Measured full size known aborted ok) :
    (x.bind f).Measured full size known aborted ok := by
  induction x generalizing full size known aborted with
  | pure a => exact h
  | read view next ih =>
    exact fun m hm le => ih _ ((h m hm le).mono (Nat.le_refl _) (Nat.le_refl _) fun a _ rest =>
      rest.mono (Nat.le_refl _) le fun _ _ => id)
  | perform effect next ih => exact fun m hm le => ⟨(h m hm le).1, ih _ (h m hm le).2⟩
  | inScope lexical varScope body next _ ih =>
    exact Measured.mono (x := body) h (Nat.le_refl _) (Nat.le_refl _) fun b _ rest => ih b rest
  | inFrame frame body next _ ih =>
    refine ⟨h.1, fun inner => ?_⟩
    obtain ⟨large, hbody⟩ := h.2 inner
    exact ⟨large, hbody.mono (Nat.le_refl _) (Nat.le_refl _) fun b _ rest => ih b rest⟩
  | invoke invocation next ih | loop l next ih =>
    exact ⟨h.1, h.2.1, fun r => ih r (h.2.2 r)⟩

theorem Plain.measured {received : Option Fault} {passes : α → Option Fault → Prop}
    (h : x.Plain received passes) (pos : 0 < size)
    (abort : aborted = true → ∃ fault, received = some fault ∧ fault.isHostAbort = true)
    (done : ∀ a received aborted, passes a received → (aborted = true → ∃ fault, received = some fault ∧ fault.isHostAbort = true) → ok a aborted) :
    x.Measured full size known aborted ok := by
  induction x generalizing known received aborted with
  | pure a => exact done a received aborted h abort
  | read view next ih =>
    obtain ⟨rfl, rest⟩ := h
    exact fun m _ _ => ih _ (rest m) (fun hb => by simpa using abort hb) done
  | perform effect next ih =>
    obtain ⟨rfl, plain, rest⟩ := h
    have calm : aborted = false := by
      cases aborted with
      | false => rfl
      | true => simp at abort
    refine fun m _ _ => ⟨?_, ih _ (rest m) (fun hb => ?_) done⟩
    · cases effect with
      | allocate object => exact fun f bound => absurd bound (plain f)
      | resetLimits => exact plain
      | _ => trivial
    · rw [calm] at hb
      cases effect with
      | checkLimits => exact plain.elim
      | _ => cases hb
  | inScope lexical varScope body next ihBody ih =>
    exact ihBody h abort fun b received aborted rest abort => ih b rest abort done
  | inFrame frame body next _ _ => exact h.elim
  | invoke invocation next ih =>
    obtain ⟨rfl, rest⟩ := h
    refine ⟨?_, pos, fun r => ih r (rest r) (fun hb => ?_) done⟩
    · cases aborted with
      | false => rfl
      | true => simp at abort
    · cases r with
      | ok v => cases hb
      | error fault => exact ⟨fault, rfl, hb⟩
  | loop l next ih => exact h.elim

end Action

namespace Eval

def Relays (r : Except Fault α) (aborted : Bool) : Prop := aborted = true → Except.isAbort r = true

theorem relays_false (r : Except Fault α) : Relays r false := Bool.noConfusion

def Measured (full : Bool) (size known : Nat) (x : Eval σ α) : Prop :=
  x.run.Measured full size known false Relays

variable {full : Bool} {size known : Nat} {x : Eval σ α} {f : α → Eval σ β}

@[grind .]
theorem measured_ofExcept (r : Except Fault α) : Measured full size known (ofExcept r : Eval σ α) :=
  relays_false r

@[grind .]
theorem measured_pure (a : α) : Measured full size known (pure a : Eval σ α) :=
  relays_false _

@[grind .]
theorem measured_throw (fault : Fault) : Measured full size known (throw fault : Eval σ α) :=
  relays_false _

@[grind .]
theorem measured_typeError (issue : TypeIssue) :
    Measured full size known (typeError issue : Eval σ α) := relays_false _

theorem Plain.measured (h : Plain x) (pos : 0 < size) : Measured full size known x := by
  refine Action.Plain.measured h pos Bool.noConfusion fun r received aborted passes abort hb => ?_
  obtain ⟨fault, rfl, host⟩ := abort hb
  cases passes
  exact host

@[grind ←]
theorem measured_bind (hx : Measured full size known x) (hf : ∀ a, Measured full size known (f a)) :
    Measured full size known (x >>= f) := by
  refine Action.measured_bind (Action.Measured.mono hx (Nat.le_refl _) (Nat.le_refl _)
    fun r aborted relays => ?_)
  cases r with
  | ok a =>
    cases aborted with
    | false => exact hf a
    | true => cases relays rfl
  | error fault => exact relays

@[grind ←]
theorem Plain.measured_bind (hx : Plain x) (pos : 0 < size)
    (hf : ∀ a, Measured full size known (f a)) : Measured full size known (x >>= f) :=
  Eval.measured_bind (hx.measured pos) hf

theorem measured_handle {f : Except Fault α → Eval σ β} (hx : Measured full size known x)
    (hf : ∀ r, Except.isAbort r = false → Measured full size known (f r))
    (abort : ∀ fault aborted, fault.isHostAbort = true → (f (.error fault)).run.Measured full size known aborted Relays) :
    Measured full size known (outcome x >>= f) := by
  refine Action.measured_bind (Action.measured_bind (Action.Measured.mono hx (Nat.le_refl _)
    (Nat.le_refl _) fun r aborted relays => ?_))
  change (f r).run.Measured full size known aborted Relays
  by_cases host : Except.isAbort r = true
  · cases r with
    | ok a => cases host
    | error fault => exact abort fault aborted host
  · cases aborted with
    | false => exact hf r (Bool.eq_false_iff.2 host)
    | true => exact absurd (relays rfl) host

@[grind .]
theorem measured_ask (view : Machine σ → α) : Measured full size known (ask view) :=
  fun _ _ _ => relays_false _

theorem measured_ask_bind {view : Machine σ → α}
    (h : ∀ m, known ≤ m.heap.objects.size → Measured full size m.heap.objects.size (f (view m))) :
    Measured full size known (ask view >>= f) :=
  fun m _ le => h m le

@[grind .]
theorem measured_askFor (view : Machine σ → Except Fault α) :
    Measured full size known (askFor view) :=
  fun _ _ _ => relays_false _

theorem measured_perform {effect : Effect σ α}
    (h : ∀ m, known ≤ m.heap.objects.size → effect.Measured m)
    (passes : ∀ m, effect.exceeds m = false) : Measured full size known (perform effect) := by
  intro m _ le
  refine ⟨h m le, ?_⟩
  rw [passes m]
  nofun

@[grind .]
theorem measured_checkLimits : Measured full size known (attempt .checkLimits : Eval σ Unit) :=
  fun _ _ _ => ⟨trivial, id⟩

@[grind ←]
theorem measured_within (scope : EnvironmentId) (h : Measured full size known x) :
    Measured full size known (within scope x) := h

@[grind ←]
theorem measured_withinBody (scope : EnvironmentId) (h : Measured full size known x) :
    Measured full size known (withinBody scope x) := h

@[grind ←]
theorem measured_call (pos : 0 < size) (callee this : Value) (arguments : List Value) :
    Measured full size known (call callee this arguments : Eval σ Value) :=
  ⟨rfl, pos, fun _ => id⟩

@[grind ←]
theorem measured_construct (pos : 0 < size) (callee : Value) (arguments : List Value)
    (newTarget : Option Value) :
    Measured full size known (construct callee arguments newTarget : Eval σ Value) :=
  ⟨rfl, pos, fun _ => id⟩

@[grind ←]
theorem measured_loop {l : Loop} (smaller : sizeOf l.body < size) :
    Measured full size known (loop l : Eval σ Completion) :=
  ⟨rfl, smaller, fun _ => id⟩

theorem measured_inFrame {frame : Frame} (room : full = false)
    (h : ∀ inner, ∃ large, Measured inner large known x) :
    Measured full size known (inFrame frame x) :=
  ⟨room, h⟩

theorem measured_checkDepth {f : Unit → Eval σ α}
    (h : full = false → Measured full size known (f ())) :
    Measured full size known (checkDepth >>= f) := by
  intro m hm le
  cases full with
  | true =>
    simp only [hm, if_true]
    exact relays_false _
  | false =>
    simp only [hm, Bool.false_eq_true, if_false]
    exact Action.Measured.mono (h rfl) (Nat.le_refl _) le fun _ _ => id

theorem measured_startRun {g : GeneratorId} {resumption : Option Resumption}
    {f : Frame × Closure → Eval σ α}
    (h : full = false → ∀ started, Measured full size known (f started)) :
    Measured full size known (attempt (.startRun g resumption) >>= f) := by
  intro m hm le
  refine ⟨trivial, ?_⟩
  simp only [Effect.apply]
  split
  · exact relays_false _
  · split
    · exact relays_false _
    · split
      · exact relays_false _
      · refine h ?_ _
        simp_all

end Eval

end ScriptEngine
