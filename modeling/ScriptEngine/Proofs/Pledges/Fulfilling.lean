import ScriptEngine.Proofs.Pledges.Setup

/-!
# Evaluations that fulfil what they pledge

An evaluation that can be suspended is entered with records or without, and in both cases it may
initialize what it pledges then. When it suspends it leaves records, and it still holds what these
pledge.
-/

namespace ScriptEngine

open Claims

variable {σ α β : Type}

theorem Generator.dues_of_running {generator : Generator} (h : generator.frame = none) :
    generator.dues = 0 := by
  unfold Generator.dues
  rw [h]

namespace Machine

variable {W : Watch} {m m₁ m' : Machine σ} {g : GeneratorId} {generator : Generator}
  {change : Generator → Generator} {p : Spot}

theorem generator?_of_modify (hg : m.generator? g = some generator)
    (generators : m'.generators = (m.modifyGenerator g change).generators) {g' : GeneratorId}
    {generator' : Generator} (hg' : m'.generator? g' = some generator') :
    g' = g ∧ generator' = change generator ∨ g' ≠ g ∧ m.generator? g' = some generator' := by
  have hg' : (m.modifyGenerator g change).generator? g' = some generator' := by
    simpa only [generator?, generators] using hg'
  rw [generator?_modifyGenerator] at hg'
  by_cases same : g' = g
  · subst same
    simp only [if_true, hg, Option.map_some, Option.some.injEq] at hg'
    exact .inl ⟨rfl, hg'.symm⟩
  · rw [if_neg same] at hg'
    exact .inr ⟨same, hg'⟩

theorem Claimed.modify (hg : m.generator? g = some generator)
    (generators : m'.generators = (m.modifyGenerator g change).generators) (h : m'.Claimed p) :
    0 < (change generator).dues p ∨
      ∃ g' generator', g' ≠ g ∧ m.generator? g' = some generator' ∧ 0 < generator'.dues p := by
  obtain ⟨g', generator', hg', pledges⟩ := h
  rcases generator?_of_modify hg generators hg' with ⟨-, rfl⟩ | ⟨other, hg'⟩
  · exact .inl pledges
  · exact .inr ⟨g', generator', other, hg', pledges⟩

theorem Tidy.modify (h : m.Tidy W) (change : Generator → Generator)
    (hg : m.generator? g = some generator)
    (orderly : m'.Orderly) (store : m'.store = m.store)
    (generators : m'.generators = (m.modifyGenerator g change).generators)
    (closure : (change generator).closure = generator.closure)
    (pledged : ∀ p, 0 < (change generator).dues p → m.store.Reserved W.once p ∧
      (W.once = true → (change generator).dues p ≤ 1) ∧ ¬ W.sealed p ∧
      ∀ g' generator', g' ≠ g → m.generator? g' = some generator' → generator'.dues p = 0)
    (intact : W.sound = true → m'.Intact) : m'.Tidy W := by
  have heap : m'.heap = m.heap := congrArg Store.heap store
  refine ⟨orderly, store ▸ h.settled, heap ▸ h.objects, heap ▸ h.heap, fun g' generator' hg' => ?_,
    fun p g' generator' hg' positive => ?_,
    fun p g₁ g₂ generator₁ generator₂ hg₁ hg₂ pledges₁ pledges₂ => ?_,
    fun p sealed => ⟨store ▸ (h.sealed p sealed).1, fun claimed => ?_⟩, intact⟩
  · rcases generator?_of_modify hg generators hg' with ⟨rfl, rfl⟩ | ⟨-, hg'⟩
    · rw [closure]
      exact h.bodies _ generator hg
    · exact h.bodies g' generator' hg'
  · rw [store]
    rcases generator?_of_modify hg generators hg' with ⟨rfl, rfl⟩ | ⟨-, hg'⟩
    · exact ⟨(pledged p positive).1, (pledged p positive).2.1⟩
    · exact h.pledged p g' generator' hg' positive
  · rcases generator?_of_modify hg generators hg₁ with ⟨rfl, rfl⟩ | ⟨other₁, old₁⟩ <;>
      rcases generator?_of_modify hg generators hg₂ with ⟨rfl, rfl⟩ | ⟨other₂, old₂⟩
    · rfl
    · exact absurd ((pledged p pledges₁).2.2.2 g₂ generator₂ other₂ old₂) (Nat.ne_of_gt pledges₂)
    · exact absurd ((pledged p pledges₂).2.2.2 g₁ generator₁ other₁ old₁) (Nat.ne_of_gt pledges₁)
    · exact h.apart p g₁ g₂ generator₁ generator₂ old₁ old₂ pledges₁ pledges₂
  · rcases claimed.modify hg generators with own | ⟨g', generator', -, hg', pledges⟩
    · exact (pledged p own).2.2.1 sealed
    · exact (h.sealed p sealed).2 ⟨g', generator', hg', pledges⟩

/-! ## Taking and leaving records -/

section

variable {points points' : List ResumePoint} {resumption resumption' : Option Resumption}

theorem setRecords_store : (m.setRecords points resumption).store = m.store := by
  unfold setRecords
  split <;> rfl

theorem Orderly.running_frame (h : m.Orderly) (hr : m.records = some (points, resumption)) :
    ∃ g generator, m.runningGenerator? = some g ∧ m.generator? g = some generator ∧
      generator.frame = none ∧ generator.resumePoints = points := by
  obtain ⟨g, generator, running, hg, same⟩ := records_eq_some.1 hr
  obtain ⟨_, found, executing⟩ := h.running running
  cases hg.symm.trans found
  have orderly := h.generators g generator hg
  simp only [Generator.Orderly, executing] at orderly
  exact ⟨g, generator, running, hg, orderly.1, same.1⟩

def Lists (W : Watch) (points : List ResumePoint) (s : Store) : Prop :=
  W.sound = true → ∀ point ∈ points, ∀ e, point.scope? = some e → s.Inner e

theorem Tidy.lists (h : m.Tidy W) (hr : m.records = some (points, resumption)) :
    Lists W points m.store := by
  obtain ⟨g, generator, -, hg, -, rfl⟩ := h.orderly.running_frame hr
  exact fun sound => ((h.intact sound).generators g generator hg).records

theorem Tidy.setRecords (h : m.Tidy W) (hr : m.records = some (points, resumption))
    (lists : Lists W points' m.store) : (m.setRecords points' resumption').Tidy W := by
  obtain ⟨g, generator, running, hg, free, -⟩ := h.orderly.running_frame hr
  have orderly : (m.setRecords points' resumption').Orderly := h.orderly.setRecords hr
  have stack : (m.setRecords points' resumption').stack = m.stack := setRecords_stack
  rw [setRecords_eq running] at orderly stack ⊢
  refine h.modify _ hg orderly rfl rfl rfl (fun p positive => ?_) fun sound => ?_
  · rw [Generator.dues_of_running (by exact free)] at positive
    cases positive
  · have intact := h.intact sound
    refine intact.change h.orderly intact.store (.refl _) stack rfl fun g' generator' hg' => ?_
    rcases generator?_of_modify hg rfl hg' with ⟨-, rfl⟩ | ⟨-, hg'⟩
    · exact ⟨(intact.generators g generator hg).node, (intact.generators g generator hg).frame,
        lists sound⟩
    · exact intact.generators g' generator' hg'

theorem Honors.setRecords {R : Rights} (h : m.Orderly) (hr : m.records = some (points, resumption)) :
    m.Honors W R (m.setRecords points' resumption') := by
  obtain ⟨g, generator, running, hg, free, -⟩ := h.running_frame hr
  have store : (m.setRecords points' resumption').store = m.store := setRecords_store
  refine ⟨store ▸ .refl _, fun p _ unclaimed claimed => ?_, fun _ _ reserved _ => store ▸ reserved,
    fun _ _ _ => store ▸ .refl _ _⟩
  rw [setRecords_eq running] at claimed
  rcases claimed.modify hg rfl with own | ⟨g', generator', -, hg', pledges⟩
  · rw [Generator.dues_of_running (by exact free)] at own
    cases own
  · exact unclaimed ⟨g', generator', hg', pledges⟩

end

theorem quiet_setRecords {records : List ResumePoint × Option Resumption}
    (hr : m.records = some records) : (m.setRecords [] none).Quiet := fun records' hr' => by
  simpa [records_setRecords hr] using hr'.symm

end Machine

/-! ## The judgement -/

def Claims.here (dues : Option Dues) : Claims
  | [] => dues
  | _ => none

theorem Claims.here_eq_some {dues : Option Dues} {n : Dues} {points : List ResumePoint} :
    here dues points = some n ↔ points = [] ∧ dues = some n := by
  cases points <;> simp [here]

theorem Claims.here_none : here none = nowhere := by
  funext points
  cases points <;> rfl

namespace Machine

variable {W : Watch} {strict : Bool} {scope : EnvironmentId} {m m₁ m' : Machine σ}
  {r : Except Fault α} {a k j n n' : Dues} {C E : Claims} {T T' : α → Machine σ → Prop}
  {own : Option EnvironmentId}

def Opens (W : Watch) (own : Option EnvironmentId) (m : Machine σ) : Prop :=
  ∀ e, own = some e → W.sound = true → m.store.Inner e

theorem Opens.grows (h : m.Opens W own) (grows : m.store.Grows m'.store) : m'.Opens W own :=
  fun e opened sound => grows.inner (h e opened sound)

theorem Opens.grounds (h : m.Opens W own) (e : EnvironmentId) (opened : own = some e)
    (sound : W.sound = true) : m.Grounds e :=
  grounds_of_inner (h e opened sound)

theorem opens_of_inner (h : W.sound = true → m.store.Inner (own.getD scope)) : m.Opens W own := by
  rintro e rfl sound
  exact h sound

def Enters (k : Dues) (C : Claims) (n : Dues) (m : Machine σ) : Prop :=
  m.Quiet ∧ n = k ∨
    ∃ points resumption, m.records = some (points, some resumption) ∧ C points = some n

structure Ready (W : Watch) (strict : Bool) (scope : EnvironmentId) (n : Dues) (m : Machine σ) :
    Prop where
  tidy : m.Tidy W
  strict : m.strict = strict
  runs : m.Inside scope
  holds : m.Holds W n

def Parks (W : Watch) (n : Dues) (C : Claims) (m m' : Machine σ) : Prop :=
  ∃ points n', m'.records = some (points, none) ∧ C points = some n' ∧ m'.Holds W n' ∧
    ∀ p, m.store.Has p.1 → 0 < n' p → 0 < n p

def Leaves (W : Watch) (n : Dues) (C : Claims) (T : α → Machine σ → Prop) (m m' : Machine σ) :
    Except Fault α → Prop
  | .ok a => m'.Quiet ∧ T a m'
  | .error (.suspended _) => m.Parks W n C m'
  | .error fault => (fault.isHostAbort = true ∨ m'.Quiet) ∧
      Fine W (.error fault : Except Fault Unit)

structure Delivers (W : Watch) (n : Dues) (C : Claims) (T : α → Machine σ → Prop) (m : Machine σ)
    (r : Except Fault α) (m' : Machine σ) : Prop where
  tidy : m'.Tidy W
  honors : m.Honors W (.upTo n) m'
  advances : m.Advances m'
  left : m.Leaves W n C T m' r

theorem Enters.quiet (h : m.Enters k nowhere n) : m.Quiet ∧ n = k :=
  h.elim id fun ⟨_, _, _, fits⟩ => by cases fits

theorem Quiet.enters (h : m.Quiet) : m.Enters k C k := .inl ⟨h, rfl⟩

theorem Enters.mono (h : m.Enters k C n) (le : j ≤ k) (below : C.Below E) :
    ∃ n', n' ≤ n ∧ m.Enters j E n' := by
  rcases h with ⟨quiet, rfl⟩ | ⟨points, resumption, records, fits⟩
  · exact ⟨j, le, .inl ⟨quiet, rfl⟩⟩
  · obtain ⟨n', le, fits⟩ := below points n fits
    exact ⟨n', le, .inr ⟨points, resumption, records, fits⟩⟩

theorem Enters.congr (h : m.Enters k C n) (records : m'.records = m.records) : m'.Enters k C n := by
  unfold Enters Quiet at *
  rwa [records]

theorem Ready.mono (h : m.Ready W strict scope n) (le : n' ≤ n) : m.Ready W strict scope n' :=
  ⟨h.tidy, h.strict, h.runs, h.holds.mono le⟩

theorem Ready.grounds (h : m.Ready W strict scope n) (sound : W.sound = true) : m.Grounds scope :=
  h.runs.lexical ▸ (h.tidy.intact sound).lexical

theorem Ready.advance (h : m.Ready W strict scope n) (advances : m.Advances m')
    (tidy : m'.Tidy W) (holds : m'.Holds W k) : m'.Ready W strict scope k :=
  ⟨tidy, advances.strict.trans h.strict, h.runs.congr advances.stack, holds⟩

theorem Leaves.of_fine (fine : Fine W r) (quiet : m'.Quiet) (result : ∀ a, r = .ok a → T a m') :
    m.Leaves W n C T m' r := by
  cases r with
  | ok a => exact ⟨quiet, result a rfl⟩
  | error fault =>
    cases fault with
    | suspended v => exact absurd rfl (unsuspended_error.1 fine.unsuspended v)
    | _ => exact ⟨.inr quiet, fine.error⟩

theorem Leaves.mono (h : m.Leaves W n C T m' r) (within : ∀ p, 0 < n p → 0 < k p)
    (below : C.Below E) (post : ∀ a, T a m' → T' a m') : m.Leaves W k E T' m' r := by
  cases r with
  | ok a => exact ⟨h.1, post a h.2⟩
  | error fault =>
    cases fault with
    | suspended v =>
      obtain ⟨points, n', records, fits, holds, backed⟩ := h
      obtain ⟨n'', le, fits⟩ := below points n' fits
      exact ⟨points, n'', records, fits, holds.mono le, fun p has positive =>
        within p (backed p has (Nat.lt_of_lt_of_le positive (le p)))⟩
    | _ => exact h

theorem Leaves.error {fault : Fault} (h : m.Leaves W n C T m' (.error fault : Except Fault α))
    {T' : β → Machine σ → Prop} : m.Leaves W n C T' m' (.error fault : Except Fault β) := by
  cases fault <;> exact h

theorem Delivers.after (h : m₁.Delivers W n C T r m') (honors : m.Honors W (.upTo a) m₁)
    (advances : m.Advances m₁) (within : ∀ p, m.store.Has p.1 → 0 < a p ∨ 0 < n p → 0 < k p) :
    m.Delivers W k C T r m' := by
  refine ⟨h.tidy, ?_, advances.trans h.advances, ?_⟩
  · have first : m.Honors W (.upTo k) m₁ :=
      honors.weaken (fun p reserved used => within p reserved.has (.inl used)) id
    exact first.step h.honors (fun p reserved used => within p reserved.has (.inr used)) id
  · have left := h.left
    cases r with
    | ok a => exact left
    | error fault =>
      cases fault with
      | suspended v =>
        obtain ⟨points, n', records, fits, holds, backed⟩ := left
        exact ⟨points, n', records, fits, holds, fun p has positive =>
          within p has (.inr (backed p (honors.grows.has has) positive))⟩
      | _ => exact left

theorem Delivers.afterNone (h : m₁.Delivers W n C T r m') (honors : m.Honors W .none m₁)
    (advances : m.Advances m₁) : m.Delivers W n C T r m' :=
  h.after (a := 0) (honors.mono (Rights.none_le _)) advances fun _ _ used =>
    used.elim (fun used => absurd used (Nat.lt_irrefl 0)) id

theorem Delivers.mono (h : m.Delivers W n C T r m') (le : n ≤ k) (below : C.Below E)
    (post : ∀ a, T a m' → T' a m') : m.Delivers W k E T' r m' :=
  ⟨h.tidy, h.honors.mono (Rights.upTo_le le), h.advances,
    h.left.mono (fun p positive => Nat.lt_of_lt_of_le positive (le p)) below post⟩

theorem Delivers.error {fault : Fault} (h : m.Delivers W n C T (.error fault : Except Fault α) m')
    {T' : β → Machine σ → Prop} : m.Delivers W n C T' (.error fault : Except Fault β) m' :=
  ⟨h.tidy, h.honors, h.advances, h.left.error⟩

theorem Spares.delivers (h : m.Spares W (.upTo n) r m') (orderly : m.Orderly) (quiet : m.Quiet)
    (result : ∀ a, r = .ok a → T a m') : m.Delivers W n C T r m' :=
  ⟨h.tidy, h.honors, h.steady.advances,
    .of_fine h.fine (quiet.congr (h.steady.records orderly)) result⟩

end Machine

namespace Eval

/-- Entered with records that fit `C` or without, may initialize what it pledges then, and still
holds what the records pledge that it leaves when it suspends. -/
def Fulfils (W : Watch) (P : Promises σ) (strict : Bool) (scope : EnvironmentId)
    (H : Machine σ → Prop) (k : Dues) (C E : Claims) (T : α → Machine σ → Prop) (x : Eval σ α) :
    Prop :=
  ∀ m n, m.Enters k C n → H m → m.Ready W strict scope n →
    x.Safe (Moment.Watched W) P m (m.Delivers W n E T)

abbrev FulfilsAlways (W : Watch) (P : Promises σ) (strict : Bool) (scope : EnvironmentId) (k : Dues)
    (C E : Claims) (x : Eval σ α) : Prop :=
  Fulfils W P strict scope (fun _ => True) k C E (fun _ _ => True) x

variable {W : Watch} {P : Promises σ} {strict : Bool} {scope : EnvironmentId}
  {H H' : Machine σ → Prop} {k j : Dues} {C C₁ E D : Claims} {T T' : α → Machine σ → Prop}
  {U : β → Machine σ → Prop}

theorem Fulfils.ask {view : Machine σ → α} {f : α → Eval σ β}
    (h : ∀ m, m.strict = strict → m.Inside scope → H m →
      Fulfils W P strict scope H k C E U (f (view m))) :
    Fulfils W P strict scope H k C E U (Eval.ask view >>= f) :=
  fun m n entered pre ready =>
    ⟨ready.tidy, h m ready.strict ready.runs pre m n entered pre ready⟩

theorem fulfils_pure {a : α} (h : ∀ m, H m → T a m) :
    Fulfils W P strict scope H k nowhere E T (pure a : Eval σ α) :=
  fun m _ entered pre ready =>
    ⟨ready.tidy, .refl _, (Machine.Steady.of_eq rfl rfl).advances, entered.quiet.1, h m pre⟩

section

variable [P.Lawful] {x : Eval σ α} {f : α → Eval σ β}

theorem Fulfils.mono (h : Fulfils W P strict scope H k C C₁ T x) (pre : ∀ m, H' m → H m)
    (start : k ≤ j) (entry : D.Below C) (exit : C₁.Below E) (post : ∀ a m, T a m → T' a m) :
    Fulfils W P strict scope H' j D E T' x := by
  intro m n entered known ready
  obtain ⟨n', le, entered⟩ := entered.mono start entry
  exact (h m n' entered (pre m known) (ready.mono le)).mono fun r m' delivers =>
    delivers.mono le exit fun a => post a m'

theorem Fulfils.under (h : Fulfils W P strict scope H k C E T x) (pre : ∀ m, H' m → H m) :
    Fulfils W P strict scope H' k C E T x :=
  h.mono pre le_rfl (.refl C) (.refl E) fun _ _ known => known

theorem Fulfils.entered (h : Fulfils W P strict scope H k C E T x) (entry : D.Below C) :
    Fulfils W P strict scope H k D E T x :=
  h.mono (fun _ known => known) le_rfl entry (.refl E) fun _ _ known => known

theorem Fulfils.left (h : Fulfils W P strict scope H k C C₁ T x) (exit : C₁.Below E) :
    Fulfils W P strict scope H k C E T x :=
  h.mono (fun _ known => known) le_rfl (.refl C) exit fun _ _ known => known

theorem Fulfils.starts (h : Fulfils W P strict scope H k C E T x) :
    Fulfils W P strict scope H k nowhere E T x :=
  h.entered (nowhere_below C)

theorem Fulfils.zero (h : Fulfils W P strict scope H 0 C E T x) :
    Fulfils W P strict scope H k C E T x :=
  h.mono (fun _ known => known) zero_le (.refl C) (.refl E) fun _ _ known => known

theorem Fulfils.keeping (h : Fulfils W P strict scope H k C E T x) {K : Machine σ → Prop}
    (stable : ∀ m m', K m → m.store.Grows m'.store → m'.runningGenerator? = m.runningGenerator? → K m') :
    Fulfils W P strict scope (fun m => H m ∧ K m) k C E (fun a m => T a m ∧ K m) x := by
  intro m n entered known ready
  refine (h m n entered known.1 ready).mono fun r m' post => ⟨post.tidy, post.honors,
    post.advances, ?_⟩
  have left := post.left
  cases r with
  | ok a => exact ⟨left.1, left.2, stable m m' known.2 post.honors.grows post.advances.running⟩
  | error fault => exact left.error

theorem Honest.fulfils (h : Honest W P (.upTo k) (fun m => H m ∧ m.At W scope k) T x) :
    Fulfils W P strict scope H k nowhere E T x := by
  intro m n entered known ready
  obtain ⟨quiet, rfl⟩ := entered.quiet
  refine (h m ready.tidy ⟨known, ready.runs, ready.holds⟩).mono fun r m' post => ?_
  exact post.1.delivers ready.tidy.orderly quiet post.2

theorem Tame.fulfils (calls : P.Spare W) (h : ∀ s, Tame W s x) :
    Fulfils W P strict scope H k nowhere E (fun _ _ => True) x :=
  ((Tame.keepingAll h calls (K := fun _ => True) fun _ _ _ _ _ => trivial).under (fun _ _ => trivial)).fulfils

theorem Fulfils.bind (hx : Fulfils W P strict scope H k C C₁ T x)
    (hf : ∀ a, Fulfils W P strict scope (T a) j nowhere E U (f a)) (exit : (C₁.plus j).Below E) :
    Fulfils W P strict scope H (k + j) (C.plus j) E U (x >>= f) := by
  intro m n entered known ready
  obtain ⟨n, entered', rfl⟩ : ∃ n₁, m.Enters k C n₁ ∧ n = n₁ + j := by
    rcases entered with ⟨quiet, rfl⟩ | ⟨points, resumption, records, fits⟩
    · exact ⟨k, .inl ⟨quiet, rfl⟩, rfl⟩
    · obtain ⟨n₁, found, same⟩ := Option.map_eq_some_iff.1 fits
      exact ⟨n₁, .inr ⟨points, resumption, records, found⟩, same.symm⟩
  rw [safe_bind]
  refine (hx m n entered' known (ready.mono le_self_add)).mono fun r m₁ post => ?_
  have later : m₁.Holds W j := ready.holds.spend post.honors
  cases r with
  | ok a =>
    refine (hf a m₁ j post.left.1.enters post.left.2
      (ready.advance post.advances post.tidy later)).mono fun r m' rest => ?_
    exact rest.after post.honors post.advances fun p _ used =>
      used.elim (Nat.add_pos_left · _) (Nat.add_pos_right _)
  | error fault =>
    have honors := post.honors.mono (Rights.upTo_le (n := n + j) le_self_add)
    cases fault with
    | suspended v =>
      obtain ⟨points, n₁, records, fits, holds, backed⟩ := post.left
      have both : m₁.Holds W (n₁ + j) := holds.add later fun once p mine rest => by
        -- the rest pledges the spot, so its scope was there before
        have held := ready.holds p (Nat.add_pos_right _ rest)
        have used := backed p held.1.reserved.has mine
        have single : n p + j p ≤ 1 := held.2 once
        omega
      obtain ⟨n₂, le, fits⟩ := exit points (n₁ + j) (Option.map_eq_some_iff.2 ⟨n₁, fits, rfl⟩)
      refine ⟨post.tidy, honors, post.advances, points, n₂, records, fits, both.mono le,
        fun p has positive => ?_⟩
      have some : 0 < n₁ p + j p := Nat.lt_of_lt_of_le positive (le p)
      rcases Nat.eq_zero_or_pos (j p) with none | rest
      · exact Nat.add_pos_left (backed p has (by omega)) _
      · exact Nat.add_pos_right _ rest
    | _ => exact ⟨post.tidy, honors, post.advances, post.left⟩

theorem Fulfils.andThen (hx : Fulfils W P strict scope H k C E T x)
    (hf : ∀ a, Fulfils W P strict scope (T a) 0 nowhere E U (f a)) :
    Fulfils W P strict scope H k C E U (x >>= f) := by
  have both := hx.bind hf (by rw [plus_zero]; exact .refl E)
  rwa [plus_zero, add_zero] at both

theorem Honest.before (hx : Honest W P (.upTo k) (fun m => H m ∧ m.At W scope k) T x)
    (hf : ∀ a, Fulfils W P strict scope (T a) j nowhere E U (f a)) :
    Fulfils W P strict scope H (k + j) nowhere E U (x >>= f) :=
  (hx.fulfils (E := nowhere)).bind hf (nowhere_below E)

theorem Honest.beforeAll (hx : Honest W P .none (fun m => H m ∧ m.Inside scope) T x)
    (hf : ∀ a, Fulfils W P strict scope (T a) k nowhere E U (f a)) :
    Fulfils W P strict scope H k nowhere E U (x >>= f) := by
  have both := Honest.before (k := 0) (hx.mono (Rights.none_le _)
    (fun _ known => ⟨known.1, known.2.runs⟩) fun _ _ known => known) hf
  rwa [zero_add] at both

theorem Tame.before (calls : P.Spare W) (hx : ∀ s, Tame W s x)
    (hf : ∀ a, Fulfils W P strict scope (fun _ => True) k nowhere E U (f a)) :
    Fulfils W P strict scope H k nowhere E U (x >>= f) :=
  Honest.beforeAll ((Tame.keepingAll hx calls (K := fun _ => True)
    fun _ _ _ _ _ => trivial).under (fun _ _ => trivial)) hf

theorem fulfils_opening {n : α → Dues}
    (hx : ∀ first, Honest W P (.since first) (fun m => (H m ∧ m.Inside scope) ∧ first ≤ m.store.environments.size) (fun a m => (m.Holds W (n a) ∧ (Rights.upTo (n a)).Le (.since first)) ∧ T a m) x)
    (hf : ∀ a, Fulfils W P strict scope (T a) (n a) nowhere E U (f a)) :
    Fulfils W P strict scope H k nowhere E U (x >>= f) := by
  intro m _ entered known ready
  obtain ⟨quiet, rfl⟩ := entered.quiet
  rw [safe_bind]
  refine (hx m.store.environments.size m ready.tidy ⟨⟨known, ready.runs⟩, Nat.le_refl _⟩).mono
    fun r m₁ post => ?_
  obtain ⟨⟨tidy, honors, steady, fine⟩, opened⟩ := post
  have new {p : Spot} (has : m.store.Has p.1) : ¬ m.store.environments.size ≤ p.1.index :=
    Nat.not_le.2 has
  have honors : m.Honors W .none m₁ :=
    honors.weaken (fun p reserved used => new reserved.has used) id
  cases r with
  | error fault =>
    have spares : m.Spares W .none (.error fault : Except Fault α) m₁ := ⟨tidy, honors, steady, fine⟩
    exact ((spares.mono (Rights.none_le _)).delivers (T := fun _ _ => True) ready.tidy.orderly quiet
      fun _ _ => trivial).error
  | ok a =>
    obtain ⟨⟨holds, le⟩, result⟩ := opened a rfl
    refine (hf a m₁ (n a) (quiet.congr (steady.records ready.tidy.orderly)).enters result
      (ready.advance steady.advances tidy holds)).mono fun r m' rest => ?_
    refine rest.after (a := 0) (honors.mono (Rights.none_le _)) steady.advances fun p has used => ?_
    rcases used with used | used
    · exact absurd used (Nat.lt_irrefl 0)
    · exact absurd (le.init p used) (new has)

theorem fulfils_inScope {own : EnvironmentId} (h : Fulfils W P strict own H' k C E T' x)
    (varScope : Option EnvironmentId) (grounds : ∀ m, H m → W.sound = true → m.Grounds own)
    (pre : ∀ m varScope, H m → H' (m.setScope own varScope))
    (post : ∀ a m lexical varScope, T' a m → T a (m.setScope lexical varScope)) :
    Fulfils W P strict scope H k C E T
      (ExceptT.mk (.inScope own varScope x.run .pure) : Eval σ α) := by
  intro m n entered known ready
  have records := m.records_setScope own (varScope.getD m.varScope)
  refine (h _ n (entered.congr records) (pre m _ known) ⟨ready.tidy.setScope (grounds m known) _,
    (m.strict_setScope _ _).trans ready.strict, ready.runs.setScope _,
    ready.holds.congr rfl rfl⟩).mono fun r m' ends => ?_
  have running := ends.advances.running.trans (m.runningGenerator?_setScope own _)
  refine ⟨ready.tidy.leaveScope ends.tidy ends.honors.grows running,
    ends.honors.congr rfl rfl rfl rfl, ends.advances.leaveScope, ?_⟩
  have left := ends.left
  have records' := m'.records_setScope m.lexical m.varScope
  have quiet : m'.Quiet → (m'.setScope m.lexical m.varScope).Quiet := (·.congr records')
  cases r with
  | ok a => exact ⟨quiet left.1, post a m' _ _ left.2⟩
  | error fault =>
    cases fault with
    | suspended v =>
      obtain ⟨points, n', found, fits, holds, backed⟩ := left
      exact ⟨points, n', records'.trans found, fits, holds.congr rfl rfl, backed⟩
    | _ => exact left.imp_left (·.imp_right quiet)

theorem fulfils_within {own : EnvironmentId} (h : FulfilsAlways W P strict own k C E x) :
    Fulfils W P strict scope (fun m => W.sound = true → m.Grounds own) k C E (fun _ _ => True)
      (within own x) :=
  fulfils_inScope h none (fun _ known => known) (fun _ _ _ => trivial) fun _ _ _ _ _ => trivial

theorem fulfils_withinSome {own : Option EnvironmentId}
    (h : Fulfils W P strict (own.getD scope) (·.Opens W own) k C E (fun _ _ => True) x) :
    Fulfils W P strict scope (·.Opens W own) k C E (fun _ _ => True) (withinSome own x) := by
  cases own with
  | none => exact h
  | some e =>
    exact fulfils_inScope h none
      (fun m known sound => Machine.grounds_of_inner (known e rfl sound)) (fun _ _ known => known)
      fun _ _ _ _ known => known

section

variable {reading : ResumePoint → Option α} {B : α → Claims} {K : α → Dues}
  {next : Option α → Eval σ β} (entry : ∀ points n, C points = some n →
    ∃ point a rest, points = point :: rest ∧ reading point = some a ∧ B a rest = some n)
  (fresh : FulfilsAlways W P strict scope k nowhere E (next none))

include entry fresh

theorem Fulfils.take
    (resumed : ∀ point a rest n, reading point = some a → B a rest = some n →
      Fulfils W P strict scope (fun m => W.sound = true → m.store.Inner (point.scope?.getD scope))
        (K a) (B a) E (fun _ _ => True) (next (some a))) :
    FulfilsAlways W P strict scope k C E (takeRecord reading >>= next) := by
  intro m n entered _ ready
  rw [safe_bind, takeRecord, safe_bind, safe_perform]
  rcases entered with ⟨quiet, rfl⟩ | ⟨points, resumption, hr, fits⟩
  · rw [quiet.takeResumePoint ready.tidy.orderly]
    exact ⟨.inl rfl, fresh m n quiet.enters trivial ready⟩
  · obtain ⟨point, a, rest, rfl, read, fits⟩ := entry points n fits
    have honors : m.Honors W .none (m.setRecords rest (some resumption)) :=
      .setRecords ready.tidy.orderly hr
    have advances : m.Advances (m.setRecords rest (some resumption)) :=
      .setRecords ready.tidy.orderly hr
    have lists := ready.tidy.lists hr
    rw [Machine.takeResumePoint_apply hr]
    refine ⟨.inl Machine.setRecords_store, ?_⟩
    simp only [List.head?_cons, List.tail_cons, After, read]
    have tidy : (m.setRecords rest (some resumption)).Tidy W := ready.tidy.setRecords hr
      fun sound point later => lists sound point (List.mem_cons_of_mem _ later)
    have inner (sound : W.sound = true) : m.store.Inner (point.scope?.getD scope) := by
      -- a generator is running, and never in the global scope
      cases told : point.scope? with
      | none =>
        obtain ⟨g, -, running, -⟩ := ready.tidy.orderly.running_frame hr
        exact (ready.grounds sound).inner running
      | some e => exact lists sound point List.mem_cons_self e told
    refine (resumed point a rest n read fits _ n
      (.inr ⟨rest, resumption, Machine.records_setRecords hr, fits⟩)
      (fun sound => honors.grows.inner (inner sound))
      (ready.advance advances tidy (ready.holds.none honors))).mono fun r m' post => ?_
    exact post.afterNone honors advances

theorem Fulfils.takePlain
    (resumed : ∀ a, FulfilsAlways W P strict scope (K a) (B a) E (next (some a))) :
    FulfilsAlways W P strict scope k C E (takeRecord reading >>= next) :=
  Fulfils.take entry fresh fun _ a _ _ _ _ => (resumed a).under (fun _ _ => trivial)

end

theorem fulfils_recording (point : ResumePoint) (hx : Fulfils W P strict scope H k C C₁ T x)
    (exit : C₁.Below fun rest => E (point :: rest))
    (stable : ∀ m m', H m → m.store.Grows m'.store → m'.runningGenerator? = m.runningGenerator? → H m')
    (named : ∀ m, H m → ∀ e, point.scope? = some e → W.sound = true → m.Grounds e) :
    Fulfils W P strict scope H k C E T (recording point x) := by
  intro m n entered known ready
  rw [recording, safe_bind, safe_outcome]
  refine (hx m n entered known ready).mono fun r m₁ post => ?_
  cases r with
  | ok a => exact ⟨post.tidy, post.honors, post.advances, post.left⟩
  | error fault =>
    cases fault with
    | suspended v =>
      obtain ⟨left, n₁, hr, fits, holds, backed⟩ := post.left
      have orderly := post.tidy.orderly
      obtain ⟨g, -, running, -⟩ := orderly.running_frame hr
      have honors (R : Rights) : m₁.Honors W R (m₁.setRecords (point :: left) none) :=
        .setRecords orderly hr
      have next : m₁.Advances (m₁.setRecords (point :: left) none) := .setRecords orderly hr
      obtain ⟨n₂, le, fits⟩ := exit left n₁ fits
      have lists : Machine.Lists W (point :: left) m₁.store := by
        intro sound other listed e told
        rcases List.mem_cons.1 listed with rfl | later
        · exact (named m₁ (stable m m₁ known post.honors.grows post.advances.running) e told sound).inner running
        · exact post.tidy.lists hr sound other later e told
      change Safe _ _ (perform (.pushResumePoint point) >>= fun _ => throw _) m₁ _
      rw [safe_bind, safe_perform, Machine.pushResumePoint_apply hr]
      refine ⟨.inl Machine.setRecords_store, post.tidy.setRecords hr lists,
        post.honors.trans (honors _), post.advances.trans next, point :: left, n₂,
        Machine.records_setRecords hr, fits, (holds.mono le).none (honors .none),
        fun p has positive => ?_⟩
      exact backed p has (Nat.lt_of_lt_of_le positive (le p))
    | _ => exact ⟨post.tidy, post.honors, post.advances, post.left⟩

theorem fulfils_recordingPlain (hx : FulfilsAlways W P strict scope k C C₁ x) {point : ResumePoint}
    (exit : C₁.Below fun rest => E (point :: rest)) (none : point.scope? = .none) :
    FulfilsAlways W P strict scope k C E (recording point x) :=
  fulfils_recording point hx exit (fun _ _ _ _ _ => trivial) fun _ _ e told => by
    cases none.symm.trans told

theorem Fulfils.checkLimits {next : Unit → Eval σ α}
    (h : FulfilsAlways W P strict scope k C E (next ())) :
    FulfilsAlways W P strict scope k C E (attempt .checkLimits >>= next) := by
  intro m n entered _ ready
  have allowed (R : Rights) : Effect.checkLimits.Allowed W R m := trivial
  have records : (Effect.checkLimits.apply m).2.records = m.records := rfl
  have steady : m.Steady (Effect.checkLimits.apply m).2 := .of_eq rfl rfl
  have tidy := (allowed .none).tidy ready.tidy
  have honors := (allowed .none).honors ready.tidy.settled
  rw [safe_bind, safe_attempt]
  refine ⟨(allowed .none).watched ready.tidy, ?_⟩
  cases result : (Effect.checkLimits.apply m).1 with
  | error fault =>
    refine ⟨tidy, (allowed _).honors ready.tidy.settled, steady.advances, ?_⟩
    obtain ⟨excess, rfl⟩ := Limit.checkAll_limitExceeded result
    exact ⟨.inl rfl, fine_error trivial⟩
  | ok _ =>
    refine (h _ n (entered.congr records) trivial (ready.advance steady.advances tidy
      (ready.holds.none honors))).mono fun r m' post => ?_
    exact post.afterNone honors steady.advances

theorem fulfils_settle (calls : P.Spare W) {x : Eval σ Completion}
    (hx : FulfilsAlways W P strict scope k C E x) (span : Span) :
    FulfilsAlways W P strict scope k C E (outcome x >>= settle span) := by
  intro m n entered known ready
  rw [safe_bind, safe_outcome]
  refine (hx m n entered known ready).mono fun r m₁ post => ?_
  cases r with
  | ok a => exact ⟨post.tidy, post.honors, post.advances, post.left⟩
  | error fault =>
    by_cases passes : fault.isSuspension || fault.isHostAbort
    · simp only [After, settle, passes, if_true]
      exact ⟨post.tidy, post.honors, post.advances, post.left⟩
    · simp only [After, settle, passes]
      have quiet : m₁.Quiet := by
        have left := post.left
        cases fault <;> simp_all [Machine.Leaves, Fault.isSuspension, Fault.isHostAbort]
      have value (s : Store) : Tame W s (faultValue fault >>= fun v =>
          pure (Completion.throwing v (fault.location.getD span)) : Eval σ Completion) :=
        tame_bind (tame_faultValue fault) fun _ => tame_pure _
      refine (Tame.fulfils (H := fun _ => True) (E := E) calls value m₁ 0 quiet.enters trivial
        (ready.advance post.advances post.tidy .zero)).mono fun r m' rest => ?_
      exact rest.after post.honors post.advances fun _ _ used =>
        used.elim id fun used => absurd used (Nat.lt_irrefl 0)

theorem fulfils_resumeAt (span : Span) :
    FulfilsAlways W P strict scope k (here (some k)) E (resumeAt span : Eval σ Yielded) := by
  intro m n entered _ ready
  obtain rfl : n = k := by
    rcases entered with ⟨-, same⟩ | ⟨points, w, -, fits⟩
    · exact same
    · exact (Option.some.inj (here_eq_some.1 fits).2).symm
  rw [resumeAt, safe_bind, safe_perform]
  have delivered (w : Option Resumption) :
      FulfilsAlways W P strict scope n nowhere E (deliver span w : Eval σ _) := by
    rcases w with _ | v | v | v
    · exact fulfils_pure fun _ _ => trivial
    · exact fulfils_pure fun _ _ => trivial
    · exact Honest.fulfils (honest_throw trivial)
    · exact fulfils_pure fun _ _ => trivial
  cases hr : m.records with
  | none =>
    have free := ready.tidy.orderly.records_eq_none.1 hr
    have quiet : m.Quiet := fun records hr' => by simp [hr] at hr'
    simp only [Effect.apply, free]
    exact ⟨.inl rfl, delivered none m n quiet.enters trivial ready⟩
  | some records =>
    obtain ⟨w, rfl⟩ : ∃ w, records = ([], w) := by
      rcases entered with ⟨quiet, -⟩ | ⟨points, w, hr', fits⟩
      · exact ⟨none, quiet _ hr⟩
      · obtain ⟨rfl, -⟩ := here_eq_some.1 fits
        exact ⟨some w, by simpa [hr] using hr'⟩
    have honors : m.Honors W .none (m.setRecords [] none) := .setRecords ready.tidy.orderly hr
    have advances : m.Advances (m.setRecords [] none) := .setRecords ready.tidy.orderly hr
    rw [Machine.takeResumption_apply hr]
    refine ⟨.inl Machine.setRecords_store, (delivered w _ n (Machine.quiet_setRecords hr).enters
      trivial (ready.advance advances (ready.tidy.setRecords hr fun _ => List.forall_mem_nil _)
        (ready.holds.none honors))).mono fun r m' post => ?_⟩
    exact post.afterNone honors advances

theorem fulfils_suspendAt (calls : P.Spare W) {operand : Eval σ Value} (h : ∀ s, Tame W s operand)
    (slot : Nat) (span : Span) :
    FulfilsAlways W P strict scope k nowhere
      (atYield fun slot' => if slot' = slot then some k else none)
      (suspendAt operand slot span) := by
  intro m n entered _ ready
  obtain ⟨quiet, rfl⟩ := entered.quiet
  have orderly := ready.tidy.orderly
  rw [suspendAt, safe_bind, safe_ask]
  refine ⟨ready.tidy, ?_⟩
  cases hr : m.records with
  | none =>
    simp only [orderly.records_eq_none.1 hr, After]
    exact ⟨ready.tidy, .refl m, (Machine.Steady.of_eq rfl rfl).advances, .inr quiet,
      fine_error trivial⟩
  | some records =>
    obtain ⟨g, generator, running, -⟩ := Machine.records_eq_some.1 hr
    simp only [running, After]
    rw [safe_bind]
    refine ((h m.store).honest calls m ready.tidy (.refl _)).mono fun r m₁ post => ?_
    have spares := post.1.mono (Rights.none_le (.upTo n))
    cases r with
    | error fault =>
      exact (spares.delivers (T := fun _ _ => True) orderly quiet fun _ _ => trivial).error
    | ok v =>
      have hr₁ : m₁.records = some ([], none) := by
        rw [spares.steady.records orderly, hr, quiet _ hr]
      have orderly₁ := spares.tidy.orderly
      have honors (R : Rights) : m₁.Honors W R (m₁.setRecords [.yield slot] none) :=
        .setRecords orderly₁ hr₁
      have lists : Machine.Lists W [.yield slot] m₁.store := by
        intro _ point listed e told
        obtain rfl := List.mem_singleton.1 listed
        cases told
      change Safe _ _ (perform (.pushResumePoint (.yield slot)) >>= fun _ => throw _) m₁ _
      rw [safe_bind, safe_perform, Machine.pushResumePoint_apply hr₁]
      exact ⟨.inl Machine.setRecords_store, spares.tidy.setRecords hr₁ lists,
        spares.honors.trans (honors _), spares.steady.advances.trans (.setRecords orderly₁ hr₁), _,
        n, Machine.records_setRecords hr₁, if_pos rfl,
        (ready.holds.none post.1.honors).none (honors .none), fun _ _ positive => positive⟩

theorem fulfils_yieldAt (calls : P.Spare W) {operand : Eval σ Value} (h : ∀ s, Tame W s operand)
    (slot : Nat) (span : Span) (resumed : Option Nat) :
    FulfilsAlways W P strict scope k (here (if resumed = some slot then some k else none))
      (atYield fun slot' => if slot' = slot then some k else none)
      (yieldAt operand slot span resumed) := by
  unfold yieldAt
  split
  · exact fulfils_resumeAt span
  · rw [here_none]
    exact fulfils_suspendAt calls h slot span

end

end Eval

end ScriptEngine
