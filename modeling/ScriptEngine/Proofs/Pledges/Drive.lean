import ScriptEngine.Proofs.Generator.StateMachine
import ScriptEngine.Proofs.Pledges.Call

/-!
# Drives

A generator that is made or suspended takes over what its body still pledges, and the body gets it
back with the next drive. While the body runs the generator pledges nothing, so the pledge is never
there twice.
-/

namespace ScriptEngine

open Eval Claims

variable {σ α : Type} {W : Watch}

theorem Body.dues_of_pledges {strict : Bool} {scope : EnvironmentId} {body : Body}
    {points : List ResumePoint} {n : Dues} (h : body.pledges strict scope points = some n) :
    body.dues strict scope points = n := by
  cases points with
  | nil => cases body <;> cases h
  | cons => simp [Body.dues, h]

namespace Machine

variable {m m' : Machine σ} {function : ObjectId} {closure : Closure} {frame : Frame} {p : Spot}

theorem generator?_of_create {g : GeneratorId} {generator : Generator}
    (hg : ((Effect.createGenerator function closure frame).apply m).2.generator? g = some generator) :
    g.index = m.generators.size ∧
        generator = { frame := some { frame with generator := some g }, function, closure } ∨
      m.generator? g = some generator := by
  rw [generator?_createGenerator] at hg
  split at hg
  · rename_i index
    exact .inl ⟨index, (Option.some.inj hg).symm⟩
  · exact .inr hg

theorem Claimed.create
    (h : ((Effect.createGenerator function closure frame).apply m).2.Claimed p) :
    0 < Dues.among frame.lexical closure.node.body.names p ∨ m.Claimed p := by
  obtain ⟨g, generator, hg, pledges⟩ := h
  rcases generator?_of_create hg with ⟨-, rfl⟩ | old
  · exact .inl pledges
  · exact .inr ⟨g, generator, old, pledges⟩

theorem Tidy.create (h : m.Tidy W) (tidy : closure.node.tidy W.once = true)
    (holds : m.Holds W (.among frame.lexical closure.node.body.names))
    (code : W.sound = true → closure.node.wellFormed = true ∧ m.store.Inner frame.lexical) :
    ((Effect.createGenerator function closure frame).apply m).2.Tidy W := by
  have free {p : Spot} {g : GeneratorId} {generator : Generator}
      (hg : m.generator? g = some generator) (pledges : 0 < generator.dues p) : ¬ 0 < Dues.among frame.lexical closure.node.body.names p :=
    fun positive => (holds p positive).1.unclaimed ⟨g, generator, hg, pledges⟩
  refine ⟨h.orderly.create, h.settled, h.objects, h.heap, fun g generator hg => ?_,
    fun p g generator hg pledges => ?_,
    fun p g₁ g₂ generator₁ generator₂ hg₁ hg₂ pledges₁ pledges₂ => ?_,
    fun p sealed => ⟨(h.sealed p sealed).1, fun claimed => ?_⟩, fun sound => ?_⟩
  · rcases generator?_of_create hg with ⟨-, rfl⟩ | old
    · exact tidy
    · exact h.bodies g generator old
  · rcases generator?_of_create hg with ⟨-, rfl⟩ | old
    · exact ⟨(holds p pledges).1.reserved, (holds p pledges).2⟩
    · exact h.pledged p g generator old pledges
  · rcases generator?_of_create hg₁ with ⟨index₁, rfl⟩ | old₁ <;>
      rcases generator?_of_create hg₂ with ⟨index₂, rfl⟩ | old₂
    · exact congrArg GeneratorId.mk (index₁.trans index₂.symm)
    · exact absurd pledges₁ (free old₂ pledges₂)
    · exact absurd pledges₂ (free old₁ pledges₁)
    · exact h.apart p g₁ g₂ generator₁ generator₂ old₁ old₂ pledges₁ pledges₂
  · rcases claimed.create with held | old
    · exact (holds p held).1.unsealed sealed
    · exact (h.sealed p sealed).2 old
  · have intact := h.intact sound
    refine intact.change h.orderly intact.store (.refl _) rfl rfl fun g generator hg => ?_
    rcases generator?_of_create hg with ⟨-, rfl⟩ | old
    · refine ⟨(code sound).1, ?_, nofun⟩
      rintro _ ⟨⟩
      exact (code sound).2
    · exact intact.generators g generator old

theorem Honors.create {m₀ : Machine σ} (honors : m₀.Honors W .none m)
    (new : m₀.store.environments.size ≤ frame.lexical.index) :
    m₀.Honors W .none ((Effect.createGenerator function closure frame).apply m).2 where
  grows := honors.grows
  unclaimed p has free claimed := claimed.create.elim (fun held => by
    rw [Dues.scope_of_among held] at has
    exact absurd has (Nat.not_lt.2 new)) (honors.unclaimed p has free)
  reserved := honors.reserved
  names := honors.names

end Machine

namespace Eval

variable {P : Promises σ} [P.Lawful] {A : Answers σ} (kept : P.Fulfilled W A) (shortcuts : Bool)

include kept

theorem honest_startGenerator (function : ObjectId) {closure : Closure}
    (tidy : closure.node.tidy W.once = true) (this : Value) (arguments : List Value) :
    Honest W P .none (fun m => W.sound = true → closure.Intact m.store) (fun _ _ => True)
      (startGenerator function closure this arguments) := by
  refine honest_enter (Q := fun _ => True) kept.calls fun first scope new m orderly known => ?_
  have wellFormed (sound : W.sound = true) := (known.1.code sound).node
  refine confined_bind ((honest_called_bindThis .undefined nofun).widen (Rights.none_le _)) (fun _ =>
      confined_bind (honest_called_instantiate kept tidy new _ arguments) fun own => ?_)
    m orderly known
  rintro m orderly ⟨⟨⟨holds, has⟩, free⟩, new, inner⟩
  refine ⟨orderly, orderly, orderly, ?_⟩
  change Safe _ _ (perform (.createGenerator function closure
    (closure.frame own m.options.debugNames)) >>= _) m _
  generalize framed : closure.frame own m.options.debugNames = frame
  obtain rfl : frame.lexical = own := framed ▸ rfl
  rw [safe_bind, safe_perform]
  have created : ((Effect.createGenerator function closure frame).apply m).2.Tidy W :=
    orderly.create tidy holds fun sound => ⟨wellFormed sound, has, inner sound⟩
  have object (s : Store) (prototype : ObjectId) (g : GeneratorId) : Tame W s (do
      let o ← perform (.allocate { prototype := some prototype, kind := .generator g })
      pure (.object o) : Eval σ Value) := tame_bind (tame_allocateData rfl) fun o => tame_pure _
  refine ⟨.inl rfl, ((object m.store _ _).honest kept.calls _ created (.refl _)).mono
    fun r m' post => ⟨?_, fun _ _ => trivial⟩⟩
  obtain ⟨spares, -⟩ := post
  have steady : m.Steady ((Effect.createGenerator function closure frame).apply m).2 := .create
  exact ⟨spares.tidy, fun m₀ few honors => (honors.create (Nat.le_trans few new)).trans spares.honors,
    spares.honors.grows, steady.trans spares.steady, spares.fine⟩

end Eval

/-! ## Generators that run -/

namespace Machine

variable {m m₁ m' : Machine σ} {g : GeneratorId} {generator : Generator} {frame : Frame} {p : Spot}
  {resumption : Option Resumption}

theorem Orderly.enters (h : m.Orderly) (hg : m.generator? g = some generator)
    (ready : generator.Ready resumption) (parked : generator.frame = some frame) :
    frame.generator = some g ∧ ((m.modifyGenerator g (·.run resumption)).push frame).Enters
      (.among frame.lexical generator.closure.node.body.names)
      (generator.closure.node.body.pledges frame.strict frame.lexical) generator.dues := by
  obtain ⟨own, entered⟩ := h.entered hg ready parked
  have records : ((m.modifyGenerator g (·.run resumption)).push frame).records =
      some (generator.resumePoints, resumption) := by
    refine records_eq_some.2 ⟨g, generator.run resumption, own, ?_, rfl, rfl⟩
    rw [generator?_push, generator?_modifyGenerator, if_pos rfl, hg, Option.map_some]
  have dues : generator.dues = generator.closure.node.body.dues frame.strict frame.lexical
      generator.resumePoints := by rw [Generator.dues, parked]
  rw [dues]
  refine ⟨own, ?_⟩
  rcases entered with quiet | ⟨points, w, replays, fits⟩
  · rw [show generator.resumePoints = [] from congrArg Prod.fst (quiet _ records)]
    exact .inl ⟨quiet, rfl⟩
  · cases records.symm.trans replays
    obtain ⟨n, pledged⟩ := Option.isSome_iff_exists.1 ((Body.cover_pledges _ frame.lexical _ _).2 fits)
    rw [Body.dues_of_pledges pledged]
    exact .inr ⟨_, w, records, pledged⟩

theorem Claimed.run (hg : m.generator? g = some generator)
    (h : ((m.modifyGenerator g (·.run resumption)).push frame).Claimed p) :
    ∃ g' generator', g' ≠ g ∧ m.generator? g' = some generator' ∧ 0 < generator'.dues p := by
  refine (h.modify hg rfl).resolve_left fun pledges => ?_
  rw [Generator.dues_of_running rfl] at pledges
  exact Nat.lt_irrefl 0 pledges

theorem Tidy.resumed (h : m.Tidy W) (hg : m.generator? g = some generator)
    (idle : generator.state ≠ .executing) (own : frame.generator = some g)
    (parked : generator.frame = some frame) :
    ((m.modifyGenerator g (·.run resumption)).push frame).Ready W frame.strict frame.lexical
      generator.dues := by
  refine ⟨h.modify (·.run resumption) hg (h.orderly.enter hg idle resumption own) rfl rfl
    rfl (fun p positive => ?_) fun sound => ?_, rfl, rfl, fun p positive => ?_⟩
  · rw [Generator.dues_of_running rfl] at positive
    cases positive
  · have intact := h.intact sound
    have inner := (intact.generators g generator hg).frame frame parked
    refine ⟨intact.store, intact.realm, grounds_of_inner inner, fun g' generator' hg' => ?_⟩
    rcases generator?_of_modify hg rfl hg' with ⟨-, rfl⟩ | ⟨-, hg'⟩
    · exact ⟨(intact.generators g generator hg).node, nofun, (intact.generators g generator hg).records⟩
    · exact intact.generators g' generator' hg'
  · obtain ⟨reserved, single⟩ := h.pledged p g generator hg positive
    refine ⟨⟨reserved, fun claimed => ?_, fun sealed => (h.sealed p sealed).2
      ⟨g, generator, hg, positive⟩⟩, single⟩
    obtain ⟨g', generator', other, hg', pledges⟩ := claimed.run hg
    exact other (h.apart p g' g generator' generator hg' hg pledges positive)

theorem Honors.leave {ended : Generator} {change : Generator → Generator}
    (hg : m.generator? g = some generator)
    (honors : ((m.modifyGenerator g (·.run resumption)).push frame).Honors W (.upTo generator.dues) m')
    (hg' : m'.generator? g = some ended)
    (backed : ∀ p, m.store.Has p.1 → 0 < (change ended).dues p → 0 < generator.dues p) :
    m.Honors W .none (m'.pop.modifyGenerator g change) := by
  -- nothing is pledged unless the machine was claimed
  have unused {p : Spot} (free : ¬ m.Claimed p) : generator.dues p = 0 :=
    Nat.eq_zero_of_not_pos fun positive => free ⟨g, generator, hg, positive⟩
  have clear {p : Spot} (free : ¬ m.Claimed p) :
      ¬ ((m.modifyGenerator g (·.run resumption)).push frame).Claimed p := fun claimed =>
    let ⟨g', generator', _, hg', pledges⟩ := claimed.run hg
    free ⟨g', generator', hg', pledges⟩
  refine ⟨honors.grows, fun p has free claimed => ?_, fun p _ reserved free => ?_,
    fun p _ => honors.names p id⟩
  · rcases claimed.modify hg' rfl with own | ⟨g', generator', -, found, pledges⟩
    · exact Nat.ne_of_gt (backed p has own) (unused free)
    · exact honors.unclaimed p has (clear free) ⟨g', generator', found, pledges⟩
  · refine honors.reserved p (fun _ init => ?_) reserved (clear free)
    exact Nat.ne_of_gt init (unused free)

theorem Tidy.abandon (h : m.Tidy W) (hg : m.generator? g = some generator)
    (state : generator.state = .suspendedStart) :
    m.Spares W .none (.ok () : Except Fault Unit) (m.modifyGenerator g (·.complete)) := by
  have orderly := h.orderly.generators g generator hg
  simp only [Generator.Orderly, state] at orderly
  have ended (p : Spot) : ¬ 0 < generator.complete.dues p := by
    rw [Generator.dues_of_running rfl]
    exact Nat.lt_irrefl 0
  refine ⟨h.modify _ hg (h.orderly.modify hg ⟨rfl, rfl, rfl, orderly.2.2.2⟩) rfl rfl rfl
      (fun p positive => absurd positive (ended p)) fun sound => ?_,
    ⟨.refl _, fun p _ free claimed => ?_, fun _ _ reserved _ => reserved, fun _ _ _ => .refl _ _⟩,
    .modify hg (by simp [state]) (by simp [state]), fine_ok ()⟩
  · have intact := h.intact sound
    refine intact.change h.orderly intact.store (.refl _) rfl rfl fun g' generator' hg' => ?_
    rcases generator?_of_modify hg rfl hg' with ⟨-, rfl⟩ | ⟨-, hg'⟩
    · exact ⟨(intact.generators g generator hg).node, by simp [Generator.complete], by simp [Generator.complete]⟩
    · exact intact.generators g' generator' hg'
  · rcases claimed.modify hg rfl with own | ⟨g', generator', -, hg', pledges⟩
    · exact ended p own
    · exact free ⟨g', generator', hg', pledges⟩

theorem Delivers.leave {T : α → Machine σ → Prop} {C : Claims} {r : Except Fault α} {ended : Generator}
    {change : Generator → Generator} (tidy : m.Tidy W) (hg : m.generator? g = some generator)
    (step : generator.state.Step .executing) (own : frame.generator = some g)
    (h : ((m.modifyGenerator g (·.run resumption)).push frame).Delivers W generator.dues C T r m')
    (hg' : m'.generator? g = some ended)
    (orderly : (m'.pop.modifyGenerator g change).Orderly)
    (closure : (change ended).closure = ended.closure)
    (holds : m'.Holds W (change ended).dues)
    (backed : ∀ p, m.store.Has p.1 → 0 < (change ended).dues p → 0 < generator.dues p)
    (intact : W.sound = true → (change ended).Intact m'.store) :
    m.Spares W .none (.ok () : Except Fault Unit) (m'.pop.modifyGenerator g change) := by
  have steady : m.Steady (m'.pop.modifyGenerator g change) := h.advances.leave hg step own
  have generators : (m'.pop.modifyGenerator g change).generators =
      (m'.modifyGenerator g change).generators := rfl
  refine ⟨h.tidy.modify _ hg' orderly rfl generators closure (fun p positive => ?_) fun sound => ?_,
    .leave hg h.honors hg' backed, steady, fine_ok ()⟩
  · obtain ⟨awaits, single⟩ := holds p positive
    exact ⟨awaits.reserved, single, awaits.unsealed, fun g' generator' _ hg' =>
      Nat.eq_zero_of_not_pos fun pledges => awaits.unclaimed ⟨g', generator', hg', pledges⟩⟩
  · have left := h.tidy.intact sound
    refine ⟨left.store, left.realm, ?_, fun g' generator' found => ?_⟩
    · rw [lexical_of_stack tidy.orderly steady.stack]
      exact (tidy.intact sound).lexical.congr h.honors.grows steady.runningGenerator?
    · rcases generator?_of_modify hg' generators found with ⟨-, rfl⟩ | ⟨-, found⟩
      · exact intact sound
      · exact left.generators g' generator' found

end Machine

namespace Eval

variable {P : Promises σ} [P.Lawful] {A : Answers σ} (kept : P.Fulfilled W A) (shortcuts : Bool)
  {s : Store} (engine : Engine σ)

include kept

omit kept in
@[grind .]
theorem tame_iterationResult (v : Value) (done : Bool) :
    Tame W s (iterationResult v done : Eval σ Value) := by
  unfold iterationResult
  exact tame_bind (tame_ask _) fun _ => tame_bind (tame_allocateData rfl) fun _ => tame_pure _

omit kept in
theorem tame_answerRun {r : Except Fault Completion} (fine : Unsuspended r → Fine W r) :
    Tame W s (answerRun r : Eval σ Value) := by
  unfold answerRun
  split
  · exact tame_iterationResult _ _
  · exact tame_bind (tame_ofExcept (fine ‹_›)) fun completion =>
      tame_bind (tame_ofExcept completion.result_fine) fun v => tame_iterationResult v true

theorem spares_finishRun {m m' : Machine σ} {g : GeneratorId} {generator : Generator}
    {frame : Frame} (h : m.Tidy W) (hg : m.generator? g = some generator)
    (parked : generator.frame = some frame)
    (step : generator.state.Step .executing) (own : frame.generator = some g)
    (resumption : Option Resumption) {r : Except Fault Completion}
    (ends : ((m.modifyGenerator g (·.run resumption)).push frame).Delivers W generator.dues
      (generator.closure.node.body.pledges frame.strict frame.lexical) (fun _ _ => True) r m') :
    (finishRun g frame r).Safe (Moment.Watched W) P m'.pop (m.Spares W .none) := by
  have frames : m'.links = some g :: m.links := by simp [ends.advances.links, own]
  obtain ⟨points, w, hg', -⟩ := ends.advances.executing g (generator.run resumption)
    (by rw [Machine.generator?_push, Machine.generator?_modifyGenerator]; simp [hg]) rfl
  have running : m'.runningGenerator? = some g := ends.advances.running.trans own
  have fine (unsuspended : Unsuspended r) : Fine W r := by
    cases r with
    | ok completion => exact fine_ok completion
    | error fault =>
      cases fault with
      | suspended v => exact absurd rfl (unsuspended v)
      | _ => exact ends.left.2.error
  have continuing {m₁ : Machine σ} (left : m.Spares W .none (.ok () : Except Fault Unit) m₁) :
      (answerRun r).Safe (Moment.Watched W) P m₁ (m.Spares W .none) :=
    ((tame_answerRun fine).honest kept.calls m₁ left.tidy (.refl m₁.store)).mono fun _ _ post =>
      left.trans post.1
  have intact (sound : W.sound = true) := (h.intact sound).generators g generator hg
  rcases finishRun_cases g frame r with ⟨⟨v, rfl⟩, e⟩ | ⟨-, e⟩ <;> rw [e, safe_bind, safe_perform]
  · obtain ⟨points, n, hr, pledged, holds, backed⟩ := ends.left
    have lists := ends.tidy.lists hr
    obtain ⟨_, _, running', found, rfl, resumed⟩ := Machine.records_eq_some.1 hr
    cases running.symm.trans running'
    cases hg'.symm.trans found
    obtain rfl := Body.dues_of_pledges pledged
    have fits := (Body.cover_pledges _ frame.lexical _ _).1 (Option.isSome_of_eq_some pledged)
    have orderly : (m'.pop.modifyGenerator g (·.suspend frame)).Orderly :=
      ends.tidy.orderly.leave frames h.orderly.root hg' ⟨⟨frame, rfl, own, fits⟩, resumed, rfl⟩
    refine ⟨.inl rfl, continuing (ends.leave h hg step own hg' orderly rfl holds backed
      fun sound => ⟨(intact sound).node, ?_, lists sound⟩)⟩
    rintro _ ⟨⟩
    exact ends.honors.grows.inner ((intact sound).frame frame parked)
  · have done (generator : Generator) : generator.complete.dues = 0 := Generator.dues_of_running rfl
    have orderly : (m'.pop.modifyGenerator g (·.complete)).Orderly :=
      ends.tidy.orderly.leave frames h.orderly.root hg' ⟨rfl, rfl, rfl, rfl⟩
    refine ⟨.inl rfl, continuing (ends.leave h hg step own hg' orderly rfl (by rw [done]; exact .zero)
      (fun p _ positive => ?_) fun sound => ⟨(intact sound).node, nofun, nofun⟩)⟩
    rw [done] at positive
    cases positive

theorem spares_runGenerator {m : Machine σ} (h : m.Tidy W) {g : GeneratorId}
    {generator : Generator} (hg : m.generator? g = some generator)
    {resumption : Option Resumption} (ready : generator.Ready resumption) :
    (runGenerator shortcuts g resumption).Safe (Moment.Watched W) P m (m.Spares W .none) := by
  refine safe_runGenerator_of shortcuts h.orderly hg ready
    ⟨.inl rfl, .of_tidy h (fine_error trivial)⟩ fun frame parked => ?_
  obtain ⟨own, enters⟩ := h.orderly.enters hg ready parked
  have asks : W.Asks (generator.closure.node.tidy W.once) generator.closure.node.wellFormed :=
    ⟨h.bodies g generator hg, fun sound => ((h.intact sound).generators g generator hg).node⟩
  refine ⟨.inl rfl, (FunctionNode.fulfils kept shortcuts frame.strict frame.lexical asks _ _ enters
    trivial (h.resumed hg ready.idle own parked)).mono fun r m' ends => ?_⟩
  exact spares_finishRun kept h hg parked ready.step own resumption ends

omit kept in
@[grind .]
theorem tame_driveDone (resumption : Resumption) :
    Tame W s (driveDone resumption : Eval σ Value) := by
  cases resumption with
  | next v => exact tame_iterationResult _ _
  | «return» v => exact tame_iterationResult _ _
  | throw v => exact tame_throw trivial

omit kept in
theorem drivable_fine (m : Machine σ) (receiver : Value) (brand : Option String) :
    Fine W (m.drivable receiver brand) := by
  unfold Machine.drivable
  split
  · exact fine_error trivial
  · split
    · exact fine_error trivial
    · split
      · exact fine_error trivial
      · split
        · exact fine_error trivial
        · exact fine_ok _

theorem honest_drive (receiver : Value) (resumption : Resumption) (brand : Option String) :
    Honest W P .none (fun _ => True) (fun _ _ => True) (drive shortcuts receiver resumption brand) := by
  intro m h _
  have done {m : Machine σ} (h : m.Tidy W) :=
    (tame_driveDone resumption).honest kept.calls m h (.refl m.store)
  have driven : (drive shortcuts receiver resumption brand).Safe (Moment.Watched W) P m
      (m.Spares W .none) := by
    refine safe_drive shortcuts h (fun fault drivable => ?_) ((done h).mono fun _ _ post => post.1)
      (fun g generator hg state => ?_) fun g generator resumed hg ready =>
        spares_runGenerator kept shortcuts h hg ready
    · exact .of_tidy h (drivable ▸ drivable_fine m receiver brand : Fine W _).error
    · have left := h.abandon hg state
      rw [safe_bind, safe_perform]
      exact ⟨.inl rfl, (done left.tidy).mono fun _ _ post => left.trans post.1⟩
  exact driven.mono fun _ _ spares => ⟨spares, fun _ _ => trivial⟩

/-! ## Builtins and invocations -/

omit kept in
@[grind .]
theorem tame_bindFunction (target thisArgument : Value) (arguments : List Value) :
    Tame W s (bindFunction target thisArgument arguments : Eval σ Value) := by
  have bound (object : Object) (f : Bound) (kind : object.kind = .function (.bound f)) :
      Tame W s (do
        let bound ← perform (.allocate object)
        pure (.object bound) : Eval σ Value) :=
    tame_allocate (fun callable found => by
      simp only [Object.callable?, kind, Option.some.injEq] at found
      subst found
      exact ⟨trivial, fun _ => trivial⟩) fun _ _ => tame_pure _
  unfold bindFunction
  split
  · refine tame_bind (tame_ask _) fun h => ?_
    dsimp only
    split
    · exact tame_bind (tame_typeError _) fun _ => bound _ _ rfl
    · exact bound _ _ rfl
  · exact tame_typeError _

omit kept in
@[grind .]
theorem tame_newObject : Tame W s (newObject : Eval σ ObjectId) :=
  tame_bind (tame_ask _) fun _ => tame_allocateData rfl

omit kept in
@[grind .]
theorem tame_objectOf (v : Value) : Tame W s (objectOf v : Eval σ Value) := by
  unfold objectOf
  grind

omit kept in
@[grind .]
theorem tame_constructError (prototype : ObjectId) (message : Value) :
    Tame W s (constructError prototype message : Eval σ Value) := by
  unfold constructError
  grind

omit kept in
theorem tame_builtinCall {builtin : Builtin} (this : Value) (arguments : List Value)
    (nexts : builtin ≠ .generatorNext) (returns : builtin ≠ .generatorReturn)
    (throws : builtin ≠ .generatorThrow) :
    Tame W s (builtin.call shortcuts this arguments : Eval σ Value) := by
  unfold Builtin.call spreadList
  grind

omit kept in
theorem honest_builtinConstruct {builtin : Builtin} {arguments : List Value}
    {newTarget : ObjectId} {x : Eval σ Value} (calls : P.Spare W)
    (h : builtin.construct? arguments newTarget = some x) :
    Honest W P .none (fun _ => True) (fun v _ => ∃ o, v = .object o) x := by
  have made {x : Eval σ ObjectId} (h : ∀ s, Tame W s x) : Honest W P .none (fun _ => True)
      (fun v _ => ∃ o, v = .object o) (do pure (.object (← x)) : Eval σ Value) :=
    honest_bind (Tame.keepingAll (K := fun _ => True) h calls
      fun _ _ _ _ _ => trivial) fun o => honest_pure fun _ _ => ⟨o, rfl⟩
  have looking {β : Type} {view : Machine σ → β} {f : β → Eval σ Value}
      (hf : ∀ b, Honest W P .none (fun _ => True) (fun v _ => ∃ o, v = .object o) (f b)) :
      Honest W P .none (fun _ => True) (fun v _ => ∃ o, v = .object o) (ask view >>= f) :=
    honest_bind (honest_ask fun _ _ known => known) hf
  have object (v : Value) : Honest W P .none (fun _ => True) (fun v _ => ∃ o, v = .object o)
      (objectOf v : Eval σ Value) := by
    unfold objectOf
    dsimp only
    split
    · exact made fun _ => tame_newObject
    · exact made fun _ => tame_toObject v
  have error (prototype : ObjectId) (message : Value) : Honest W P .none (fun _ => True)
      (fun v _ => ∃ o, v = .object o) (constructError prototype message : Eval σ Value) :=
    looking fun _ => made fun _ => tame_newError _ _ _
  unfold Builtin.construct? at h
  split at h <;> cases h
  · refine looking fun own => ?_
    split
    · exact object _
    · exact looking fun _ => looking fun _ => made fun _ => tame_allocateData rfl
  · exact looking fun _ => looking fun _ => error _ _

theorem honest_builtin (builtin : Builtin) (this : Value) (arguments : List Value) :
    Honest W P .none (fun _ => True) (fun _ _ => True) (builtin.call shortcuts this arguments) := by
  cases builtin with
  | generatorNext | generatorReturn | generatorThrow => exact honest_drive kept shortcuts this _ none
  | _ =>
    refine Tame.keepingAll (K := fun _ => True) (fun _ => ?_) kept.calls
      fun _ _ _ _ _ => trivial
    exact tame_builtinCall shortcuts _ _ nofun nofun nofun

omit [P.Lawful] kept in
theorem honest_look {β : Type} {Q : β → Machine σ → Prop} {view : Machine σ → α} {f : α → Eval σ β}
    (h : ∀ m, m.Tidy W → Honest W P .none (· = m) Q (f (view m))) :
    Honest W P .none (fun _ => True) Q (ask view >>= f) :=
  fun m tidy _ => ⟨tidy, h m tidy m tidy rfl⟩

theorem honest_callObject
    (natives : ∀ (f : Native) this arguments, (W.sound = true → ∃ b, f.code = .builtin b) →
      Honest W P .none (fun _ => True) (fun _ _ => True) (f.call engine this arguments))
    (o : ObjectId) (this : Value) (arguments : List Value) :
    Honest W P .none (fun _ => True) (fun _ _ => True) (callObject engine o this arguments) := by
  refine honest_look fun m tidy => ?_
  have here {x : Eval σ Value} {H : Machine σ → Prop} (h : Honest W P .none H (fun _ _ => True) x)
      (known : H m) : Honest W P .none (· = m) (fun _ _ => True) x :=
    h.under (fun _ same => same ▸ known)
  have tame {x : Eval σ Value} (h : Tame W m.store x) :=
    here (h.honest kept.calls) (.refl _)
  have code := tidy.heap o
  have intact (sound : W.sound = true) := (tidy.intact sound).store.functions o
  cases found : (m.heap.get o).callable? with
  | none => exact tame (tame_typeError _)
  | some callable =>
    have code := code callable found
    have intact (sound : W.sound = true) := intact sound callable found
    cases callable with
    | script closure =>
      dsimp only
      split
      · exact tame (tame_typeError _)
      · exact here (honest_callClosure kept engine.shortcuts o code this arguments) intact
    | generator closure => exact here (honest_startGenerator kept o code this arguments) intact
    | native f => exact here (natives f this arguments intact) trivial
    | bound f => exact tame (tame_call _ _ _)

theorem honest_constructObject (o : ObjectId) (arguments : List Value) (newTarget : ObjectId) :
    Honest W P .none (fun _ => True) (fun v _ => W.sound = true → ∃ o, v = .object o)
      (constructObject engine o arguments newTarget) := by
  refine honest_look fun m tidy => ?_
  have refused : Honest W P .none (· = m) (fun v _ => W.sound = true → ∃ o, v = .object o) (do
      let text ← ask fun m => m.heap.toText (.object o)
      typeError (.notConstructor text) : Eval σ Value) :=
    honest_bind (Q := fun _ _ => True) (honest_ask fun _ _ _ => trivial) fun _ =>
      honest_ofExcept (fine_error trivial) nofun
  have made {x : Eval σ Value} {H : Machine σ → Prop}
      (h : Honest W P .none H (fun v _ => ∃ o, v = .object o) x) (known : H m) :
      Honest W P .none (· = m) (fun v _ => W.sound = true → ∃ o, v = .object o) x :=
    h.mono (.refl _) (fun _ same => same ▸ known) fun _ _ object _ => object
  have code := tidy.heap o
  have intact (sound : W.sound = true) := (tidy.intact sound).store.functions o
  cases found : (m.heap.get o).callable? with
  | none => exact refused
  | some callable =>
    have code := code callable found
    have intact (sound : W.sound = true) := intact sound callable found
    cases callable with
    | script closure =>
      dsimp only
      split
      · exact made (honest_constructClosure kept engine.shortcuts o code arguments newTarget) intact
      · exact refused
    | generator closure => exact refused
    | native f =>
      dsimp only
      split
      · split
        · rename_i x construct
          exact made (honest_enterNative (Q := fun v : Value => ∃ o, v = .object o) kept.calls
            (honest_builtinConstruct kept.calls construct)) trivial
        · exact refused
      · exact refused
    | bound f =>
      exact (honest_invoke kept.calls _).under (fun _ _ => trivial)

theorem honest_invocation
    (natives : ∀ (f : Native) this arguments, (W.sound = true → ∃ b, f.code = .builtin b) →
      Honest W P .none (fun _ => True) (fun _ _ => True) (f.call engine this arguments))
    (invocation : Invocation) :
    Honest W P .none (fun _ => True) (fun v _ => W.sound = true → invocation.Makes v)
      (invocation.eval engine) := by
  cases invocation with
  | call callee this arguments =>
    cases callee with
    | object o =>
      exact (honest_callObject kept engine natives o this arguments).mono (.refl _)
        (fun _ known => known) fun _ _ _ _ => trivial
    | _ =>
      exact honest_bind (Q := fun _ _ => True) (honest_ask fun _ _ _ => trivial) fun _ =>
        honest_ofExcept (fine_error trivial) nofun
  | construct callee arguments newTarget =>
    cases callee with
    | object o => exact honest_constructObject kept engine o arguments _
    | _ =>
      exact honest_bind (Q := fun _ _ => True) (honest_ask fun _ _ _ => trivial) fun _ =>
        honest_ofExcept (fine_error trivial) nofun

end Eval

namespace Loop

variable {l : Loop} {value : Value} {environment scope : EnvironmentId}

theorem entered_leaves_pledges (strict : Bool) :
    (l.entered false value environment).leaves strict scope = l.leaves strict scope := by
  cases l <;> rfl

theorem entered_asks (h : l.Asks W) : (l.entered false value environment).Asks W := by
  cases l <;> exact h

theorem entered_around (h : l.Around scope) : (l.entered false value environment).Around scope := by
  cases l <;> exact h

end Loop

def Engine.Tame (W : Watch) (engine : Engine σ) : Prop :=
  W.sound = false → ∀ f ∈ engine.host, ∀ this arguments s, Eval.Tame W s (f.run this arguments)

namespace Engine

variable {engine : Engine σ} (tame : engine.Tame W)

include tame

theorem honest_native {P : Promises σ} [P.Lawful] {A : Answers σ} (kept : P.Fulfilled W A) (f : Native)
    (this : Value) (arguments : List Value) (known : W.sound = true → ∃ b, f.code = .builtin b) :
    Honest W P .none (fun _ => True) (fun _ _ => True) (f.call engine this arguments) := by
  refine honest_enterNative (Q := fun _ => True) kept.calls ?_
  split
  · exact honest_builtin kept engine.shortcuts _ this arguments
  · rename_i index host
    have unsound : W.sound = false := by
      refine Bool.eq_false_iff.2 fun sound => ?_
      obtain ⟨b, code⟩ := known sound
      cases host.symm.trans code
    split
    · rename_i function found
      exact Tame.keepingAll (K := fun _ => True) (tame unsound function (List.mem_of_getElem? found) this
        arguments) kept.calls fun _ _ _ _ _ => trivial
    · exact honest_ofExcept ⟨unsuspended_error.2 nofun, fun sound => by simp [unsound] at sound⟩ nofun

theorem promises_fulfilled (fuel : Nat) :
    (engine.promises (Moment.Watched W) fuel).Fulfilled W (engine.answers fuel) := by
  induction fuel with
  | zero =>
    exact ⟨engine.promises_faithful 0, fun _ _ _ => trivial,
      fun _ _ _ _ _ _ _ _ _ _ => trivial⟩
  | succ fuel ih =>
    refine ⟨engine.promises_faithful (fuel + 1), fun invocation m tidy => ?_, ?_⟩
    · exact honest_invocation ih engine (honest_native tame ih) invocation m tidy trivial
    · intro strict scope l asks around m n entered grounded ready
      refine ⟨ready.tidy, ((Loop.round_fulfils ih engine.shortcuts strict scope l asks around m n
        entered grounded ready).and ih.faithful (R := fun r _ => ∀ l', r = .ok (.again l') →
          ∃ value environment, l' = l.entered false value environment)
        fun r m' run l' again => Loop.round_again engine.shortcuts (again ▸ run)).mono
          fun r m₁ post => ?_⟩
      obtain ⟨round, same⟩ := post
      rcases r with fault | step
      · exact round.error
      · cases step with
        | done completion =>
          exact ⟨round.tidy, round.honors, round.advances, round.left.1, trivial⟩
        | again l' =>
          obtain ⟨value, environment, rfl⟩ := same l' rfl
          have rest := ih.loops strict scope (l.entered false value environment)
            (Loop.entered_asks asks) (Loop.entered_around around) m₁ 0 round.left.1.enters
            round.left.2 (ready.advance round.advances round.tidy .zero)
          rw [Loop.entered_leaves_pledges] at rest
          refine rest.mono fun r m' ends => ?_
          exact ends.after round.honors round.advances fun _ _ used =>
            used.elim id fun used => absurd used (Nat.lt_irrefl 0)

end Engine

end ScriptEngine
