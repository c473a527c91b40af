import ScriptEngine.Proofs.Generator.Ordinary

/-!
# The records of the running generator

The records of the running generator are worked on like a stack, by effects that do nothing when no
generator is running (`Machine.records`, `Machine.setRecords`).
-/

namespace ScriptEngine

variable {σ : Type}

namespace Machine

variable (m : Machine σ)

def records : Option (List ResumePoint × Option Resumption) :=
  (m.runningGenerator?.bind m.generator?).map fun generator =>
    (generator.resumePoints, generator.resumption)

def setRecords (points : List ResumePoint) (resumption : Option Resumption) : Machine σ :=
  match m.runningGenerator? with
  | none => m
  | some g => m.modifyGenerator g fun generator =>
    { generator with resumePoints := points, resumption }

variable {m} {g : GeneratorId}

theorem records_eq_some {points : List ResumePoint} {resumption : Option Resumption} :
    m.records = some (points, resumption) ↔ ∃ g generator, m.runningGenerator? = some g ∧
      m.generator? g = some generator ∧ generator.resumePoints = points ∧
        generator.resumption = resumption := by
  simp only [records, Option.map_eq_some_iff, Option.bind_eq_some_iff, Prod.mk.injEq]
  grind

theorem Orderly.records_eq_none (h : m.Orderly) :
    m.records = none ↔ m.runningGenerator? = none := by
  simp only [records, Option.map_eq_none_iff, Option.bind_eq_none_iff]
  refine ⟨fun none => ?_, fun none => by simp [none]⟩
  cases running : m.runningGenerator? with
  | none => rfl
  | some g =>
    obtain ⟨generator, hg, _⟩ := h.running running
    exact absurd (none g running) (by simp [hg])

theorem modifyGenerator_congr {generator : Generator} {change change' : Generator → Generator}
    (hg : m.generator? g = some generator) (same : change generator = change' generator) :
    m.modifyGenerator g change = m.modifyGenerator g change' := by
  have generators : m.generators.modify g.index change = m.generators.modify g.index change' := by
    refine Array.ext_getElem? fun i => ?_
    simp only [Array.getElem?_modify]
    split
    · rename_i index
      have found : m.generators[i]? = some generator := by simpa [generator?, index] using hg
      simp [found, same]
    · rfl
  simp only [modifyGenerator, generators]

theorem modifyGenerator_self {generator : Generator} {change : Generator → Generator}
    (hg : m.generator? g = some generator) (same : change generator = generator) :
    m.modifyGenerator g change = m := by
  have kept : m.modifyGenerator g change = m.modifyGenerator g id := modifyGenerator_congr hg same
  have generators : m.generators.modify g.index id = m.generators :=
    Array.ext_getElem? fun i => by simp [Array.getElem?_modify]
  rw [kept, modifyGenerator, generators]

theorem modifyGenerator_modifyGenerator (g : GeneratorId) (change change' : Generator → Generator) :
    (m.modifyGenerator g change).modifyGenerator g change' =
      m.modifyGenerator g (change' ∘ change) := by
  have generators : (m.generators.modify g.index change).modify g.index change' =
      m.generators.modify g.index (change' ∘ change) := by
    refine Array.ext_getElem? fun i => ?_
    simp only [Array.getElem?_modify]
    split
    · simp only [Option.map_map]
    · rfl
  simp only [modifyGenerator, generators]

/-! ## The effects on records -/

variable {points : List ResumePoint} {resumption : Option Resumption}

section

variable (h : m.records = some (points, resumption))

include h

theorem takeResumePoint_apply :
    Effect.takeResumePoint.apply m = (points.head?, m.setRecords points.tail resumption) := by
  obtain ⟨g, generator, running, hg, rfl, rfl⟩ := records_eq_some.1 h
  simp only [Effect.apply, setRecords, running, hg, Option.bind_some]
  exact congrArg (Prod.mk _) (modifyGenerator_congr hg rfl)

theorem pushResumePoint_apply (point : ResumePoint) :
    (Effect.pushResumePoint point).apply m = ((), m.setRecords (point :: points) resumption) := by
  obtain ⟨g, generator, running, hg, rfl, rfl⟩ := records_eq_some.1 h
  simp only [Effect.apply, setRecords, running]
  exact congrArg (Prod.mk _) (modifyGenerator_congr hg rfl)

theorem takeResumption_apply :
    Effect.takeResumption.apply m = (resumption, m.setRecords points none) := by
  obtain ⟨g, generator, running, hg, rfl, rfl⟩ := records_eq_some.1 h
  simp only [Effect.apply, setRecords, running, hg, Option.bind_some]
  exact congrArg (Prod.mk _) (modifyGenerator_congr hg rfl)

end

theorem setRecords_eq (running : m.runningGenerator? = some g) :
    m.setRecords points resumption = m.modifyGenerator g fun generator =>
      { generator with resumePoints := points, resumption } := by
  simp only [setRecords, running]

theorem setRecords_stack : (m.setRecords points resumption).stack = m.stack := by
  simp only [setRecords]
  split <;> rfl

theorem records_setRecords {records : List ResumePoint × Option Resumption}
    (h : m.records = some records) :
    (m.setRecords points resumption).records = some (points, resumption) := by
  obtain ⟨g, generator, running, hg, _⟩ := records_eq_some.1 h
  refine records_eq_some.2 ⟨g, { generator with resumePoints := points, resumption }, ?_, ?_, rfl,
    rfl⟩
  · rw [← running, runningGenerator?, runningGenerator?, setRecords_stack]
  · rw [setRecords_eq running, generator?_modifyGenerator]
    simp [hg]

theorem setRecords_self (h : m.records = some (points, resumption)) :
    m.setRecords points resumption = m := by
  obtain ⟨g, generator, running, hg, rfl, rfl⟩ := records_eq_some.1 h
  rw [setRecords_eq running]
  exact modifyGenerator_self hg rfl

theorem setRecords_setRecords (points' : List ResumePoint) (resumption' : Option Resumption) :
    (m.setRecords points resumption).setRecords points' resumption' =
      m.setRecords points' resumption' := by
  have running : (m.setRecords points resumption).runningGenerator? = m.runningGenerator? := by
    simp only [runningGenerator?, setRecords_stack]
  cases hr : m.runningGenerator? with
  | none => simp only [setRecords, hr]
  | some g =>
    rw [setRecords_eq (running.trans hr), setRecords_eq hr, setRecords_eq hr,
      modifyGenerator_modifyGenerator]
    rfl

/-! ## Advancing -/

structure Advances (m m' : Machine σ) : Prop where
  stack : m'.stack = m.stack
  executing : ∀ g generator, m.generator? g = some generator → generator.state = .executing →
    ∃ points resumption,
      m'.generator? g = some { generator with resumePoints := points, resumption } ∧
        (m.runningGenerator? ≠ some g →
          points = generator.resumePoints ∧ resumption = generator.resumption)
  completed : ∀ g generator, m.generator? g = some generator → generator.state = .completed →
    m'.generator? g = some generator

theorem Advances.running {m m' : Machine σ} (h : m.Advances m') :
    m'.runningGenerator? = m.runningGenerator? := by
  simp only [runningGenerator?, h.stack]

theorem Advances.links {m m' : Machine σ} (h : m.Advances m') : m'.links = m.links := by
  simp only [Machine.links, h.stack]

theorem Advances.strict {m m' : Machine σ} (h : m.Advances m') : m'.strict = m.strict := by
  simp only [Machine.strict, h.stack]

theorem Steady.advances {m m' : Machine σ} (h : m.Steady m') : m.Advances m' :=
  ⟨h.stack, fun g generator hg executing =>
    ⟨generator.resumePoints, generator.resumption, h.executing g generator hg executing,
      fun _ => ⟨rfl, rfl⟩⟩, h.completed⟩

theorem Advances.trans {m m₁ m' : Machine σ} (h₁ : m.Advances m₁) (h₂ : m₁.Advances m') :
    m.Advances m' := by
  refine ⟨h₂.stack.trans h₁.stack, fun g generator hg executing => ?_,
    fun g generator hg completed =>
      h₂.completed g generator (h₁.completed g generator hg completed) completed⟩
  obtain ⟨points₁, resumption₁, hg₁, same₁⟩ := h₁.executing g generator hg executing
  obtain ⟨points, resumption, hg', same⟩ := h₂.executing g _ hg₁ executing
  refine ⟨points, resumption, hg', fun other => ?_⟩
  rw [← h₁.running] at other
  obtain ⟨rfl, rfl⟩ := same other
  exact same₁ (h₁.running ▸ other)

theorem Advances.steady {m m' : Machine σ} (h : m.Advances m')
    (free : m.runningGenerator? = none) : m.Steady m' := by
  refine ⟨h.stack, fun g generator hg executing => ?_, h.completed⟩
  obtain ⟨points, resumption, hg', same⟩ := h.executing g generator hg executing
  obtain ⟨rfl, rfl⟩ := same (by simp [free])
  exact hg'

theorem Advances.leaveScope {m m' : Machine σ} {lexical varScope : EnvironmentId}
    (h : (m.setScope lexical varScope).Advances m') :
    m.Advances (m'.setScope m.lexical m.varScope) := by
  refine ⟨?_, fun g generator hg executing => ?_, h.completed⟩
  · change m'.stack.setScope m.lexical m.varScope = m.stack
    rw [h.stack]
    exact m.setScope_restores lexical varScope
  · obtain ⟨points, resumption, hg', same⟩ := h.executing g generator hg executing
    refine ⟨points, resumption, hg', fun other => same ?_⟩
    rwa [runningGenerator?_eq, links_setScope, ← runningGenerator?_eq]

variable {records : List ResumePoint × Option Resumption}

theorem Orderly.setRecords (h : m.Orderly) (hr : m.records = some records) :
    (m.setRecords points resumption).Orderly := by
  obtain ⟨g, generator, running, hg, _⟩ := records_eq_some.1 hr
  obtain ⟨generator', hg', executing⟩ := h.running running
  cases hg.symm.trans hg'
  rw [setRecords_eq running]
  refine h.modify hg ?_
  have orderly := h.generators g generator hg
  simpa only [Generator.Orderly, executing] using orderly

theorem Moves.setRecords (hr : m.records = some records) :
    m.Moves (m.setRecords points resumption) := by
  obtain ⟨g, generator, running, hg, _⟩ := records_eq_some.1 hr
  rw [setRecords_eq running]
  exact .modify m hg (.inl rfl)

theorem Advances.setRecords (h : m.Orderly) (hr : m.records = some records) :
    m.Advances (m.setRecords points resumption) := by
  obtain ⟨g, generator, running, hg, _⟩ := records_eq_some.1 hr
  obtain ⟨_, found, executing⟩ := h.running running
  cases hg.symm.trans found
  rw [setRecords_eq running]
  refine ⟨rfl, fun g' generator' hg' _ => ?_, fun g' generator' hg' completed => ?_⟩
  · rw [generator?_modifyGenerator]
    by_cases same : g' = g
    · subst same
      exact ⟨points, resumption, by simp [hg'], fun other => absurd running other⟩
    · exact ⟨_, _, by simp [same, hg'], fun _ => ⟨rfl, rfl⟩⟩
  · have other : g' ≠ g := by
      rintro rfl
      cases hg.symm.trans hg'
      simp [executing] at completed
    rw [generator?_modifyGenerator, if_neg other, hg']

end Machine

end ScriptEngine
