import ScriptEngine.Proofs.Moments
import ScriptEngine.Proofs.Stack
import ScriptEngine.Proofs.Generator.Records

/-!
# The state of a generator and its other parts

`Machine.Sound` says how the state of each generator goes with its other parts. `Machine.Orderly` is
the stronger statement that runs keep: the parked frame belongs to the generator, and the records of
a suspended generator fit its body.
-/

namespace ScriptEngine

variable {σ : Type}

def Machine.links (m : Machine σ) : List (Option GeneratorId) := m.stack.frames.map (·.generator)

def Generator.Sound (generator : Generator) (frames : Nat) : Prop :=
  match generator.state with
  | .suspendedStart =>
    generator.frame.isSome ∧ generator.resumePoints = [] ∧ generator.resumption = none ∧
      frames = 0
  | .suspendedYield =>
    generator.frame.isSome ∧ EndsInYield generator.resumePoints ∧
      generator.resumption = none ∧ frames = 0
  | .executing => generator.frame = none ∧ frames = 1
  | .completed =>
    generator.frame = none ∧ generator.resumePoints = [] ∧ generator.resumption = none ∧
      frames = 0

def Machine.Sound (m : Machine σ) : Prop :=
  ∀ g generator, m.generator? g = some generator → generator.Sound (m.links.count (some g))

inductive GeneratorState.Step : GeneratorState → GeneratorState → Prop where
  | start : Step .suspendedStart .executing
  | abandon : Step .suspendedStart .completed
  | suspend : Step .executing .suspendedYield
  | resume : Step .suspendedYield .executing
  | finish : Step .executing .completed

/-- From one machine to the next, generators stay in their state or take a step, and new ones have
not started. -/
def Machine.Moves (m m' : Machine σ) : Prop :=
  ∀ g, match m.generator? g, m'.generator? g with
    | some before, some after => after.state = before.state ∨ before.state.Step after.state
    | some _, none => False
    | none, some after => after.state = .suspendedStart
    | none, none => True

def Generator.Orderly (generator : Generator) (g : GeneratorId) (frames : Nat) : Prop :=
  match generator.state with
  | .suspendedStart =>
    (∃ frame, generator.frame = some frame ∧ frame.generator = some g) ∧
      generator.resumePoints = [] ∧ generator.resumption = none ∧ frames = 0
  | .suspendedYield =>
    (∃ frame, generator.frame = some frame ∧ frame.generator = some g ∧
      generator.closure.node.body.Fits frame.strict generator.resumePoints) ∧
      generator.resumption = none ∧ frames = 0
  | .executing => generator.frame = none ∧ frames = 1
  | .completed =>
    generator.frame = none ∧ generator.resumePoints = [] ∧ generator.resumption = none ∧
      frames = 0

structure Machine.Orderly (m : Machine σ) : Prop where
  generators : ∀ g generator, m.generator? g = some generator →
    generator.Orderly g (m.links.count (some g))
  linked : ∀ g, some g ∈ m.links → m.generator? g ≠ none
  root : m.links.getLast? = some none

theorem Generator.Orderly.sound {generator : Generator} {g : GeneratorId} {frames : Nat}
    (h : generator.Orderly g frames) : generator.Sound frames := by
  cases state : generator.state with
  | suspendedStart =>
    simp only [Generator.Orderly, Generator.Sound, state] at h ⊢
    obtain ⟨⟨frame, parked, _⟩, rest⟩ := h
    exact ⟨by simp [parked], rest⟩
  | suspendedYield =>
    simp only [Generator.Orderly, Generator.Sound, state] at h ⊢
    obtain ⟨⟨frame, parked, _, fits⟩, rest⟩ := h
    exact ⟨by simp [parked], fits.ends, rest⟩
  | executing | completed =>
    simp only [Generator.Orderly, Generator.Sound, state] at h ⊢
    exact h

theorem Machine.Orderly.sound {m : Machine σ} (h : m.Orderly) : m.Sound :=
  fun g generator hg => (h.generators g generator hg).sound

theorem Machine.Orderly.idle {m : Machine σ} (h : m.Orderly) (alone : m.stack.depth = 1)
    {g : GeneratorId} {generator : Generator} (hg : m.generator? g = some generator) :
    generator.state ≠ .executing := by
  intro executing
  have frames := h.generators g generator hg
  simp only [Generator.Orderly, executing] at frames
  have length : m.links.length = 1 := by simpa [links, CallStack.depth] using alone
  have root := h.root
  obtain ⟨link, only⟩ := List.length_eq_one_iff.1 length
  rw [only] at root frames
  cases root
  simp at frames

/-! ## Generators and links after a change -/

namespace Machine

variable (m : Machine σ)

@[simp] theorem links_setScope (lexical varScope : EnvironmentId) :
    (m.setScope lexical varScope).links = m.links := by
  simp only [links, setScope, CallStack.setScope]
  split
  · rfl
  · rename_i frame rest frames
    simp [frames]

@[simp] theorem links_push (frame : Frame) : (m.push frame).links = frame.generator :: m.links := rfl

@[simp] theorem links_pop : m.pop.links = m.links.tail := by
  simp [links, pop, CallStack.pop]

@[simp] theorem links_modifyGenerator (g : GeneratorId) (change : Generator → Generator) :
    (m.modifyGenerator g change).links = m.links := rfl

@[simp] theorem generator?_push (frame : Frame) (g : GeneratorId) :
    (m.push frame).generator? g = m.generator? g := rfl

@[simp] theorem generator?_pop (g : GeneratorId) : m.pop.generator? g = m.generator? g := rfl

theorem generator?_modifyGenerator (g g' : GeneratorId) (change : Generator → Generator) :
    (m.modifyGenerator g change).generator? g' =
      if g' = g then (m.generator? g').map change else m.generator? g' := by
  obtain ⟨i⟩ := g
  obtain ⟨j⟩ := g'
  simp only [generator?, modifyGenerator, Array.getElem?_modify, GeneratorId.mk.injEq, eq_comm]

theorem runningGenerator?_eq : m.runningGenerator? = m.links.head?.join := by
  simp only [runningGenerator?, CallStack.running?, links, List.head?_map]
  cases m.stack.frames.head? <;> rfl

theorem Moves.of_eq {m m' : Machine σ} (h : m'.generators = m.generators) : m.Moves m' := by
  intro g
  have same : m'.generator? g = m.generator? g := by simp only [generator?, h]
  rw [same]
  cases m.generator? g with
  | none => trivial
  | some generator => exact .inl rfl

theorem Moves.modify {g : GeneratorId} {generator : Generator} {change : Generator → Generator}
    (hg : m.generator? g = some generator)
    (step : (change generator).state = generator.state ∨
      generator.state.Step (change generator).state) :
    m.Moves (m.modifyGenerator g change) := by
  intro g'
  rw [generator?_modifyGenerator]
  by_cases same : g' = g
  · subst same
    simpa [hg] using step
  · simp only [same, if_false]
    cases m.generator? g' with
    | none => trivial
    | some generator => exact .inl rfl

end Machine

/-! ## What keeps a machine orderly -/

namespace Machine.Orderly

variable {m m' : Machine σ} {g : GeneratorId} {generator : Generator}
  {change : Generator → Generator}

theorem congr (h : m.Orderly) (generators : m'.generators = m.generators)
    (links : m'.links = m.links) : m'.Orderly := by
  have same : m'.generator? = m.generator? := by
    funext g
    simp only [generator?, generators]
  exact ⟨links ▸ same ▸ h.generators, links ▸ same ▸ h.linked, links ▸ h.root⟩

theorem executing (h : m.Orderly) (linked : some g ∈ m.links) :
    ∃ generator, m.generator? g = some generator ∧ generator.state = .executing := by
  obtain ⟨generator, hg⟩ := Option.ne_none_iff_exists'.1 (h.linked g linked)
  have frames := h.generators g generator hg
  have positive : 0 < m.links.count (some g) := List.count_pos_iff.2 linked
  refine ⟨generator, hg, ?_⟩
  cases state : generator.state with
  | executing => rfl
  | suspendedStart | completed | suspendedYield =>
    simp only [Generator.Orderly, state] at frames
    omega

theorem running (h : m.Orderly) (hr : m.runningGenerator? = some g) :
    ∃ generator, m.generator? g = some generator ∧ generator.state = .executing := by
  rw [runningGenerator?_eq, Option.join_eq_some_iff] at hr
  exact h.executing (List.mem_of_mem_head? hr)

theorem modify (h : m.Orderly) (hg : m.generator? g = some generator)
    (orderly : (change generator).Orderly g (m.links.count (some g))) :
    (m.modifyGenerator g change).Orderly := by
  refine ⟨fun g' generator' hg' => ?_, fun g' linked => ?_, h.root⟩
  · rw [generator?_modifyGenerator] at hg'
    by_cases same : g' = g
    · subst same
      simp only [if_true, hg, Option.map_some, Option.some.injEq] at hg'
      exact hg' ▸ orderly
    · simp only [same, if_false] at hg'
      exact h.generators g' generator' hg'
  · rw [generator?_modifyGenerator]
    have found := h.linked g' linked
    split <;> simpa using found

theorem push (h : m.Orderly) {frame : Frame} (free : frame.generator = none) :
    (m.push frame).Orderly := by
  refine ⟨fun g generator hg => ?_, fun g linked => ?_, ?_⟩
  · simpa [free] using h.generators g generator hg
  · exact h.linked g (by simpa [free] using linked)
  · simp [List.getLast?_cons, h.root]

theorem pop (h : m'.Orderly) (frames : m'.links = none :: m.links)
    (root : m.links.getLast? = some none) :
    m'.pop.Orderly := by
  have below : m'.pop.links = m.links := by simp [frames]
  refine ⟨fun g generator hg => ?_, fun g linked => ?_, ?_⟩
  · have orderly := h.generators g generator hg
    rw [frames] at orderly
    simpa [below] using orderly
  · refine h.linked g ?_
    rw [below] at linked
    simp [frames, linked]
  · rw [below, root]

theorem enter (h : m.Orderly) (hg : m.generator? g = some generator)
    (idle : generator.state ≠ .executing) (resumption : Option Resumption) {frame : Frame}
    (own : frame.generator = some g) :
    ((m.modifyGenerator g (·.run resumption)).push frame).Orderly := by
  have free : m.links.count (some g) = 0 := by
    refine List.count_eq_zero.2 fun linked => idle ?_
    obtain ⟨generator', hg', executing⟩ := h.executing linked
    cases hg.symm.trans hg'
    exact executing
  refine ⟨fun g' generator' hg' => ?_, fun g' linked => ?_, ?_⟩
  · rw [generator?_push, generator?_modifyGenerator] at hg'
    by_cases same : g' = g
    · subst same
      simp only [if_true, hg, Option.map_some, Option.some.injEq] at hg'
      subst hg'
      simp [Generator.Orderly, Generator.run, own, free]
    · simp only [same, if_false] at hg'
      have other : ¬g = g' := fun e => same e.symm
      simpa [own, other] using h.generators g' generator' hg'
  · rw [generator?_push, generator?_modifyGenerator]
    rw [links_push, List.mem_cons, own] at linked
    split
    · rename_i same
      simp [same, hg]
    · rename_i other
      exact h.linked g' (linked.resolve_left fun e => other (by simpa using e))
  · simp [List.getLast?_cons, h.root]

theorem leave (h : m'.Orderly) (frames : m'.links = some g :: m.links)
    (root : m.links.getLast? = some none)
    (hg : m'.generator? g = some generator) (orderly : (change generator).Orderly g 0) :
    (m'.pop.modifyGenerator g change).Orderly := by
  have below : m'.pop.links = m.links := by simp [frames]
  have free : m.links.count (some g) = 0 := by
    have one := h.generators g generator hg
    obtain ⟨generator', hg', executing⟩ := h.executing (g := g) (by simp [frames])
    cases hg.symm.trans hg'
    simp only [Generator.Orderly, executing, frames, List.count_cons_self] at one
    omega
  refine ⟨fun g' generator' hg' => ?_, fun g' linked => ?_, ?_⟩
  · rw [generator?_modifyGenerator, generator?_pop] at hg'
    rw [links_modifyGenerator, below]
    by_cases same : g' = g
    · subst same
      simp only [if_true, hg, Option.map_some, Option.some.injEq] at hg'
      subst hg'
      rwa [free]
    · simp only [same, if_false] at hg'
      have other : ¬g = g' := fun e => same e.symm
      simpa [frames, other] using h.generators g' generator' hg'
  · rw [links_modifyGenerator, below] at linked
    have found := h.linked g' (by simp [frames, linked])
    rw [generator?_modifyGenerator, generator?_pop]
    split <;> simpa using found
  · rw [links_modifyGenerator, below, root]

end Machine.Orderly

end ScriptEngine
