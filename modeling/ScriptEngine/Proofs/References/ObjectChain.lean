import ScriptEngine.Proofs.Limits.Termination
import ScriptEngine.Proofs.References.ScopeChain

/-!
# Chains of objects

What an object was made with, its prototype and its kind, stays (`natures_kept`). Both can only
refer to older objects, so that the chains of prototypes and of bound functions end.
-/

namespace ScriptEngine

variable {σ α : Type}

/-! ## Prototypes and kinds stay -/

structure Heap.Preserves (h h' : Heap) : Prop where
  size : h.objects.size ≤ h'.objects.size
  prototype : ∀ o : ObjectId, o.index < h.objects.size → (h'.get o).prototype = (h.get o).prototype
  kind : ∀ o : ObjectId, o.index < h.objects.size → (h'.get o).kind = (h.get o).kind

namespace Heap.Preserves

variable {h h₁ h₂ : Heap}

theorem refl (h : Heap) : h.Preserves h := ⟨Nat.le_refl _, fun _ _ => rfl, fun _ _ => rfl⟩

theorem trans (first : h.Preserves h₁) (second : h₁.Preserves h₂) : h.Preserves h₂ := by
  refine ⟨Nat.le_trans first.size second.size, fun o within => ?_, fun o within => ?_⟩
  · exact (second.prototype o (Nat.lt_of_lt_of_le within first.size)).trans (first.prototype o within)
  · exact (second.kind o (Nat.lt_of_lt_of_le within first.size)).trans (first.kind o within)

theorem of_alike (alike : h.Alike h₁) : h.Preserves h₁ :=
  ⟨Nat.le_of_eq alike.size.symm, fun o _ => alike.prototype o, fun o _ => alike.kind o⟩

theorem allocate (h : Heap) (object : Object) : h.Preserves (h.allocate object).2 := by
  refine ⟨(h.extends_allocate object).size, fun o within => ?_, (h.extends_allocate object).kind⟩
  rw [get_allocate, if_neg (Nat.ne_of_lt within)]

end Heap.Preserves

theorem natures_kept : Kept fun m m' : Machine σ => m.heap.Preserves m'.heap where
  refl m := .refl m.heap
  trans := .trans
  effect effect m := by
    cases effect with
    | allocate object => exact .allocate m.heap object
    | _ => exact .of_alike (Effect.alike rfl m)
  scope _ _ h := h
  frame _ h := h

namespace Engine

variable {engine : Engine σ} {m m' : Machine σ}

theorem Meets.look_kept {R : Machine σ → Machine σ → Prop} (kept : Kept R)
    (enters : ∀ (m : Machine σ) lexical varScope, R m (m.setScope lexical varScope))
    (pushes : ∀ (m : Machine σ) frame, R m (m.push frame)) {x : Action σ α}
    (meets : engine.Meets x m (.look m')) : R m m' := by
  have total := kept.total engine
  generalize looked : Moment.look m' = moment at meets
  induction meets with
  | look | call =>
    cases looked
    exact kept.refl _
  | change | round => cases looked
  | read _ ih | inCall _ ih | inRound _ ih => exact ih looked
  | perform _ ih => exact kept.trans (kept.effect _ _) (ih looked)
  | inScope _ ih => exact kept.trans (enters _ _ _) (ih looked)
  | afterScope run _ ih => exact kept.trans (kept.scope _ _ (kept.action total run)) (ih looked)
  | inFrame _ ih => exact kept.trans (pushes _ _) (ih looked)
  | afterFrame run _ ih => exact kept.trans (kept.frame _ (kept.action total run)) (ih looked)
  | afterCall run _ ih => exact kept.trans (total.invoke run) (ih looked)
  | again run _ ih => exact kept.trans (kept.action total run) (ih looked)
  | afterLoop run _ ih => exact kept.trans (total.loop run) (ih looked)

theorem Course.preserves (course : engine.Course m m') : m.heap.Preserves m'.heap := by
  induction course with
  | refl => exact .refl _
  | operate _ _ _ run ih => exact ih.trans (natures_kept.run engine run)
  | perform effect _ _ ih => exact ih.trans (natures_kept.effect effect _)
  | alter _ h ih => exact ih.trans (.of_alike ⟨h.size, h.prototype, h.kind⟩)

theorem Reaches.preserves (reaches : engine.Reaches m m') : m.heap.Preserves m'.heap := by
  obtain ⟨m₀, course, rfl | ⟨_, _, _, meets⟩⟩ := reaches
  · exact course.preserves
  · exact course.preserves.trans
      (meets.look_kept natures_kept (fun _ _ _ => .refl _) fun _ _ => .refl _)

end Engine

namespace Heap

def Lineage (h : Heap) : ObjectId → List ObjectId → Prop := Chain fun o => (h.get o).prototype

variable {h : Heap} {o : ObjectId} {objects : List ObjectId} {n : Nat}

section

variable (lineage : h.Lineage o objects)

include lineage

theorem lookupWithin_lineage (key : String) (within : objects.length ≤ n) :
    h.lookupWithin n o key = objects.findSome? (h.getOwn? · key) := by
  induction lineage generalizing n with
  | @last o ends =>
    obtain ⟨n, rfl⟩ := Nat.exists_eq_add_one_of_ne_zero (Nat.ne_of_gt within)
    rw [lookupWithin, ends, List.findSome?_singleton]
    cases h.getOwn? o key <;> rfl
  | @step o parent objects next rest ih =>
    obtain ⟨n, rfl⟩ := Nat.exists_eq_add_one_of_ne_zero
      (Nat.ne_of_gt (Nat.lt_of_lt_of_le (Nat.succ_pos _) within))
    rw [lookupWithin, next, Option.bind_some, ih (Nat.le_of_succ_le_succ within), List.findSome?_cons]
    cases h.getOwn? o key <;> rfl

theorem inheritsWithin_lineage (target : ObjectId) (within : objects.length ≤ n) :
    h.inheritsWithin n o target = decide (target ∈ objects.tail) := by
  induction lineage generalizing n with
  | last ends =>
    obtain ⟨n, rfl⟩ := Nat.exists_eq_add_one_of_ne_zero (Nat.ne_of_gt within)
    rw [inheritsWithin, ends]
    simp
  | @step o parent objects next rest ih =>
    obtain ⟨n, rfl⟩ := Nat.exists_eq_add_one_of_ne_zero
      (Nat.ne_of_gt (Nat.lt_of_lt_of_le (Nat.succ_pos _) within))
    rw [inheritsWithin, next]
    dsimp only
    rw [ih (Nat.le_of_succ_le_succ within), Bool.eq_iff_iff, Bool.or_eq_true, decide_eq_true_iff,
      decide_eq_true_iff, decide_eq_true_iff, List.tail_cons, eq_comm]
    cases rest <;> simp

theorem canWrite_lineage (key : String) (within : objects.length ≤ h.bound) : h.canWrite o key =
      ((objects.findSome? (h.getOwn? · key)).all (·.writable) &&
        (h.hasOwn o key || (h.get o).extensible)) := by
  unfold canWrite hasOwn
  cases lineage with
  | last ends =>
    rw [List.findSome?_singleton, ends]
    cases h.getOwn? o key <;> simp
  | step next rest =>
    rw [List.findSome?_cons, next, Option.bind_some, lookup,
      lookupWithin_lineage rest key (Nat.le_of_succ_le within)]
    cases h.getOwn? o key <;> simp

end

/-! ## Bound functions -/

def target? (h : Heap) (o : ObjectId) : Option ObjectId :=
  match (h.get o).callable? with
  | some (.bound f) => some f.target
  | _ => none

def Targets (h : Heap) : ObjectId → List ObjectId → Prop := Chain h.target?

variable {functions : List ObjectId} {final : ObjectId}

theorem target?_eq_some {target : ObjectId} (found : h.target? o = some target) :
    ∃ f, (h.get o).callable? = some (.bound f) ∧ f.target = target := by
  unfold target? at found
  split at found
  · rename_i f callable
    exact ⟨f, callable, Option.some.inj found⟩
  · cases found

theorem ne_bound_of_target? (ends : h.target? o = none) (f : Bound) :
    (h.get o).callable? ≠ some (.bound f) := by
  intro callable
  rw [target?, callable] at ends
  cases ends

section

variable (targets : h.Targets o functions) (last : functions.getLast? = some final)
  (within : functions.length ≤ n)

include targets last within

theorem walk_targets {walk : Nat → ObjectId → α}
    (passes : ∀ n o f, (h.get o).callable? = some (.bound f) → walk (n + 1) o = walk n f.target)
    (stops : ∀ n o, h.target? o = none → walk (n + 1) o = walk 1 o) : walk n o = walk 1 final := by
  induction targets generalizing n with
  | @last o ends =>
    cases last
    obtain ⟨n, rfl⟩ := Nat.exists_eq_add_one_of_ne_zero (Nat.ne_of_gt within)
    exact stops n o ends
  | @step o target functions next rest ih =>
    obtain ⟨n, rfl⟩ := Nat.exists_eq_add_one_of_ne_zero
      (Nat.ne_of_gt (Nat.lt_of_lt_of_le (Nat.succ_pos _) within))
    obtain ⟨f, callable, rfl⟩ := target?_eq_some next
    rw [passes n o f callable]
    refine ih ?_ (Nat.le_of_succ_le_succ within)
    obtain ⟨b, -, found, -⟩ := rest.exists_last
    rw [List.getLast?_cons, found] at last
    rw [found]
    exact last

theorem isConstructorWithin_targets : h.isConstructorWithin n o = h.isConstructorWithin 1 final := by
  refine walk_targets targets last within (fun n o f callable => ?_) fun n o ends => ?_
  · rw [isConstructorWithin, callable]
  · have free := ne_bound_of_target? ends
    simp only [isConstructorWithin]
    split <;> simp_all

theorem instanceWithin_targets (value : Value) :
    Eval.instanceWithin h value n o = Eval.instanceWithin h value 1 final := by
  refine walk_targets targets last within (fun n o f callable => ?_) fun n o ends => ?_
  · simp only [Eval.instanceWithin, callable]
  · have free := ne_bound_of_target? ends
    simp only [Eval.instanceWithin]
    split <;> simp_all

end

inductive Forwards (h : Heap) : Invocation → Invocation → Prop where
  | call {o : ObjectId} {f : Bound} (bound : (h.get o).callable? = some (.bound f)) (this : Value)
      (arguments : List Value) :
      h.Forwards (.call (.object o) this arguments)
        (.call (.object f.target) f.thisArgument (f.arguments ++ arguments))
  | construct {o constructor : ObjectId} {f : Bound} {newTarget : Option Value}
      (bound : (h.get o).callable? = some (.bound f)) (arguments : List Value)
      (named : (newTarget.bind Value.asObject?).getD o = constructor) :
      h.Forwards (.construct (.object o) arguments newTarget)
        (.construct (.object f.target) (f.arguments ++ arguments)
          (some (.object (if constructor = o then f.target else constructor))))

theorem Forwards.invoke {engine : Engine σ} {m : Machine σ} {invocation next : Invocation}
    (forwards : m.heap.Forwards invocation next) :
    engine.total.invoke invocation m = engine.total.invoke next m := by
  rw [engine.total_invoke invocation]
  cases forwards with
  | call bound this arguments =>
    rw [Invocation.eval, callObject, eval_bind, eval_ask, bound]
    exact eval_call ..
  | construct bound arguments named =>
    rw [Invocation.eval, constructObject, eval_bind, eval_ask, bound, named]
    exact eval_construct ..

structure Descends (h : Heap) (o : ObjectId) (objects : List ObjectId) : Prop where
  lineage : h.Lineage o objects
  nodup : objects.Nodup
  lookup : ∀ n key, h.bound ≤ n → h.lookupWithin n o key = objects.findSome? (h.getOwn? · key)
  canWrite : ∀ key, h.canWrite o key = ((objects.findSome? (h.getOwn? · key)).all (·.writable) &&
    (h.hasOwn o key || (h.get o).extensible))
  inherits : ∀ n target, h.bound ≤ n → h.inheritsWithin n o target = decide (target ∈ objects.tail)

structure ComesTo (h : Heap) (o : ObjectId) (functions : List ObjectId) (final : ObjectId) : Prop where
  targets : h.Targets o functions
  nodup : functions.Nodup
  last : functions.getLast? = some final
  free : ∀ f, (h.get final).callable? ≠ some (.bound f)
  callable : h.isCallable (.object o) = true → h.isCallable (.object final) = true
  isConstructor : ∀ n, h.bound ≤ n → h.isConstructorWithin n o = h.isConstructorWithin 1 final
  instanceOf : ∀ n value, h.bound ≤ n →
    Eval.instanceWithin h value n o = Eval.instanceWithin h value 1 final

theorem length_le_bound {next : ObjectId → Option ObjectId}
    (older : ∀ o o', next o = some o' → o'.index < o.index)
    (there : ∀ o o', next o = some o' → o.index < h.objects.size) (chain : Chain next o objects) :
    objects.length ≤ h.bound := by
  have length := chain.length_le older
  cases chain with
  | last => exact Nat.le_add_left _ _
  | step found => exact Nat.le_trans length (Nat.succ_le_succ (Nat.le_of_lt (there _ _ found)))

namespace Closed

variable {V : Link → Prop} (closed : h.Closed V)

include closed

theorem target_older {target : ObjectId} (found : h.target? o = some target) :
    target.index < o.index ∧ h.isCallable (.object target) = true := by
  obtain ⟨f, callable, rfl⟩ := target?_eq_some found
  exact closed.targets o f (Object.callable?_eq_some.1 callable)

theorem prototypes_wellFounded :
    WellFounded fun parent o : ObjectId => (h.get o).prototype = some parent :=
  Subrelation.wf (closed.prototypes _ _) (measure ObjectId.index).wf

theorem forwards_wellFounded :
    WellFounded fun next invocation : Invocation => h.Forwards invocation next := by
  refine Subrelation.wf (fun {next invocation} forwards => ?_) (measure Invocation.rank).wf
  cases forwards with
  | call bound | construct bound =>
    exact Nat.succ_lt_succ (closed.targets _ _ (Object.callable?_eq_some.1 bound)).1

theorem exists_descends (o : ObjectId) : ∃ objects, h.Descends o objects := by
  obtain ⟨objects, lineage⟩ := Chain.exists_of_rank closed.prototypes o
  have length : objects.length ≤ h.bound := by
    refine length_le_bound closed.prototypes (fun o parent found => ?_) lineage
    refine Nat.lt_of_not_le fun beyond => ?_
    rw [get_of_size_le beyond] at found
    cases found
  exact ⟨objects, lineage, lineage.nodup closed.prototypes,
    fun n key le => lookupWithin_lineage lineage key (Nat.le_trans length le),
    fun key => canWrite_lineage lineage key length,
    fun n target le => inheritsWithin_lineage lineage target (Nat.le_trans length le)⟩

theorem exists_comesTo (o : ObjectId) : ∃ functions final, h.ComesTo o functions final := by
  have older (o target : ObjectId) (found : h.target? o = some target) : target.index < o.index :=
    (closed.target_older found).1
  obtain ⟨functions, targets⟩ := Chain.exists_of_rank older o
  have length : functions.length ≤ h.bound := by
    refine length_le_bound older (fun o target found => ?_) targets
    obtain ⟨f, callable, -⟩ := target?_eq_some found
    exact lt_size_of_isCallable (isCallable_iff.2 ⟨_, Object.callable?_eq_some.1 callable⟩)
  obtain ⟨final, listed, last, ends⟩ := targets.exists_last
  refine ⟨functions, final, targets, targets.nodup older, last, ne_bound_of_target? ends,
    fun callable => ?_, fun n le => isConstructorWithin_targets targets last (Nat.le_trans length le),
    fun n value le => instanceWithin_targets targets last (Nat.le_trans length le) value⟩
  exact targets.forall_mem (fun _ _ _ found => (closed.target_older found).2) callable final listed

theorem exists_forwarded (invocation : Invocation) : ∃ final,
    Relation.ReflTransGen h.Forwards invocation final ∧ ∀ next, ¬ h.Forwards final next := by
  induction invocation using closed.forwards_wellFounded.induction with
  | _ invocation ih =>
    by_cases passed : ∃ next, h.Forwards invocation next
    · obtain ⟨next, forwards⟩ := passed
      obtain ⟨final, reaches, ends⟩ := ih next forwards
      exact ⟨final, .head forwards reaches, ends⟩
    · exact ⟨invocation, .refl, fun next forwards => passed ⟨next, forwards⟩⟩

end Closed

end Heap

/-- In a session the prototype and the kind of an object stay what they were when it was made.
Neither prototypes nor bound functions form a circle: from any object both chains end, that of bound
functions at a function which is not bound. -/
theorem object_links_wellFounded {engine : Engine σ} (host : engine.Discreet) {m : Machine σ}
    (visits : engine.Visits m) :
    (∀ m', engine.Reaches m m' → m.heap.Preserves m'.heap) ∧
    (WellFounded fun parent o : ObjectId => (m.heap.get o).prototype = some parent) ∧
    (∀ o, ∃ objects, m.heap.Descends o objects) ∧
    (∀ o, ∃ functions final, m.heap.ComesTo o functions final) ∧
    ∀ invocation, ∃ final, Relation.ReflTransGen m.heap.Forwards invocation final ∧
      (∀ next, ¬ m.heap.Forwards final next) ∧
      engine.total.invoke invocation m = engine.total.invoke final m := by
  have closed := (visits.closed host).store.heap
  refine ⟨fun m' reaches => reaches.preserves, closed.prototypes_wellFounded, closed.exists_descends,
    closed.exists_comesTo, fun invocation => ?_⟩
  obtain ⟨final, passes, ends⟩ := closed.exists_forwarded invocation
  refine ⟨final, passes, ends, ?_⟩
  clear ends
  induction passes with
  | refl => rfl
  | tail _ forwards ih => exact ih.trans forwards.invoke

/-- The script `(function () {}).bind().bind()` makes a function that passes its calls on to another
bound one. The walk from there still ends at a function that is not bound. -/
theorem object_links_wellFounded_bound :
    let engine : Engine Unit := {}
    let f : Expr := .function
      { name := none, parameters := [], body := .block [], arrow := false, generator := false,
        strict := false, span := {} }
    let bind (f : Expr) : Expr := .call (.member f (.name "bind") {}) [] {}
    let script : Operation Value := .eval
      { body := [.expression (bind (bind f)) {}], strict := false, span := {} }
    ∃ r m, engine.run 4 (script.evaluate engine) (engine.start {} ()) = .finished r m ∧
      m.heap.target? ⟨28⟩ = some ⟨27⟩ ∧ m.heap.target? ⟨27⟩ = some ⟨25⟩ ∧
      ∃ functions final, m.heap.ComesTo ⟨28⟩ functions final := by
  intro engine f bind script
  have made : (match engine.run 4 (script.evaluate engine) (engine.start {} ()) with
      | .finished _ m => decide (m.heap.target? ⟨28⟩ = some ⟨27⟩ ∧ m.heap.target? ⟨27⟩ = some ⟨25⟩)
      | .exhausted => false) = true := by
    decide +kernel
  split at made
  · rename_i r m run
    have visits : engine.Visits m := ⟨{}, (), m, .operate script (.refl _) nofun run, .inl rfl⟩
    obtain ⟨-, -, -, comes, -⟩ := object_links_wellFounded (fun _ listed => by cases listed) visits
    exact ⟨r, m, run, (of_decide_eq_true made).1, (of_decide_eq_true made).2, comes ⟨28⟩⟩
  · cases made

end ScriptEngine
