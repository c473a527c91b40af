import ScriptEngine.Proofs.References.ObjectChain

/-!
# Bound functions compose

A function that is bound several times over stands for the one that was bound first, with the `this`
of the first binding and the arguments of all of them in a row (`bound_functions_compose`).
-/

namespace ScriptEngine

open Eval

variable {σ : Type}

structure Layer where
  function : ObjectId
  this : Value
  arguments : List Value

/-- The last of these functions was made from `f` by binding again and again, the first layer first. -/
inductive Heap.Layered (h : Heap) (f : ObjectId) : List Layer → ObjectId → Prop where
  | bare : Layered h f [] f
  | bind {layers : List Layer} {b : ObjectId} {layer : Layer} (before : Layered h f layers b)
      (bound : (h.get layer.function).callable? = some (.bound ⟨b, layer.this, layer.arguments⟩)) :
      Layered h f (layers ++ [layer]) layer.function

namespace Heap

variable {h h' : Heap} {f b : ObjectId} {layers : List Layer}

theorem Extends.callable? (extended : h.Extends h') {o : ObjectId} {callable : Callable}
    (found : (h.get o).callable? = some callable) : (h'.get o).callable? = some callable := by
  have allocated : o.index < h.objects.size := by
    refine Nat.lt_of_not_le fun beyond => ?_
    rw [get_of_size_le beyond] at found
    cases found
  rwa [Object.callable?_eq_some, extended.kind o allocated, ← Object.callable?_eq_some]

theorem Layered.extends (chain : h.Layered f layers b) (extended : h.Extends h') :
    h'.Layered f layers b := by
  induction chain with
  | bare => exact .bare
  | bind _ bound ih => exact .bind ih (extended.callable? bound)

namespace Layered

variable {engine : Engine σ} {m : Machine σ}

theorem call (chain : m.heap.Layered f layers b) (this : Value) (arguments : List Value) :
    engine.total.invoke (.call (.object b) this arguments) m =
      engine.total.invoke (.call (.object f) ((layers.head?.map (·.this)).getD this)
        (layers.flatMap (·.arguments) ++ arguments)) m := by
  induction chain generalizing this arguments with
  | bare => rfl
  | @bind layers b layer _ bound ih =>
    rw [(Forwards.call bound this arguments).invoke, ih, List.flatMap_append,
      List.flatMap_singleton, List.append_assoc]
    cases layers <;> rfl

theorem construct (chain : m.heap.Layered f layers b) (arguments : List Value)
    {newTarget : Option Value} (outside : ∀ l ∈ layers, newTarget ≠ some (.object l.function)) :
    engine.total.invoke (.construct (.object b) arguments newTarget) m =
      engine.total.invoke (.construct (.object f) (layers.flatMap (·.arguments) ++ arguments)
        newTarget) m := by
  induction chain generalizing arguments with
  | bare => rfl
  | @bind layers b layer _ bound ih =>
    rw [(Forwards.construct bound arguments rfl).invoke, List.flatMap_append,
      List.flatMap_singleton, List.append_assoc,
      ← ih _ fun l member => outside l (List.mem_append_left _ member)]
    cases named : newTarget.bind Value.asObject? with
    | none =>
      rw [Option.getD_none, if_pos rfl]
      simp only [engine.total_invoke, Invocation.eval, named]
      rfl
    | some target =>
      -- a target that is given is an object, and not the bound function itself
      obtain ⟨v, rfl, is⟩ := Option.bind_eq_some_iff.1 named
      cases v with
      | object =>
        cases is
        have other : target ≠ layer.function := fun same =>
          outside layer (by simp) (same ▸ rfl)
        rw [Option.getD_some, if_neg other]
      | _ => cases is

theorem isConstructorWithin (chain : h.Layered f layers b) (n : Nat) :
    h.isConstructorWithin (n + layers.length) b = h.isConstructorWithin n f := by
  induction chain with
  | bare => rfl
  | bind _ bound ih =>
    rw [List.length_append, List.length_singleton, ← Nat.add_assoc, Heap.isConstructorWithin, bound]
    exact ih

theorem instanceWithin (chain : h.Layered f layers b) (value : Value) (n : Nat) :
    Eval.instanceWithin h value (n + layers.length) b = Eval.instanceWithin h value n f := by
  induction chain with
  | bare => rfl
  | bind _ bound ih =>
    rw [List.length_append, List.length_singleton, ← Nat.add_assoc]
    simp only [Eval.instanceWithin, bound]
    exact ih

end Layered

end Heap

end ScriptEngine
