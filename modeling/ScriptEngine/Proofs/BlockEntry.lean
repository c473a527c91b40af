import ScriptEngine.Proofs.Spots

/-!
# Entering a block

A block that declares something opens a scope of its own and creates its lexical names there before
its first statement. In a scope that is known this is a computation (`Answers.eval_createLexicals`).
-/

namespace ScriptEngine

variable {σ : Type}

open Eval

def LexicalName.binding (x : LexicalName) : Binding :=
  if x.constant then { mutable := false, strict := true } else { mutable := true }

structure Store.IsBlock (s : Store) (e : EnvironmentId) (b : Bindings) : Prop where
  has : s.Has e
  record : (s.environment e).record = .declarative b

def Bindings.withLexicals (b : Bindings) (names : List LexicalName) : Bindings :=
  names.foldl (fun b x => b.insert x.name x.binding) b

namespace Store.IsBlock

variable {s : Store} {e : EnvironmentId} {b b' : Bindings}

theorem enclose (s : Store) (outer : Option EnvironmentId) :
    (s.enclose (.block outer)).2.IsBlock (s.enclose (.block outer)).1 .empty := by
  refine ⟨(s.has_enclose _ _).2 (.inr rfl), ?_⟩
  rw [environment_enclose, if_pos (by rfl)]
  rfl

end Store.IsBlock

def Machine.setBindings (m : Machine σ) (e : EnvironmentId) (b : Bindings) : Machine σ :=
  { m with store := m.store.apply (.ofRecord e (.declarative b)) }

theorem Store.IsBlock.setBindings {m : Machine σ} {e : EnvironmentId} {b : Bindings}
    (h : m.store.IsBlock e b) (b' : Bindings) : (m.setBindings e b').store.IsBlock e b' := by
  refine ⟨(m.store.has_apply _ e).2 h.has, ?_⟩
  change ((m.store.apply _).environment e).record = _
  rw [m.store.environment_apply _ h.has]
  simp [Change.ofRecord]

namespace Answers

variable (A : Answers σ) {m : Machine σ} {e : EnvironmentId} {b : Bindings}

theorem eval_commit {effect : Effect σ (Except Fault Unit)} (op : Store → Except Fault Change)
    (is : ∀ m, effect.apply m = m.onStore fun s => s.commit (op s)) (m : Machine σ) :
    A.eval (attempt effect) m = match op m.store with
      | .ok change => .finished (.ok ()) { m with store := m.store.apply change }
      | .error fault => .finished (.error fault) m := by
  rw [eval_attempt, is]
  obtain ⟨store⟩ := m
  simp only [Machine.onStore]
  cases op store <;> rfl

theorem eval_createLexical (h : m.store.IsBlock e b) (x : LexicalName) :
    A.eval (createLexical e x.name x.constant) m =
      if b.contains x.name then .finished (.error (.syntaxError (.alreadyDeclared x.name))) m
      else .finished (.ok ()) (m.setBindings e (b.insert x.name x.binding)) := by
  obtain ⟨name, constant⟩ := x
  cases constant with
  | true =>
    refine (A.eval_commit (·.createImmutable e name true) (fun _ => rfl) m).trans ?_
    simp only [Store.createImmutable, Store.changeBindings, h.record, Bindings.createImmutable,
      Bindings.create]
    cases b.contains name <;> rfl
  | false =>
    refine (A.eval_commit (·.createMutable e name false) (fun _ => rfl) m).trans ?_
    simp only [Store.createMutable, Store.changeBindings, h.record, Bindings.createMutable,
      Bindings.create]
    cases b.contains name <;> rfl

theorem eval_initBinding (h : m.store.IsBlock e b) {name : String} {binding : Binding}
    (found : b.find? name = some binding) (value : Value) :
    A.eval (attempt (.initBinding e name value)) m = .finished (.ok ())
      (m.setBindings e (b.insert name { binding with value, initialized := true })) := by
  refine (A.eval_commit (·.initBinding e name value) (fun _ => rfl) m).trans ?_
  simp only [Store.initBinding, Store.changeBindings, h.record, Bindings.initBinding, found]
  rfl

theorem eval_createLexicals (h : m.store.IsBlock e b) (names : List LexicalName) :
    ∃ r m', A.eval (createLexicals e names) m = .finished r m' ∧
      match r with
      | .ok _ => m'.store.IsBlock e (Bindings.withLexicals b names) ∧
          (names.map (·.name)).Nodup ∧ ∀ x ∈ names, b.contains x.name = false
      | .error fault => ∃ name ∈ names.map (·.name),
          fault = .syntaxError (.alreadyDeclared name) ∧
            (b.contains name = true ∨ 2 ≤ (names.map (·.name)).count name) := by
  induction names generalizing m b with
  | nil => exact ⟨.ok (), m, rfl, h, List.nodup_nil, nofun⟩
  | cons x rest ih =>
    rw [createLexicals, eval_bind, A.eval_createLexical h x]
    cases present : b.contains x.name with
    | true => exact ⟨_, m, rfl, x.name, by simp, rfl, .inl present⟩
    | false =>
      obtain ⟨r, m', run, ends⟩ := ih (h.setBindings (b.insert x.name x.binding))
      have contains (name : String) : (b.insert x.name x.binding).contains name =
          (name = x.name || b.contains name) := by
        simp only [Table.contains, Table.find?_insert]
        split <;> simp_all
      refine ⟨r, m', run, ?_⟩
      cases r with
      | ok u =>
        obtain ⟨block, distinct, absent⟩ := ends
        refine ⟨block, ?_, ?_⟩
        · refine List.nodup_cons.2 ⟨fun again => ?_, distinct⟩
          obtain ⟨y, member, same⟩ := List.mem_map.1 again
          simpa [contains, same] using absent y member
        · intro y member
          rcases List.mem_cons.1 member with rfl | member
          · exact present
          · have := absent y member
            simp_all
      | error fault =>
        obtain ⟨name, member, is, twice⟩ := ends
        refine ⟨name, List.mem_cons_of_mem _ member, is, ?_⟩
        have once : 1 ≤ (rest.map (·.name)).count name := List.count_pos_iff.2 member
        rw [contains] at twice
        rw [List.map_cons, List.count_cons]
        grind

end Answers

end ScriptEngine
