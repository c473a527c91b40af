import ScriptEngine.Proofs.Fixed
import ScriptEngine.Realm

/-!
# Boxed primitives

Boxing a primitive makes an object that wraps it. Against a primitive that is no string, the object is
loosely equal exactly when what it wraps is. Against a string the object is compared by its text, but
a boolean or a number that is not boxed is compared as a number.
-/

namespace ScriptEngine

variable {σ : Type}

namespace Heap

variable {h : Heap} {o : ObjectId} {p q : Value}

theorem toNumber_wrapper (wraps : (h.get o).kind = .wrapper p) (primitive : p.asObject? = none) :
    h.toNumber (.object o) = h.toNumber p := by
  rw [toNumber, unwrap, wraps]
  cases p <;> first | rfl | cases primitive

theorem toText_wrapper (wraps : (h.get o).kind = .wrapper p) (primitive : p.asObject? = none) :
    h.toText (.object o) = h.toText p := by
  rw [toText, unwrap, wraps]
  cases p <;> first | rfl | cases primitive

theorem looseEquals_wrapper (wraps : (h.get o).kind = .wrapper p) (primitive : p.asObject? = none)
    (given : p.isNullish = false) (other : q.asObject? = none)
    (alike : (∀ s, q ≠ .string s) ∨ ∃ s, p = .string s) :
    h.looseEquals (.object o) q = h.looseEquals p q ∧
      h.looseEquals q (.object o) = h.looseEquals q p := by
  have number := toNumber_wrapper wraps primitive
  have text := toText_wrapper wraps primitive
  cases q with
  | object => cases other
  | string s =>
    obtain ⟨t, rfl⟩ := alike.resolve_left fun not => not s rfl
    simp only [looseEquals, text]
    exact ⟨rfl, rfl⟩
  | undefined | null => cases p <;> first | exact ⟨rfl, rfl⟩ | cases given
  | boolean b | number x =>
    simp only [looseEquals, number]
    cases p <;> first | exact ⟨rfl, rfl⟩ | cases given

end Heap

open Heap in
/-- A boxed primitive compares with another primitive as it does by itself, except for a number or a
boolean with a string: boxed it is equal to its own text, and by itself to every text that stands for
its number. -/
theorem boxed_looseEquals (engine : Engine σ) (fuel : Nat) (m : Machine σ) {p : Value}
    (primitive : p.asObject? = none) (given : p.isNullish = false) :
    ∃ o m', engine.run fuel (Eval.toObject p) m = .finished (.ok o) m' ∧
      (∀ q, q.asObject? = none → ((∀ s, q ≠ .string s) ∨ ∃ s, p = .string s) →
        m'.heap.looseEquals (.object o) q = m'.heap.looseEquals p q ∧
          m'.heap.looseEquals q (.object o) = m'.heap.looseEquals q p) ∧
      ∀ s, m'.heap.looseEquals (.object o) (.string s) = (m'.heap.toText p == s) ∧
        m'.heap.looseEquals (.string s) (.object o) = (s == m'.heap.toText p) ∧
        ((∀ t, p ≠ .string t) →
          m'.heap.looseEquals p (.string s) = (m'.heap.toNumber p == Number.ofText s) ∧
            m'.heap.looseEquals (.string s) p = (Number.ofText s == m'.heap.toNumber p)) := by
  have made : ∃ o m', engine.run fuel (Eval.toObject p) m = .finished (.ok o) m' ∧
      (m'.heap.get o).kind = .wrapper p := by
    let object : Object := { prototype := some m.realm.objectPrototype, kind := .wrapper p }
    have wraps : ((m.heap.allocate object).2.get (m.heap.allocate object).1).kind = .wrapper p := by
      rw [get_allocate, if_pos (by rfl)]
    cases p with
    | undefined | null => cases given
    | object => cases primitive
    | boolean | number | string => exact ⟨_, _, rfl, wraps⟩
  obtain ⟨o, m', boxed, wraps⟩ := made
  refine ⟨o, m', boxed, fun q other alike => looseEquals_wrapper wraps primitive given other alike,
    fun s => ⟨?_, ?_, fun untextual => ?_⟩⟩
  · simp only [looseEquals, toText_wrapper wraps primitive]
    rfl
  · simp only [looseEquals, toText_wrapper wraps primitive]
    rfl
  · cases p with
    | undefined | null => cases given
    | object => cases primitive
    | string t => exact absurd rfl (untextual t)
    | boolean | number => exact ⟨rfl, rfl⟩

/-- Boxed, `true` is not equal to the text `1`; by itself it is. -/
theorem boxed_looseEquals_true :
    let engine : Engine Unit := {}
    ∃ o m, engine.run 0 (Eval.toObject (.boolean true)) (engine.start {} ()) = .finished (.ok o) m ∧
      m.heap.looseEquals (.object o) (.string "1") = false ∧
      m.heap.looseEquals (.boolean true) (.string "1") = true := by
  intro engine
  obtain ⟨o, m, boxed, -, texts⟩ :=
    boxed_looseEquals engine 0 (engine.start {} ()) (p := .boolean true) rfl rfl
  obtain ⟨compared, -, unboxed⟩ := texts "1"
  have read : ((1.0 : Float) == Number.ofText "1") = true := by decide +kernel
  exact ⟨o, m, boxed, compared, (unboxed nofun).1.trans read⟩

end ScriptEngine
