import ScriptEngine.Proofs.Abort

/-!
# Refused drives

A drive that is refused changes nothing, so that it can be made again later. Any other drive that
fails has ended the generator.
-/

namespace ScriptEngine

open Eval

variable {σ : Type} {m m' : Machine σ} {receiver : Value} {resumption : Resumption}
  {brand : Option String} {fault : Fault}

/-- A drive is refused: the receiver is not a generator that can be driven now, or the body would
run and there is no room for its frame. -/
inductive Machine.Refuses (m : Machine σ) (receiver : Value) (resumption : Resumption)
    (brand : Option String) : Fault → Prop where
  | invalid {fault : Fault} (h : m.drivable receiver brand = .error fault) :
      m.Refuses receiver resumption brand fault
  | tooDeep {g : GeneratorId} {generator : Generator} {resumed : Option Resumption} {frame : Frame}
      (valid : m.drivable receiver brand = .ok (g, generator))
      (runs : generator.resumed? resumption = some resumed) (parked : generator.frame = some frame)
      (full : m.isFull = true) : m.Refuses receiver resumption brand (.stackOverflow m.stack.depth)

theorem Machine.Refuses.eval_drive (h : m.Refuses receiver resumption brand fault) (A : Answers σ)
    (shortcuts : Bool) :
    A.eval (drive shortcuts receiver resumption brand) m = .finished (.error fault) m := by
  obtain ⟨f, drive, body⟩ := drive_eq (σ := σ) shortcuts receiver resumption brand
  rw [drive, eval_bind, eval_askFor]
  cases h with
  | invalid h => rw [h, proceed_error]
  | @tooDeep g generator resumed frame valid runs parked full =>
    have body := body g generator
    simp only [runs] at body
    have known := (Machine.drivable_eq_ok.1 valid).2.1
    rw [valid, proceed_ok, body]
    simp [runGenerator, Effect.apply, known, parked, full]

end ScriptEngine
