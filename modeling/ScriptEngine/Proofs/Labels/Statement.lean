import ScriptEngine.Proofs.Discipline
import ScriptEngine.Proofs.Labels.Replaying

/-!
# Jumps stay within

The completion of a well-labelled statement is within what is around the statement, and so are the
completions in the records that it leaves.
-/

namespace ScriptEngine

open Eval

variable {σ : Type} (strict shortcuts : Bool)

namespace Loop

variable (l : Loop) (around : Around)

theorem suits_tracked : l.Suits true strict around = l.Aims strict around := by
  funext points
  rw [Suits, (Stmt.suits_eq strict l.body _ _).1]
  rfl

theorem leaving_tracked : l.Leaving true strict around = InLoop (l.BodyAims strict around) := by
  rw [Leaving, (Stmt.suits_eq strict l.body _ _).1]
  rfl

end Loop

def Discipline.heeding : Discipline σ strict where
  tracks := true
  Judges E F T x := Heeds strict E F T x
  mono h entry exit := h.mono entry exit
  done h := heeds_pure (h rfl)
  plain h := h.heeds
  chain hx hf := heeds_bind hx fun a value => hf a fun _ => value
  ask h := heeds_ask h
  within h scope := heeds_within h scope
  take := heeds_take
  record h outer := heeds_recording h outer
  check h := heeds_checkLimits h
  settles h span := heeds_settle h span
  yields plain slot span resumed := heeds_yieldAt plain slot span resumed
  loops {l around} well := by
    rw [l.suits_tracked, l.leaving_tracked]
    exact fun _ entered => ⟨around, well rfl, entered, fun _ _ ends => ends⟩

theorem heeds_statements (body : List Stmt) {around : Around}
    (well : wellLabelledList around body = true) :
    Heeds strict (InList (aimsAt strict around body)) (InList (aimsAt strict around body))
      (·.Within around) (list (evalFrom shortcuts body 0) : Eval σ Completion) := by
  have judged := (Discipline.heeding (σ := σ) strict).statements
    ((Discipline.heeding strict).statementsFrom shortcuts body around fun _ => well)
  rwa [show (Discipline.heeding (σ := σ) strict).tracks = true from rfl, (suitsAt_eq ..).1] at judged

theorem Loop.heeds_round (l : Loop) {around : Around} (well : l.wellLabelled around = true) :
    Heeds strict (l.Aims strict around) (InLoop (l.BodyAims strict around))
      (Step.Stays around l) (l.round shortcuts : Eval σ Step) := by
  have judged := (Discipline.heeding (σ := σ) strict).round shortcuts l around fun _ => well
  rwa [show (Discipline.heeding (σ := σ) strict).tracks = true from rfl, l.suits_tracked,
    l.leaving_tracked] at judged

end ScriptEngine
