import ScriptEngine.Fault

/-!
Limits that the host sets on an evaluation. They are checked before every statement of a list.
-/

namespace ScriptEngine

structure StatementBudget where
  limit : Nat
  executed : Nat := 0

namespace StatementBudget

def check (b : StatementBudget) : Except Fault Unit × StatementBudget :=
  let b := { b with executed := b.executed + 1 }
  (if b.limit < b.executed then .error (.limitExceeded (.statements b.limit)) else .ok (), b)

def reset (b : StatementBudget) : StatementBudget := { b with executed := 0 }

end StatementBudget

inductive Limit where
  | statements (budget : StatementBudget)
  | cancellation

namespace Limit

def check (cancelled : Bool) : Limit → Except Fault Unit × Limit
  | .statements budget => (budget.check.1, .statements budget.check.2)
  | .cancellation =>
    (if cancelled then .error (.limitExceeded .cancelled) else .ok (), .cancellation)

def reset : Limit → Limit
  | .statements budget => .statements budget.reset
  | .cancellation => .cancellation

/-- Checks limits in order up to the first that is exceeded; later ones are not counted. -/
def checkAll (cancelled : Bool) : List Limit → Except Fault Unit × List Limit
  | [] => (.ok (), [])
  | limit :: rest =>
    match limit.check cancelled with
    | (.error fault, limit) => (.error fault, limit :: rest)
    | (.ok (), limit) =>
      let (result, rest) := checkAll cancelled rest
      (result, limit :: rest)

end Limit

end ScriptEngine
