import ScriptEngine.Proofs.Integrity.Tree
import ScriptEngine.Proofs.Generator.Records
import ScriptEngine.Proofs.Spots

/-!
# Tidy trees and what they pledge

In a tidy tree the declarations of lexical names and of functions stand directly in statement lists,
except for those of lexical names in the heads of `for` statements. If it is also asked that names
are declared `once`, then no statement list declares a name twice.
-/

namespace ScriptEngine

def declaredNames (body : List Stmt) : List String :=
  (lexicalNames body).map (·.name) ++ (declaredFunctions body).filterMap (·.name)

def distinct (once : Bool) (body : List Stmt) : Bool := !once || decide (declaredNames body).Nodup

/-! ## Tidy trees -/

mutual

def Expr.tidy (once : Bool) : Expr → Bool
  | .literal .. | .identifier .. | .thisValue _ => true
  | .object properties _ => tidyProperties once properties
  | .function node => node.tidy once
  | .classDef node => node.tidy once
  | .unary _ argument _ => argument.tidy once
  | .binary _ left right _ | .logical _ left right _ => left.tidy once && right.tidy once
  | .conditional test consequent alternate _ =>
    test.tidy once && consequent.tidy once && alternate.tidy once
  | .assign _ target value _ => target.tidy once && value.tidy once
  | .update _ _ target _ => target.tidy once
  | .sequence expressions _ => tidyExprs once expressions
  | .member object key _ => object.tidy once && key.tidy once
  | .call callee arguments _ | .construct callee arguments _ =>
    callee.tidy once && tidyExprs once arguments
  | .superCall arguments _ => tidyExprs once arguments
  | .superMember key _ => key.tidy once
  | .yield argument _ => tidyExpr? once argument

def Key.tidy (once : Bool) : Key → Bool
  | .name _ => true
  | .computed expression => expression.tidy once

def Target.tidy (once : Bool) : Target → Bool
  | .identifier _ => true
  | .member object key => object.tidy once && key.tidy once

def tidyExprs (once : Bool) : List Expr → Bool
  | [] => true
  | e :: rest => e.tidy once && tidyExprs once rest

def tidyExpr? (once : Bool) : Option Expr → Bool
  | none => true
  | some e => e.tidy once

def tidyProperties (once : Bool) : List PropertyNode → Bool
  | [] => true
  | ⟨key, value, _⟩ :: rest => key.tidy once && value.tidy once && tidyProperties once rest

def FunctionNode.tidy (once : Bool) : FunctionNode → Bool
  | ⟨_, parameters, body, _, _, _, _⟩ => tidyParameters once parameters && body.tidy once

def tidyParameters (once : Bool) : List Parameter → Bool
  | [] => true
  | ⟨_, fallback⟩ :: rest => tidyExpr? once fallback && tidyParameters once rest

def Body.tidy (once : Bool) : Body → Bool
  | .block statements => distinct once statements && tidyList once statements
  | .concise expression => expression.tidy once

def ClassNode.tidy (once : Bool) : ClassNode → Bool
  | ⟨_, parent, constructor, methods, _⟩ =>
    tidyExpr? once parent && tidyConstructor once constructor && tidyMethods once methods

def tidyConstructor (once : Bool) : Option FunctionNode → Bool
  | none => true
  | some node => node.tidy once

def tidyMethods (once : Bool) : List MethodNode → Bool
  | [] => true
  | ⟨_, function, _⟩ :: rest => function.tidy once && tidyMethods once rest

def Stmt.tidy (once listed : Bool) : Stmt → Bool
  | .declare declaration => (listed || declaration.kind = .var) && declaration.tidy once
  | .functionDecl node => listed && node.tidy once
  | .classDecl node => listed && node.tidy once
  | .block body _ => distinct once body && tidyList once body
  | .branch test consequent alternate _ =>
    test.tidy once && consequent.tidy once false && tidyStmt? once alternate
  | .switch discriminant cases _ =>
    discriminant.tidy once && distinct once (cases.flatMap (·.body)) && tidyCases once cases
  | .forLoop init test update body _ =>
    init.tidy once && tidyExpr? once test && tidyExpr? once update && body.tidy once false
  | .whileLoop test body _ | .doWhile body test _ => test.tidy once && body.tidy once false
  | .tryCatch block handler finalizer _ =>
    distinct once block && tidyList once block && tidyHandler once handler &&
      tidyFinalizer once finalizer
  | .withObject object body _ => object.tidy once && body.tidy once false
  | .return argument _ => tidyExpr? once argument
  | .throw argument _ => argument.tidy once
  | .expression expression _ => expression.tidy once
  | .labelled _ body _ => body.tidy once false
  | .break .. | .continue .. | .empty _ | .debugger _ => true

def tidyList (once : Bool) : List Stmt → Bool
  | [] => true
  | s :: rest => s.tidy once true && tidyList once rest

def tidyStmt? (once : Bool) : Option Stmt → Bool
  | none => true
  | some s => s.tidy once false

def Declaration.tidy (once : Bool) : Declaration → Bool
  | ⟨_, declarators, _⟩ => tidyDeclarators once declarators

def tidyDeclarators (once : Bool) : List Declarator → Bool
  | [] => true
  | ⟨_, init⟩ :: rest => tidyExpr? once init && tidyDeclarators once rest

def tidyCases (once : Bool) : List SwitchCase → Bool
  | [] => true
  | ⟨test, body⟩ :: rest => tidyExpr? once test && tidyList once body && tidyCases once rest

def ForInit.tidy (once : Bool) : ForInit → Bool
  | .none => true
  | .declaration declaration => declaration.tidy once
  | .expression expression => expression.tidy once

def tidyHandler (once : Bool) : Option CatchClause → Bool
  | none => true
  | some ⟨_, body⟩ => distinct once body && tidyList once body

def tidyFinalizer (once : Bool) : Option (List Stmt) → Bool
  | none => true
  | some body => distinct once body && tidyList once body

end

def Program.tidy (once : Bool) (program : Program) : Bool :=
  distinct once program.body && tidyList once program.body

variable {once : Bool} {body : List Stmt} {f : FunctionNode}

theorem Declaration.tidy_eq (declaration : Declaration) :
    declaration.tidy once = tidyDeclarators once declaration.declarators := by
  obtain ⟨_, _, _⟩ := declaration
  rw [Declaration.tidy]

theorem FunctionNode.tidy_eq (node : FunctionNode) :
    node.tidy once = (tidyParameters once node.parameters && node.body.tidy once) := by
  obtain ⟨_, _, _, _, _, _, _⟩ := node
  rw [FunctionNode.tidy]

theorem tidyList_eq (body : List Stmt) : tidyList once body = body.all (·.tidy once true) := by
  induction body with
  | nil => rfl
  | cons s rest ih => rw [tidyList, List.all_cons, ih]

theorem declaredFunctions_tidy (h : tidyList once body = true)
    (declared : f ∈ declaredFunctions body) : f.tidy once = true := by
  rw [tidyList_eq, List.all_eq_true] at h
  exact h _ (mem_of_declared declared)

theorem switchScope_tidy {cases : List SwitchCase} (h : tidyCases once cases = true) :
    tidyList once (cases.flatMap (·.body)) = true := by
  induction cases with
  | nil => rfl
  | cons c rest ih =>
    obtain ⟨test, body⟩ := c
    simp only [tidyCases, Bool.and_eq_true] at h
    have rest := ih h.2
    rw [tidyList_eq] at rest ⊢
    rw [List.flatMap_cons, List.all_append, ← tidyList_eq, h.1.2, rest, Bool.and_self]

theorem FunctionNode.scope_tidy {node : FunctionNode} (h : node.tidy once = true)
    (declared : f ∈ node.scope.functions) : f.tidy once = true := by
  rw [node.tidy_eq, Bool.and_eq_true] at h
  unfold FunctionNode.scope at declared
  split at declared
  · rename_i statements body
    rw [body] at h
    simp only [Body.tidy, Bool.and_eq_true] at h
    exact declaredFunctions_tidy h.2.2 (lastOfEachName_subset declared)
  · cases declared

theorem distinct_nodup (h : distinct once body = true) (declaredOnce : once = true) :
    ((blockScope body).lexical.map (·.name) ++ (blockScope body).functions.filterMap (·.name)).Nodup := by
  have nodup : (declaredNames body).Nodup := by simpa [distinct, declaredOnce] using h
  exact nodup

/-! ## Pledges -/

abbrev Dues := Spot → Nat

def Dues.among (scope : EnvironmentId) (names : List String) : Dues :=
  fun p => if p.1 = scope then names.count p.2 else 0

namespace Dues

variable (scope : EnvironmentId)

@[simp] theorem among_nil : among scope [] = 0 := by
  funext p
  simp [among]

theorem among_append (names rest : List String) :
    among scope (names ++ rest) = among scope names + among scope rest := by
  funext p
  simp only [among, List.count_append, Pi.add_apply]
  split <;> rfl

variable {scope} {p : Spot} {names : List String}

theorem scope_of_among (h : 0 < among scope names p) : p.1 = scope := by
  unfold among at h
  split at h
  · assumption
  · cases h

theorem mem_of_among (h : 0 < among scope names p) : p.2 ∈ names := by
  rw [among, if_pos (scope_of_among h)] at h
  exact List.count_pos_iff.1 h

theorem among_pos {name : String} (h : name ∈ names) : 0 < among scope names (scope, name) := by
  simpa [among] using h

end Dues

def VariableKind.lexical (kind : VariableKind) (names : List String) : List String :=
  if kind = .var then [] else names

theorem VariableKind.lexical_cons (kind : VariableKind) (name : String) (names : List String) :
    kind.lexical (name :: names) = kind.lexical [name] ++ kind.lexical names := by
  unfold VariableKind.lexical
  split <;> rfl

def Stmt.names (s : Stmt) : List String := s.lexicalNames.map (·.name)

def namesOf (body : List Stmt) : List String := (lexicalNames body).map (·.name)

theorem namesOf_cons (s : Stmt) (rest : List Stmt) : namesOf (s :: rest) = s.names ++ namesOf rest := by
  rw [namesOf, lexicalNames, List.flatMap_cons, List.map_append]
  rfl

theorem namesOf_append (body rest : List Stmt) :
    namesOf (body ++ rest) = namesOf body ++ namesOf rest := by
  rw [namesOf, lexicalNames, List.flatMap_append, List.map_append]
  rfl

theorem Stmt.names_of_alone {s : Stmt} (h : s.tidy once false = true) : s.names = [] := by
  unfold Stmt.names Stmt.lexicalNames
  split <;> simp_all [Stmt.tidy]

theorem Stmt.names_declare (declaration : Declaration) :
    (Stmt.declare declaration).names =
      declaration.kind.lexical (declaration.declarators.map (·.name)) := by
  obtain ⟨kind, declarators, span⟩ := declaration
  cases kind <;> simp [Stmt.names, VariableKind.lexical, Stmt.lexicalNames, Function.comp_def]

theorem Stmt.names_classDecl (node : ClassNode) : (Stmt.classDecl node).names = node.name.toList := by
  simp only [Stmt.names, Stmt.lexicalNames]
  cases node.name <;> rfl

abbrev Claims := List ResumePoint → Option Dues

namespace Claims

def nowhere : Claims := fun _ => none

def plus (C : Claims) (n : Dues) : Claims := fun points => (C points).map (· + n)

def Below (C C' : Claims) : Prop := ∀ points n, C points = some n → ∃ n', n' ≤ n ∧ C' points = some n'

theorem Below.refl (C : Claims) : C.Below C := fun _ n fits => ⟨n, le_refl n, fits⟩

theorem nowhere_below (C : Claims) : nowhere.Below C := nofun

@[simp] theorem plus_zero (C : Claims) : C.plus 0 = C := by
  funext points
  simp [plus]

/-! ## Constructs by their parts -/

variable (scope : EnvironmentId)

def inScope (C : EnvironmentId → Claims) : Claims
  | .scope own :: rest => C (own.getD scope) rest
  | _ => none

def inList (C : Nat → Claims) : Claims
  | .list index _ :: rest => C index rest
  | _ => none

def inListFrom (first : Nat) (C : Nat → Claims) : Claims
  | .list index _ :: rest => if first ≤ index then C (index - first) rest else none
  | _ => none

def inBranch (C : Bool → Claims) : Claims
  | .branch taken :: rest => C taken rest
  | _ => none

def inSwitch (C : EnvironmentId → Nat → Claims) : Claims
  | .switch start _ own :: rest => C (own.getD scope) start rest
  | _ => none

def inSwitchFrom (first : Nat) (own : Option EnvironmentId) (C : Nat → Claims) : Claims
  | .switch start _ own' :: rest =>
    if first ≤ start ∧ own' = own then C (start - first) rest else none
  | _ => none

def inLoop (C : Option EnvironmentId → Claims) : Claims
  | .loop _ own :: rest => C own rest
  | _ => none

def inTry (block : Claims) (handler : EnvironmentId → Claims) (finalizer : Claims) : Claims
  | .tryCatch .block :: rest => block rest
  | .tryCatch (.handler own) :: rest => handler (own.getD scope) rest
  | .tryCatch (.finalizer _) :: rest => finalizer rest
  | _ => none

def atYield (C : Nat → Option Dues) : Claims
  | [.yield slot] => C slot
  | _ => none

def atSingleYield : Claims := atYield fun slot => if slot = 0 then some 0 else none

end Claims

open Claims

def declaredFrom (scope : EnvironmentId) (kind : VariableKind) :
    (first : Nat) → List Declarator → (slot : Nat) → Option Dues
  | _, [], _ => none
  | first, d :: rest, slot =>
    if slot = first then
      if d.yields then some (.among scope (kind.lexical (d.name :: rest.map (·.name)))) else none
    else declaredFrom scope kind (first + 1) rest slot

def Expr.pledges : Expr → Claims
  | .yield .. | .assign .plain _ (.yield ..) _ => atSingleYield
  | _ => nowhere

def pledgesReturn : Option Expr → Claims
  | some (.yield ..) => atSingleYield
  | _ => nowhere

mutual

/-- How often a statement that goes on from its records will give a value to each spot. -/
def Stmt.pledges (strict : Bool) (scope : EnvironmentId) : Stmt → Claims
  | .declare declaration => atYield (declaredFrom scope declaration.kind 0 declaration.declarators)
  | .expression e _ => e.pledges
  | .return argument _ => pledgesReturn argument
  | .block body _ => inScope scope fun own => inList (pledgesAt strict own body)
  | .branch _ consequent alternate _ =>
    inBranch fun taken =>
      if taken then consequent.pledges strict scope else pledgesOption strict scope alternate
  | .switch _ cases _ => inSwitch scope fun own => pledgesCase strict own cases
  | .forLoop _ _ _ body _ => inLoop fun own => body.pledges strict (own.getD scope)
  | .whileLoop _ body _ | .doWhile body _ _ => inLoop fun _ => body.pledges strict scope
  | .tryCatch body handler finalizer _ =>
    inTry scope (inScope scope fun own => inList (pledgesAt strict own body))
      (fun own => pledgesHandler strict own handler) (pledgesFinalizer strict scope finalizer)
  | .withObject _ body _ =>
    if strict then nowhere else inScope scope fun own => body.pledges strict own
  | .labelled _ body _ => body.pledges strict scope
  | _ => nowhere

def pledgesAt (strict : Bool) (scope : EnvironmentId) : List Stmt → Nat → Claims
  | [], _ => nowhere
  | s :: rest, 0 => (s.pledges strict scope).plus (.among scope (namesOf rest))
  | _ :: rest, index + 1 => pledgesAt strict scope rest index

def pledgesOption (strict : Bool) (scope : EnvironmentId) : Option Stmt → Claims
  | none => nowhere
  | some s => s.pledges strict scope

def pledgesCase (strict : Bool) (scope : EnvironmentId) : List SwitchCase → Nat → Claims
  | [], _ => nowhere
  | ⟨_, body⟩ :: rest, 0 =>
    (inList (pledgesAt strict scope body)).plus (.among scope (namesOf (rest.flatMap (·.body))))
  | _ :: rest, index + 1 => pledgesCase strict scope rest index

def pledgesHandler (strict : Bool) (scope : EnvironmentId) : Option CatchClause → Claims
  | none => nowhere
  | some ⟨_, body⟩ => inScope scope fun own => inList (pledgesAt strict own body)

def pledgesFinalizer (strict : Bool) (scope : EnvironmentId) : Option (List Stmt) → Claims
  | none => nowhere
  | some body => inScope scope fun own => inList (pledgesAt strict own body)

end

def Body.pledges (strict : Bool) (scope : EnvironmentId) : Body → Claims
  | .block statements => inList (pledgesAt strict scope statements)
  | .concise _ => nowhere

def Body.names : Body → List String
  | .block statements => namesOf statements
  | .concise _ => []

theorem FunctionNode.names_scope (node : FunctionNode) :
    node.scope.lexical.map (·.name) = node.body.names := by
  obtain ⟨_, _, body, _, _, _, _⟩ := node
  cases body <;> rfl

def Body.dues (strict : Bool) (scope : EnvironmentId) (body : Body) : List ResumePoint → Dues
  | [] => .among scope body.names
  | points => (body.pledges strict scope points).getD 0

/-! ## Records that fit -/

section

variable {scope : EnvironmentId} {points : List ResumePoint} {E : List ResumePoint → Prop}

def Claims.Cover (C : Claims) (E : List ResumePoint → Prop) : Prop :=
  ∀ points, (C points).isSome = true ↔ E points

theorem cover_nowhere : nowhere.Cover fun _ => False := by simp [Claims.Cover, nowhere]

theorem cover_inScope {C : EnvironmentId → Claims} (h : ∀ own, (C own).Cover E) :
    (inScope scope C).Cover (InScope E)
  | [] => by simp [inScope, InScope]
  | point :: rest => by cases point <;> simp [inScope, InScope, h _ rest]

theorem cover_inList {C : Nat → Claims} {E : Nat → List ResumePoint → Prop}
    (h : ∀ index, (C index).Cover (E index)) : (inList C).Cover (InList E)
  | [] => by simp [inList, InList]
  | point :: rest => by cases point <;> simp [inList, InList, h _ rest]

theorem cover_inBranch {C : Bool → Claims} {E : Bool → List ResumePoint → Prop}
    (h : ∀ taken, (C taken).Cover (E taken)) : (inBranch C).Cover (InBranch E)
  | [] => by simp [inBranch, InBranch]
  | point :: rest => by cases point <;> simp [inBranch, InBranch, h _ rest]

theorem cover_inSwitch {C : EnvironmentId → Nat → Claims} {E : Nat → List ResumePoint → Prop}
    (h : ∀ own start, (C own start).Cover (E start)) : (inSwitch scope C).Cover (InSwitch E)
  | [] => by simp [inSwitch, InSwitch]
  | point :: rest => by cases point <;> simp [inSwitch, InSwitch, h _ _ rest]

theorem cover_inLoop {C : Option EnvironmentId → Claims} (h : ∀ own, (C own).Cover E) :
    (inLoop C).Cover (InLoop E)
  | [] => by simp [inLoop, InLoop]
  | point :: rest => by cases point <;> simp [inLoop, InLoop, h _ rest]

theorem cover_inTry {B F : Claims} {C : EnvironmentId → Claims} {E₁ E₂ : List ResumePoint → Prop}
    (block : B.Cover E) (handler : ∀ own, (C own).Cover E₁) (finalizer : F.Cover E₂) :
    (inTry scope B C F).Cover (InTry E E₁ E₂)
  | [] => by simp [inTry, InTry]
  | point :: rest => by
    cases point with
    | tryCatch phase =>
      cases phase <;> simp [inTry, InTry, TryPart, block rest, handler _ rest, finalizer rest]
    | _ => simp [inTry, InTry]

theorem cover_atYield {C : Nat → Option Dues} {slots : Nat → Prop}
    (h : ∀ slot, (C slot).isSome = true ↔ slots slot) : (atYield C).Cover (AtYield slots) := by
  intro points
  unfold atYield
  split
  · simp [AtYield, h]
  · rename_i other
    refine ⟨nofun, fun ⟨slot, same, _⟩ => (other slot same).elim⟩

theorem cover_atSingleYield : atSingleYield.Cover (AtYield (· = 0)) :=
  cover_atYield fun slot => by
    split <;> simp_all

theorem isSome_declaredFrom (kind : VariableKind) (first : Nat) (ds : List Declarator) (slot : Nat) :
    (declaredFrom scope kind first ds slot).isSome = true ↔ YieldsAt first ds slot := by
  induction ds generalizing first with
  | nil => simp [declaredFrom, YieldsAt]
  | cons d rest ih =>
    simp only [declaredFrom, YieldsAt]
    split
    · rename_i here
      have notLater : ¬ YieldsAt (first + 1) rest slot := fun later => by
        have := later.le
        omega
      split <;> simp_all
    · simp_all

mutual

theorem Stmt.cover_pledges (strict : Bool) (scope : EnvironmentId) (s : Stmt) :
    (s.pledges strict scope).Cover (s.Fits strict) := by
  cases s with
  | declare declaration =>
    exact cover_atYield (isSome_declaredFrom declaration.kind 0 declaration.declarators)
  | expression e span =>
    simp only [Stmt.pledges, Stmt.Fits]
    unfold Expr.pledges Expr.FitsStatement
    split
    · exact cover_atSingleYield
    · exact cover_atSingleYield
    · simp [Claims.Cover, nowhere]
  | «return» argument span =>
    simp only [Stmt.pledges, Stmt.Fits]
    unfold pledgesReturn fitsReturn
    split
    · exact cover_atSingleYield
    · simp [Claims.Cover, nowhere]
  | block body span => exact cover_inScope fun own => cover_inList (cover_pledgesAt strict own body)
  | branch test consequent alternate span =>
    refine cover_inBranch fun taken => ?_
    match taken, alternate with
    | true, _ => exact Stmt.cover_pledges strict scope consequent
    | false, none => exact cover_nowhere
    | false, some s => exact Stmt.cover_pledges strict scope s
  | switch discriminant cases span =>
    exact cover_inSwitch fun own => cover_pledgesCase strict own cases
  | forLoop init test update body span =>
    exact cover_inLoop fun own => Stmt.cover_pledges strict (own.getD scope) body
  | whileLoop test body span | doWhile body test span =>
    exact cover_inLoop fun _ => Stmt.cover_pledges strict scope body
  | tryCatch body handler finalizer span =>
    refine cover_inTry (cover_inScope fun own => cover_inList (cover_pledgesAt strict own body))
      (fun own => ?_) ?_
    · match handler with
      | none => exact cover_nowhere
      | some ⟨_, body⟩ => exact cover_inScope fun own => cover_inList (cover_pledgesAt strict own body)
    · match finalizer with
      | none => exact cover_nowhere
      | some body => exact cover_inScope fun own => cover_inList (cover_pledgesAt strict own body)
  | withObject object body span =>
    simp only [Stmt.pledges, Stmt.Fits]
    cases strict with
    | true => simp [Claims.Cover, nowhere]
    | false => simpa using cover_inScope fun own => Stmt.cover_pledges false own body
  | labelled label body span => exact Stmt.cover_pledges strict scope body
  | functionDecl | classDecl | «break» | «continue» | throw | empty | debugger => exact cover_nowhere

theorem cover_pledgesAt (strict : Bool) (scope : EnvironmentId) (body : List Stmt) (index : Nat) :
    (pledgesAt strict scope body index).Cover (fitsAt strict body index) := by
  match body, index with
  | [], _ => exact cover_nowhere
  | s :: _, 0 =>
    simpa [Claims.Cover, pledgesAt, fitsAt, plus] using Stmt.cover_pledges strict scope s
  | _ :: rest, index + 1 => exact cover_pledgesAt strict scope rest index

theorem cover_pledgesCase (strict : Bool) (scope : EnvironmentId) (cases : List SwitchCase)
    (start : Nat) : (pledgesCase strict scope cases start).Cover (fitsCase strict cases start) := by
  match cases, start with
  | [], _ => exact cover_nowhere
  | ⟨_, body⟩ :: _, 0 =>
    simpa [Claims.Cover, pledgesCase, fitsCase, plus] using
      cover_inList (cover_pledgesAt strict scope body)
  | ⟨_, _⟩ :: rest, start + 1 => exact cover_pledgesCase strict scope rest start

end

theorem Body.cover_pledges (strict : Bool) (scope : EnvironmentId) (body : Body) :
    (body.pledges strict scope).Cover (body.Fits strict) := by
  cases body with
  | concise e => exact cover_nowhere
  | block statements => exact cover_inList (cover_pledgesAt strict scope statements)

end

end ScriptEngine
