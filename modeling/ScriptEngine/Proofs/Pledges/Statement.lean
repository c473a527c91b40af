import ScriptEngine.Proofs.Generator.Statements
import ScriptEngine.Proofs.Pledges.Fulfilling

/-!
# Statements fulfil what they pledge

Each tidy statement initializes the names that it declares, and no others, however often it is
suspended on the way (`Stmt.fulfils`).
-/

namespace ScriptEngine

open Claims

variable {σ α β : Type} {scope : EnvironmentId} {own : Option EnvironmentId}
  {points : List ResumePoint} {n : Dues} {D C : Nat → Claims}

/-! ## Loops -/

def Loop.Asks (W : Watch) : Loop → Prop
  | .whileLoop test body .. | .doWhile body test .. =>
    W.Asks (test.tidy W.once) test.wellFormed ∧ W.Asks (body.tidy W.once false) (body.wellFormed false)
  | .forLoop r => W.Asks (tidyExpr? W.once r.test) (wellFormedExpr? r.test) ∧
    W.Asks (tidyExpr? W.once r.update) (wellFormedExpr? r.update) ∧
    W.Asks (r.body.tidy W.once false) (r.body.wellFormed false)

def Loop.Around (scope : EnvironmentId) : Loop → Prop
  | .forLoop r => r.outer = scope
  | _ => True

def Loop.Grounded (W : Watch) (m : Machine σ) : Loop → Prop
  | .forLoop r => m.Rounds W r.copied r.environment
  | _ => True

def Loop.pledges (strict : Bool) (scope : EnvironmentId) : Loop → Claims
  | .whileLoop _ body _ _ resuming => if resuming then body.pledges strict scope else nowhere
  | .doWhile body .. => body.pledges strict scope
  | .forLoop r => if r.resuming then r.body.pledges strict r.environment else nowhere

def Loop.leaves (strict : Bool) (scope : EnvironmentId) : Loop → Claims
  | .whileLoop _ body .. | .doWhile body .. => inLoop fun _ => body.pledges strict scope
  | .forLoop r => inLoop fun own => r.body.pledges strict (own.getD scope)

open Eval

structure Promises.Fulfilled (W : Watch) (P : Promises σ) (A : Answers σ) : Prop where
  faithful : P.Faithful A
  calls : P.Spare W
  loops : ∀ strict scope l, l.Asks W → l.Around scope →
    Fulfils W P strict scope (l.Grounded W) 0 (l.pledges strict scope) (l.leaves strict scope)
      (fun _ _ => True) (Eval.loop l)

theorem Stmt.pledges_known {strict : Bool} {s : Stmt} {shortcuts : Bool} {completion : Completion}
    (known : s.knownCompletion? shortcuts = some completion) :
    (s.pledges strict scope).Below nowhere := fun points n fits => by
  have some : (s.pledges strict scope points).isSome = true := by rw [fits]; rfl
  have unknown := ((s.cover_pledges strict scope points).1 some).not_known shortcuts
  cases known.symm.trans unknown

theorem Claims.atYield_eq_some {f : Nat → Option Dues} :
    atYield f points = some n ↔ ∃ slot, points = [.yield slot] ∧ f slot = some n := by
  unfold atYield
  split <;> simp_all

theorem Claims.inListFrom_eq_some {first : Nat} :
    inListFrom first C points = some n ↔
      ∃ i last rest, points = .list (first + i) last :: rest ∧ C i rest = some n := by
  constructor
  · intro fits
    unfold inListFrom at fits
    split at fits
    · rename_i index last rest
      split at fits
      · exact ⟨index - first, last, rest, by rw [Nat.add_sub_cancel' ‹_›], fits⟩
      · cases fits
    · cases fits
  · rintro ⟨i, last, rest, rfl, fits⟩
    simpa [inListFrom] using fits

theorem Claims.inSwitchFrom_eq_some {first : Nat} :
    inSwitchFrom first own C points = some n ↔
      ∃ i value rest, points = .switch (first + i) value own :: rest ∧ C i rest = some n := by
  constructor
  · intro fits
    unfold inSwitchFrom at fits
    split at fits
    · rename_i index value own' rest
      split at fits
      · rename_i found
        obtain ⟨later, rfl⟩ := found
        exact ⟨index - first, value, rest, by rw [Nat.add_sub_cancel' later], fits⟩
      · cases fits
    · cases fits
  · rintro ⟨i, value, rest, rfl, fits⟩
    simpa [inSwitchFrom] using fits

theorem Claims.inListFrom_later {first : Nat} (same : ∀ i, D (i + 1) = C i) :
    (inListFrom (first + 1) C).Below (inListFrom first D) := by
  intro points n fits
  obtain ⟨i, last, rest, rfl, fits⟩ := inListFrom_eq_some.1 fits
  exact ⟨n, le_rfl, inListFrom_eq_some.2 ⟨i + 1, last, rest, by rw [Nat.add_right_comm, Nat.add_assoc],
    by rwa [same]⟩⟩

theorem Claims.inSwitchFrom_later {first : Nat} (same : ∀ i, D (i + 1) = C i) :
    (inSwitchFrom (first + 1) own C).Below (inSwitchFrom first own D) := by
  intro points n fits
  obtain ⟨i, value, rest, rfl, fits⟩ := inSwitchFrom_eq_some.1 fits
  exact ⟨n, le_rfl, inSwitchFrom_eq_some.2 ⟨i + 1, value, rest,
    by rw [Nat.add_right_comm, Nat.add_assoc], by rwa [same]⟩⟩

def Claims.first (C : Claims) : Nat → Claims
  | 0 => C
  | _ => nowhere

theorem Claims.inListFrom_first {first : Nat} {C : Claims} {k : Dues} (same : D 0 = C.plus k) :
    ((inListFrom first C.first).plus k).Below (inListFrom first D) := by
  intro points n fits
  obtain ⟨n, listed, rfl⟩ := Option.map_eq_some_iff.1 fits
  obtain ⟨i, last, rest, rfl, found⟩ := inListFrom_eq_some.1 listed
  cases i with
  | zero => exact ⟨_, le_rfl, inListFrom_eq_some.2 ⟨0, last, rest, rfl, by
    rw [same]
    exact Option.map_eq_some_iff.2 ⟨n, found, rfl⟩⟩⟩
  | succ i => cases found

theorem Claims.inSwitchFrom_first {first : Nat} {C : Claims} {k : Dues} (same : D 0 = C.plus k) :
    ((inSwitchFrom first own C.first).plus k).Below (inSwitchFrom first own D) := by
  intro points n fits
  obtain ⟨n, listed, rfl⟩ := Option.map_eq_some_iff.1 fits
  obtain ⟨i, value, rest, rfl, found⟩ := inSwitchFrom_eq_some.1 listed
  cases i with
  | zero => exact ⟨_, le_rfl, inSwitchFrom_eq_some.2 ⟨0, value, rest, rfl, by
    rw [same]
    exact Option.map_eq_some_iff.2 ⟨n, found, rfl⟩⟩⟩
  | succ i => cases found

theorem declaredFrom_before (kind : VariableKind) {first slot : Nat} (ds : List Declarator)
    (before : slot < first) : declaredFrom scope kind first ds slot = none := by
  induction ds generalizing first with
  | nil => rfl
  | cons d rest ih =>
    rw [declaredFrom, if_neg (Nat.ne_of_lt before)]
    exact ih (Nat.lt_succ_of_lt before)

theorem declaredFrom_cons {kind : VariableKind} {first slot : Nat} {d : Declarator}
    {rest : List Declarator} (reached : slot ≤ first)
    (fits : declaredFrom scope kind first (d :: rest) slot = some n) :
    slot = first ∧ d.yields = true ∧
      n = .among scope (kind.lexical [d.name]) + .among scope (kind.lexical (rest.map (·.name))) := by
  rw [declaredFrom] at fits
  by_cases same : slot = first
  · rw [if_pos same] at fits
    by_cases yields : d.yields = true
    · rw [if_pos yields, VariableKind.lexical_cons, Dues.among_append] at fits
      exact ⟨same, yields, (Option.some.inj fits).symm⟩
    · rw [if_neg yields] at fits
      cases fits
  · rw [if_neg same, declaredFrom_before kind rest (by omega)] at fits
    cases fits

theorem declaredFrom_later (kind : VariableKind) (first : Nat) (d : Declarator)
    (ds : List Declarator) : (atYield (declaredFrom scope kind (first + 1) ds)).Below
      (atYield (declaredFrom scope kind first (d :: ds))) := by
  intro points n fits
  obtain ⟨slot, rfl, declared⟩ := atYield_eq_some.1 fits
  refine ⟨n, le_rfl, ?_⟩
  rw [atYield, declaredFrom, if_neg, declared]
  rintro rfl
  rw [declaredFrom_before kind ds (Nat.lt_succ_self slot)] at declared
  cases declared

namespace Eval

variable {W : Watch} {P : Promises σ} [P.Lawful] {A : Answers σ} (kept : P.Fulfilled W A)
  {strict : Bool} {k : Dues} {C E : Claims} {body : Stmt} (labels : List String)

include kept

theorem fulfils_after {x : Eval σ α} (hx : ∀ s, Tame W s x) {f : α → Eval σ β}
    (hf : ∀ v, FulfilsAlways W P strict scope k nowhere E (f v)) :
    FulfilsAlways W P strict scope k nowhere E (x >>= f) :=
  Tame.before kept.calls hx hf

omit kept in
theorem fulfils_done (a : α) (none : C.Below nowhere) :
    FulfilsAlways W P strict scope k C E (pure a) :=
  (fulfils_pure (k := k) (E := E) fun _ _ => trivial).entered none

theorem fulfils_singleYield {operand : Option Expr}
    (asks : W.Asks (tidyExpr? W.once operand) (wellFormedExpr? operand)) (span : Span) :
    FulfilsAlways W P strict scope 0 atSingleYield atSingleYield
      (singleYield operand span : Eval σ Yielded) := by
  have yields (resumed : Option Nat) : FulfilsAlways W P strict scope 0 _ _ _ := fulfils_yieldAt
    kept.calls (fun _ => tame_yieldOperand (σ := σ) asks) 0 span resumed
  refine Fulfils.takePlain (fun points n fits => ?_) (yields none).starts
    fun slot => yields (some slot)
  obtain ⟨slot, rfl, single⟩ := atYield_eq_some.1 fits
  exact ⟨_, slot, [], rfl, rfl, by simpa [Claims.here] using single⟩

theorem fulfils_expressionStatement {e : Expr} (asks : W.Asks (e.tidy W.once) e.wellFormed) :
    FulfilsAlways W P strict scope 0 e.pledges e.pledges (expressionStatement e : Eval σ Completion) := by
  fun_cases expressionStatement e with
  | case1 operand span =>
    simp only [Expr.tidy, Expr.wellFormed] at asks
    refine (fulfils_singleYield kept asks span).andThen fun y => ?_
    cases y <;> exact fulfils_pure fun _ _ => trivial
  | case2 target operand span _ =>
    simp only [Expr.tidy, Expr.wellFormed, Watch.asks_and] at asks
    refine (fulfils_singleYield kept asks.2 span).andThen fun y => ?_
    cases y with
    | value v =>
      exact fulfils_after kept (fun _ => tame_assignTo asks.1 v) fun _ =>
        fulfils_pure fun _ _ => trivial
    | «return» v => exact fulfils_pure fun _ _ => trivial
  | case3 e notYield notAssigned =>
    refine Fulfils.entered (fulfils_after kept (E := e.pledges) (fun _ => Expr.tame asks none)
      fun v => fulfils_pure fun _ _ => trivial) fun points n fits => ?_
    unfold Expr.pledges at fits
    split at fits
    · exact absurd rfl (notYield _ _)
    · exact absurd rfl (notAssigned _ _ _ _)
    · cases fits

theorem fulfils_returnStatement {argument : Option Expr}
    (asks : W.Asks (tidyExpr? W.once argument) (wellFormedExpr? argument)) :
    FulfilsAlways W P strict scope 0 (pledgesReturn argument) (pledgesReturn argument)
      (returnStatement argument : Eval σ Completion) := by
  fun_cases returnStatement argument with
  | case1 => exact fulfils_pure fun _ _ => trivial
  | case2 operand span =>
    simp only [tidyExpr?, wellFormedExpr?, Expr.tidy, Expr.wellFormed] at asks
    refine (fulfils_singleYield kept asks span).andThen fun y => ?_
    cases y <;> exact fulfils_pure fun _ _ => trivial
  | case3 e notYield =>
    refine Fulfils.entered (fulfils_after kept (E := pledgesReturn (some e))
      (fun _ => Expr.tame asks none) fun v => fulfils_pure fun _ _ => trivial) fun points n fits => ?_
    cases e with
    | yield operand span => exact absurd rfl (notYield operand span)
    | _ => cases fits

theorem fulfils_classDeclaration {node : ClassNode}
    (asks : W.Asks (node.tidy W.once) node.wellFormed) :
    FulfilsAlways W P strict scope (.among scope node.name.toList) nowhere E
      (classDeclaration node : Eval σ Completion) := by
  refine fulfils_after kept (fun _ => ClassNode.tame asks none) fun constructor => ?_
  cases node.name with
  | none => exact fulfils_pure fun _ _ => trivial
  | some name =>
    have last : FulfilsAlways W P strict scope (.among scope [name] + 0) nowhere E _ :=
      Honest.before ((honest_initLexical name false constructor).under fun _ known => known.2)
        fun _ => fulfils_pure (a := Completion.empty) fun _ _ => trivial
    rwa [add_zero] at last

def storeYielded (kind : VariableKind) (name : String) (rest : Eval σ Completion) :
    Yielded → Eval σ Completion
  | .return v => pure (.returning v)
  | .value v => do
    storeDeclared kind name (some v)
    rest

theorem fulfils_declarators (kind : VariableKind) (resumed : Option Nat) (first : Nat)
    {ds : List Declarator} (asks : W.Asks (tidyDeclarators W.once ds) (wellFormedDeclarators ds)) :
    FulfilsAlways W P strict scope (.among scope (kind.lexical (ds.map (·.name))))
      (here (resumed.bind (declaredFrom scope kind first ds)))
      (atYield (declaredFrom scope kind first ds))
      (declarators kind true resumed first ds : Eval σ Completion) := by
  induction ds generalizing first with
  | nil =>
    refine fulfils_done _ fun points n fits => ?_
    cases resumed <;> cases (here_eq_some.1 fits).2
  | cons d rest ih =>
    obtain ⟨name, init⟩ := d
    simp only [tidyDeclarators, wellFormedDeclarators, Watch.asks_and] at asks
    have ih := (ih (first + 1) asks.2).left (declaredFrom_later kind first ⟨name, init⟩ rest)
    unfold declarators
    rw [List.map_cons, VariableKind.lexical_cons, Dues.among_append]
    by_cases skip : resumed.any (first < ·)
    · rw [if_pos skip]
      refine ih.mono (fun _ known => known) le_add_self (fun points n fits => ⟨n, le_rfl, ?_⟩)
        (.refl _) fun _ _ known => known
      obtain ⟨slot, rfl⟩ : ∃ slot, resumed = some slot := by
        cases resumed with
        | none => cases skip
        | some slot => exact ⟨slot, rfl⟩
      have later : first < slot := by simpa using skip
      simpa only [Option.bind_some, declaredFrom, if_neg (Nat.ne_of_gt later)] using fits
    · rw [if_neg skip]
      -- the resumed slot, if it is still to come, is this one
      have here' {n : Dues}
          (fits : resumed.bind (declaredFrom scope kind first (⟨name, init⟩ :: rest)) = some n) :
          resumed = some first ∧ Declarator.yields ⟨name, init⟩ = true ∧
            n = .among scope (kind.lexical [name]) + .among scope (kind.lexical (rest.map (·.name))) := by
        obtain ⟨slot, told, declared⟩ := Option.bind_eq_some_iff.1 fits
        obtain ⟨rfl, found⟩ := declaredFrom_cons (by simpa [told] using skip) declared
        exact ⟨told, found⟩
      have store (v : Option Value) : FulfilsAlways W P strict scope
          (.among scope (kind.lexical [name]) + .among scope (kind.lexical (rest.map (·.name))))
          nowhere (atYield (declaredFrom scope kind first (⟨name, init⟩ :: rest))) (do
            storeDeclared kind name v
            declarators kind true resumed (first + 1) rest) :=
        Honest.before ((honest_storeDeclared kept.calls kind name v).under fun _ known => known.2)
          fun _ => ih.starts
      have alone {x : Eval σ Completion} (hx : FulfilsAlways W P strict scope
            (.among scope (kind.lexical [name]) + .among scope (kind.lexical (rest.map (·.name))))
            nowhere (atYield (declaredFrom scope kind first (⟨name, init⟩ :: rest))) x)
          (none : Declarator.yields ⟨name, init⟩ = false) :=
        hx.entered (D := here (resumed.bind (declaredFrom scope kind first (⟨name, init⟩ :: rest))))
          fun points n fits => by
            have yields := (here' (here_eq_some.1 fits).2).2.1
            simp [none] at yields
      split
      · rename_i operand span _
        simp only [tidyExpr?, wellFormedExpr?, Expr.tidy, Expr.wellFormed] at asks
        have yields := Fulfils.bind (fulfils_yieldAt (k := 0)
          kept.calls (fun _ => tame_yieldOperand (σ := σ) asks.1) first span resumed)
          (f := storeYielded kind name (declarators kind true resumed (first + 1) rest))
          (E := atYield (declaredFrom scope kind first (⟨name, some (.yield operand span)⟩ :: rest)))
          (fun y => by
            cases y with
            | value v => exact store (some v)
            | «return» v => exact fulfils_pure fun _ _ => trivial) ?_
        · rw [zero_add] at yields
          refine yields.entered fun points n fits => ?_
          obtain ⟨rfl, fits⟩ := here_eq_some.1 fits
          obtain ⟨here, -, rfl⟩ := here' fits
          exact ⟨_, le_rfl, by simp [Claims.plus, Claims.here, here]⟩
        · intro points n fits
          obtain ⟨n, yielded, rfl⟩ := Option.map_eq_some_iff.1 fits
          obtain ⟨slot, rfl, single⟩ := atYield_eq_some.1 yielded
          obtain ⟨rfl, rfl⟩ : slot = first ∧ 0 = n := by simpa using single
          refine ⟨_, le_rfl, ?_⟩
          rw [atYield, declaredFrom, if_pos rfl, if_pos (by rfl), VariableKind.lexical_cons,
            Dues.among_append, zero_add]
      · rename_i e notYield
        refine alone (fulfils_after kept (fun _ => Expr.tame asks.1 (some name)) fun v =>
          store (some v)) ?_
        unfold Declarator.yields
        split
        · rename_i found
          cases found
          exact absurd rfl (notYield _ _ rfl)
        · rfl
      · exact alone (store none) rfl

theorem fulfils_declare {declaration : Declaration}
    (asks : W.Asks (declaration.tidy W.once) declaration.wellFormed) :
    FulfilsAlways W P strict scope (.among scope (Stmt.declare declaration).names)
      ((Stmt.declare declaration).pledges strict scope)
      ((Stmt.declare declaration).pledges strict scope)
      (declare declaration true : Eval σ Completion) := by
  rw [declaration.tidy_eq, declaration.wellFormed_eq] at asks
  rw [Stmt.names_declare, Stmt.pledges]
  have all (resumed : Option Nat) : FulfilsAlways W P strict scope _ _ _ _ :=
    fulfils_declarators kept declaration.kind resumed 0 asks
  unfold declare
  by_cases any : declaration.declarators.any Declarator.yields
  · simp only [any, Bool.and_self, if_true]
    refine Fulfils.takePlain (fun points n fits => ?_) (all none).starts
      fun slot => all (some slot)
    obtain ⟨slot, rfl, declared⟩ := atYield_eq_some.1 fits
    exact ⟨_, slot, [], rfl, rfl, declared⟩
  · simp only [any, Bool.and_false, Bool.false_eq_true, if_false]
    refine (all none).entered fun points n fits => ?_
    obtain ⟨slot, -, fits⟩ := atYield_eq_some.1 fits
    have yields := (isSome_declaredFrom declaration.kind 0 _ _).1 (Option.isSome_of_eq_some fits)
    exact absurd yields.any any

section

variable {B : EnvironmentId → Claims} {K : EnvironmentId → Dues}

variable (scope) in
omit kept in
theorem fulfils_recordScope {x : Eval σ α}
    (h : ∀ e, FulfilsAlways W P strict e (K e) (B e) (B e) x) (own : Option EnvironmentId) :
    Fulfils W P strict scope (·.Opens W own) (K (own.getD scope)) (B (own.getD scope))
      (inScope scope B) (fun _ _ => True) (recording (.scope own) (withinSome own x)) :=
  fulfils_recording _ (fulfils_withinSome ((h (own.getD scope)).under (fun _ _ => trivial)))
    (.refl _) (fun _ _ known grows _ => known.grows grows) fun _ known => known.grounds

omit kept in
theorem fulfils_takeScope {next : Option (Option EnvironmentId) → Eval σ β}
    (fresh : FulfilsAlways W P strict scope k nowhere E (next none))
    (resumed : ∀ own, Fulfils W P strict scope (·.Opens W own) (K (own.getD scope))
      (B (own.getD scope)) E (fun _ _ => True) (next (some own))) :
    FulfilsAlways W P strict scope k (inScope scope B) E (takeScope >>= next) := by
  refine Fulfils.take (B := fun own => B (own.getD scope))
    (K := fun own => K (own.getD scope)) (fun points n fits => ?_) fresh
    fun point own _ _ read _ => ?_
  · unfold inScope at fits
    split at fits
    · exact ⟨_, _, _, rfl, rfl, fits⟩
    · cases fits
  · cases point <;> cases read
    exact (resumed own).under fun _ known => Machine.opens_of_inner known

theorem fulfils_block {opened : BlockScope}
    (asks : ∀ f ∈ opened.functions, W.Asks (f.tidy W.once) f.wellFormed)
    (apart : W.once = true →
      (opened.lexical.map (·.name) ++ opened.functions.filterMap (·.name)).Nodup)
    {body : Eval σ Completion} (h : ∀ e, FulfilsAlways W P strict e
      (.among e (opened.lexical.map (·.name))) (B e) (B e) body) :
    FulfilsAlways W P strict scope k (inScope scope B) (inScope scope B) (block opened body) := by
  have recorded := fulfils_recordScope scope h
  refine fulfils_takeScope (K := fun e => .among e (opened.lexical.map (·.name))) ?_ recorded
  refine Fulfils.ask fun m _ runs _ => ?_
  rw [runs.lexical]
  refine fulfils_opening (T := fun own m => m.Opens W own) (fun first m tidy known => ?_)
    fun own => (recorded own).starts
  exact honest_openBlock kept.calls asks apart scope first m tidy
    ⟨fun sound => (known.1.2.lexical ▸ (tidy.intact sound).lexical).1, known.2⟩

theorem fulfils_withStatement {object : Eval σ Value} (tame : ∀ s, Tame W s object)
    {body : Eval σ Completion} (h : ∀ e, FulfilsAlways W P strict e 0 (B e) (B e) body) (span : Span) :
    FulfilsAlways W P strict scope k (if strict then nowhere else inScope scope B)
      (if strict then nowhere else inScope scope B) (withStatement object body span) := by
  refine Fulfils.ask fun m hs _ _ => ?_
  rw [hs]
  cases strict with
  | true => exact Tame.fulfils kept.calls fun _ =>
    tame_ofExcept (fine_error trivial)
  | false =>
    have recorded := fulfils_recordScope scope h
    refine fulfils_takeScope (K := fun _ => 0) ?_ recorded
    refine fulfils_after kept tame fun v => fulfils_after kept (fun _ => tame_toObject v) fun o =>
      Fulfils.ask fun m _ runs _ => ?_
    rw [runs.lexical]
    refine (Honest.beforeAll (T := fun e m => m.Opens W (some e)) (honest_perform
      (fun m tidy known => ⟨nofun, fun sound => ⟨trivial, scope, rfl, ?_⟩⟩)
      fun m tidy _ e same sound => ?_) fun e => (recorded (some e)).starts.zero)
    · exact (known.2.lexical ▸ (tidy.intact sound).lexical).1
    · cases same
      exact tidy.inner_enclose _ sound

end

theorem fulfils_branch {test : Eval σ Value} (tame : ∀ s, Tame W s test)
    {consequent : Eval σ Completion} {alternate : Option (Eval σ Completion)} {B : Bool → Claims}
    (hc : FulfilsAlways W P strict scope 0 (B true) (B true) consequent)
    (ha : ∀ x, alternate = some x → FulfilsAlways W P strict scope 0 (B false) (B false) x)
    (noAlternate : alternate = none → B false = nowhere) :
    FulfilsAlways W P strict scope 0 (inBranch B) (inBranch B) (branch test consequent alternate) := by
  have chosen (taken : Bool) : FulfilsAlways W P strict scope 0 (B taken) (inBranch B)
      (takenBranch taken consequent alternate) := by
    have recorded {x : Eval σ Completion}
        (hx : FulfilsAlways W P strict scope 0 (B taken) (B taken) x) :
        FulfilsAlways W P strict scope 0 (B taken) (inBranch B) (recording (.branch taken) x) :=
      fulfils_recordingPlain hx (.refl _) rfl
    cases taken with
    | true => exact recorded hc
    | false => cases alternate with
      | none =>
        rw [noAlternate rfl]
        exact fulfils_pure fun _ _ => trivial
      | some x => exact recorded (ha x rfl)
  refine Fulfils.takePlain (fun points n fits => ?_)
    (fulfils_after kept tame fun v => (chosen v.toBoolean).starts) chosen
  unfold inBranch at fits
  split at fits
  · exact ⟨_, _, _, rfl, rfl, fits⟩
  · cases fits

theorem fulfils_switch {discriminant : Eval σ Value} (tame : ∀ s, Tame W s discriminant)
    {cases : List SwitchCase} (distinct : distinct W.once (cases.flatMap (·.body)) = true)
    (asks : W.Asks (tidyCases W.once cases) (wellFormedCases cases))
    {run : (start : Nat) → (value : Value) → (scope : Option EnvironmentId) → Eval σ Completion}
    {B : EnvironmentId → Nat → Claims}
    (h : ∀ start value own, Fulfils W P strict (own.getD scope) (·.Opens W own)
      (.among (own.getD scope) (namesOf (cases.flatMap (·.body)))) (B (own.getD scope) start)
      (inSwitch scope B) (fun _ _ => True) (run start value own)) :
    FulfilsAlways W P strict scope k (inSwitch scope B) (inSwitch scope B)
      (switch discriminant cases run) := by
  refine Fulfils.take (B := fun a => B (a.2.2.getD scope) a.1)
    (K := fun a => .among (a.2.2.getD scope) (namesOf (cases.flatMap (·.body))))
    (fun points n fits => ?_) (fulfils_after kept tame fun v => Fulfils.ask fun m _ runs _ => ?_)
    fun point a _ _ read _ => ?_
  · unfold inSwitch at fits
    split at fits
    · exact ⟨_, _, _, rfl, rfl, fits⟩
    · cases fits
  · rw [runs.lexical]
    refine fulfils_opening (T := fun own m => m.Opens W own)
      (n := fun own => .among (own.getD scope) (namesOf (cases.flatMap (·.body))))
      (fun first m tidy known => ?_) fun own => fulfils_withinSome ?_
    · exact honest_openBlock kept.calls (asks_declaredFunctions
        ⟨switchScope_tidy asks.1, fun sound => switchScope_wellFormed (asks.2 sound)⟩)
        (distinct_nodup distinct) scope first m tidy
        ⟨fun sound => (known.1.2.lexical ▸ (tidy.intact sound).lexical).1, known.2⟩
    · refine Honest.beforeAll (T := fun _ m => m.Opens W own) ((Tame.keepingAll
        (fun _ => tame_selectCase v asks) kept.calls fun _ _ known honors _ =>
          Machine.Opens.grows known honors.grows).under (fun _ known => known.1)) fun start => ?_
      cases start with
      | none => exact fulfils_pure fun _ _ => trivial
      | some start => exact (h start .undefined own).starts
  · cases point <;> cases read
    exact (fulfils_withinSome (h _ _ _)).under fun _ known => Machine.opens_of_inner known

omit kept in
theorem fulfils_takeLoop {B : Option EnvironmentId → Claims}
    {next : Option (Value × Option EnvironmentId) → Eval σ β}
    (fresh : FulfilsAlways W P strict scope k nowhere E (next none))
    (resumed : ∀ value own, Fulfils W P strict scope
      (fun m => W.sound = true → m.store.Inner (own.getD scope)) 0 (B own) E (fun _ _ => True)
      (next (some (value, own)))) :
    FulfilsAlways W P strict scope k (inLoop B) E (takeLoop >>= next) := by
  refine Fulfils.take (B := fun a => B a.2) (K := fun _ => 0)
    (fun points n fits => ?_) fresh fun point a _ _ read _ => ?_
  · unfold inLoop at fits
    split at fits
    · exact ⟨_, _, _, rfl, rfl, fits⟩
    · cases fits
  · cases point <;> cases read
    exact resumed _ _

theorem fulfils_whileStatement {test : Expr} (ht : W.Asks (test.tidy W.once) test.wellFormed)
    (hb : W.Asks (body.tidy W.once false) (body.wellFormed false)) :
    FulfilsAlways W P strict scope k (inLoop fun _ => body.pledges strict scope)
      (inLoop fun _ => body.pledges strict scope)
      (whileStatement test body labels : Eval σ Completion) := by
  have round (value : Value) (resuming : Bool) := kept.loops strict scope
    (.whileLoop test body labels value resuming) ⟨ht, hb⟩ trivial
  exact fulfils_takeLoop ((round _ false).zero.under fun _ _ => trivial)
    fun value own => (round value true).under fun _ _ => trivial

theorem fulfils_doWhileStatement {test : Expr} (ht : W.Asks (test.tidy W.once) test.wellFormed)
    (hb : W.Asks (body.tidy W.once false) (body.wellFormed false)) :
    FulfilsAlways W P strict scope k (inLoop fun _ => body.pledges strict scope)
      (inLoop fun _ => body.pledges strict scope)
      (doWhileStatement body test labels : Eval σ Completion) := by
  have round (value : Value) := kept.loops strict scope
    (.doWhile body test labels value) ⟨ht, hb⟩ trivial
  exact fulfils_takeLoop ((round _).zero.starts.under fun _ _ => trivial)
    fun value own => (round value).under fun _ _ => trivial

theorem fulfils_forStatement {init : ForInit} {test update : Option Expr}
    (hi : W.Asks (init.tidy W.once) init.wellFormed)
    (ht : W.Asks (tidyExpr? W.once test) (wellFormedExpr? test))
    (hu : W.Asks (tidyExpr? W.once update) (wellFormedExpr? update))
    (hb : W.Asks (body.tidy W.once false) (body.wellFormed false)) :
    FulfilsAlways W P strict scope k (inLoop fun own => body.pledges strict (own.getD scope))
      (inLoop fun own => body.pledges strict (own.getD scope))
      (forStatement init test update body labels : Eval σ Completion) := by
  refine Fulfils.ask fun m _ runs _ => ?_
  rw [runs.lexical]
  have round (value : Value) (resuming : Bool) (environment : EnvironmentId) :=
    kept.loops strict scope
      (.forLoop { test, update, body, copied := copiedNames init, labels, outer := scope, value,
                  resuming, environment }) ⟨ht, hu, hb⟩ rfl
  refine fulfils_takeLoop ?_ fun value own => (round value true (own.getD scope)).under
    fun m inner sound => ⟨Machine.grounds_of_inner (inner sound), fun _ => (inner sound).inner⟩
  refine Honest.beforeAll ((honest_forInit kept.calls hi scope).under fun _ known => known.2)
    fun head => ?_
  refine Honest.beforeAll ((honest_copyBindings head _).under fun _ known => known.1)
    fun environment => ?_
  exact (round .undefined false environment).zero

section

variable {body : Eval σ Completion} {handler : Option (Handler σ)}
  {finalizer : Option (Eval σ Completion)} {B L : Claims} {D : EnvironmentId → Claims}

omit kept in
theorem fulfils_runFinalizer
    (hf : ∀ x, finalizer = some x → FulfilsAlways W P strict scope 0 L L x)
    (noFinalizer : finalizer = none → L = nowhere) (pending : Completion) :
    FulfilsAlways W P strict scope 0 L (inTry scope B D L) (runFinalizer finalizer pending) := by
  cases finalizer with
  | none =>
    rw [noFinalizer rfl]
    exact fulfils_pure fun _ _ => trivial
  | some x =>
    exact (fulfils_recordingPlain (E := inTry scope B D L) (hf x rfl) (.refl _) rfl).andThen
      fun result => fulfils_pure fun _ _ => trivial

omit kept in
theorem fulfils_runHandler {handler : Handler σ}
    (hh : ∀ e, FulfilsAlways W P strict e 0 (D e) (D e) handler.body) (own : Option EnvironmentId) :
    Fulfils W P strict scope (·.Opens W own) 0 (D (own.getD scope)) (inTry scope B D L)
      (fun _ _ => True) (runHandler handler own) :=
  fulfils_recording _ (fulfils_withinSome ((hh (own.getD scope)).under (fun _ _ => trivial))) (.refl _)
    (fun _ _ known grows _ => known.grows grows) fun _ known => known.grounds

variable (hb : FulfilsAlways W P strict scope 0 B B body)
  (hh : ∀ h, handler = some h → ∀ e, FulfilsAlways W P strict e 0 (D e) (D e) h.body)

include hb hh

omit kept in
theorem fulfils_runGuarded :
    FulfilsAlways W P strict scope 0 B (inTry scope B D L) (runGuarded body handler) := by
  refine (fulfils_recordingPlain (E := inTry scope B D L) hb (.refl _) rfl).andThen
    fun completion => ?_
  split
  · rename_i h _
    refine Honest.beforeAll ((honest_openHandler _ _).mono (.refl _)
      (fun _ _ => trivial) fun e m inner => ?_) fun e =>
        (fulfils_runHandler (hh h rfl) (some e)).starts
    rintro _ ⟨⟩
    exact inner
  · exact fulfils_pure fun _ _ => trivial

omit kept in
theorem fulfils_tryStatement (noHandler : handler = none → ∀ e, D e = nowhere)
    (hf : ∀ x, finalizer = some x → FulfilsAlways W P strict scope 0 L L x)
    (noFinalizer : finalizer = none → L = nowhere) :
    FulfilsAlways W P strict scope 0 (inTry scope B D L) (inTry scope B D L)
      (tryStatement body handler finalizer) := by
  have final (pending : Completion) : FulfilsAlways W P strict scope 0 L (inTry scope B D L)
      (runFinalizer finalizer pending) := fulfils_runFinalizer hf noFinalizer pending
  have finally' (pending : Completion) := (final pending).starts
  have guarded : FulfilsAlways W P strict scope 0 B (inTry scope B D L) (do
      runFinalizer finalizer (← runGuarded body handler)) :=
    (fulfils_runGuarded hb hh).andThen finally'
  refine Fulfils.take (B := fun phase rest => inTry scope B D L (.tryCatch phase :: rest)) (K := fun _ => 0) (fun points n fits => ?_)
    guarded.starts fun point phase rest n read fits => ?_
  · unfold inTry at fits
    split at fits
    · exact ⟨_, .block, _, rfl, rfl, fits⟩
    · exact ⟨_, .handler _, _, rfl, rfl, fits⟩
    · exact ⟨_, .finalizer _, _, rfl, rfl, fits⟩
    · cases fits
  · have always {C : Claims} {x : Eval σ Completion}
        (h : FulfilsAlways W P strict scope 0 C (inTry scope B D L) x) {H : Machine σ → Prop} :
        Fulfils W P strict scope H 0 C (inTry scope B D L) (fun _ _ => True) x :=
      h.under fun _ _ => trivial
    cases point <;> cases read
    cases phase with
    | block => exact always guarded
    | finalizer pending => exact always (final pending)
    | handler own => cases handler with
      | none =>
        simp only [inTry, noHandler rfl] at fits
        cases fits
      | some h =>
        exact ((fulfils_runHandler (hh h rfl) own).andThen finally').under fun _ known => Machine.opens_of_inner known

end

theorem fulfils_listed {statement : Eval σ Completion}
    (h : FulfilsAlways W P strict scope k C C statement) (index : Nat) (last : Option Value)
    (span : Span) : FulfilsAlways W P strict scope k C (inListFrom index C.first)
      (listed index last span statement) :=
  Fulfils.checkLimits (fulfils_settle kept.calls
    (fulfils_recordingPlain h (fun rest n fits =>
      ⟨n, le_rfl, inListFrom_eq_some.2 ⟨0, last, rest, rfl, fits⟩⟩) rfl) span)

end Eval

section

variable {W : Watch} {P : Promises σ} {A : Answers σ}

theorem fulfils_alone {strict : Bool} {scope : EnvironmentId} {s : Stmt} {C E : Claims}
    {x : Eval σ Completion} (h : FulfilsAlways W P strict scope (.among scope s.names) C E x)
    (asks : W.Asks (s.tidy W.once false) (s.wellFormed false)) :
    FulfilsAlways W P strict scope 0 C E x := by
  rwa [Stmt.names_of_alone asks.1, Dues.among_nil] at h

theorem namesOf_drop_le {scope : EnvironmentId} (cases : List SwitchCase) (start : Nat) :
    Dues.among scope (namesOf ((cases.drop start).flatMap (·.body))) ≤
      .among scope (namesOf (cases.flatMap (·.body))) := by
  conv_rhs => rw [← List.take_append_drop start cases, List.flatMap_append, namesOf_append,
    Dues.among_append]
  exact le_add_self

variable [P.Lawful] (kept : P.Fulfilled W A) (strict shortcuts : Bool)

theorem fulfils_statements {strict shortcuts : Bool} {scope : EnvironmentId} {body : List Stmt}
    (h : ∀ start last, FulfilsAlways W P strict scope (.among scope (namesOf (body.drop start)))
      (pledgesAt strict scope body start) (inListFrom 0 (pledgesAt strict scope body))
      (evalFrom shortcuts body 0 start last)) :
    FulfilsAlways W P strict scope (.among scope (namesOf body))
      (inList (pledgesAt strict scope body)) (inList (pledgesAt strict scope body))
      (list (evalFrom shortcuts body 0)) := by
  have listed (start : Nat) (last : Option Value) :=
    (h start last).left (E := inList (pledgesAt strict scope body)) fun points n fits => by
      obtain ⟨i, last, rest, rfl, found⟩ := inListFrom_eq_some.1 fits
      rw [Nat.zero_add]
      exact ⟨n, le_rfl, found⟩
  refine Fulfils.takePlain (B := fun a => pledgesAt strict scope body a.1)
    (fun points n fits => ?_) (listed 0 none).starts fun a => listed a.1 a.2
  unfold inList at fits
  split at fits
  · exact ⟨_, _, _, rfl, rfl, fits⟩
  · cases fits

include kept

theorem fulfils_blockOf {strict shortcuts : Bool} {scope : EnvironmentId} {k : Dues} {body : List Stmt}
    (asks : W.Asks (distinct W.once body && tidyList W.once body) (wellFormedList body))
    (h : ∀ scope start last, FulfilsAlways W P strict scope
      (.among scope (namesOf (body.drop start))) (pledgesAt strict scope body start)
      (inListFrom 0 (pledgesAt strict scope body)) (evalFrom shortcuts body 0 start last)) :
    FulfilsAlways W P strict scope k (inScope scope fun own => inList (pledgesAt strict own body))
      (inScope scope fun own => inList (pledgesAt strict own body))
      (Eval.block (blockScope body) (list (evalFrom shortcuts body 0))) := by
  rw [Watch.asks_of_and] at asks
  exact fulfils_block kept (asks_declaredFunctions asks.2) (distinct_nodup asks.1)
    fun e => fulfils_statements (h e)

mutual

theorem Stmt.fulfils (s : Stmt) {listed : Bool} (asks : W.Asks (s.tidy W.once listed) (s.wellFormed listed))
    (scope : EnvironmentId) (labels : List String) :
    FulfilsAlways W P strict scope (.among scope s.names) (s.pledges strict scope)
      (s.pledges strict scope) (s.eval shortcuts labels) := by
  cases s with simp only [Stmt.tidy, Stmt.wellFormed, Watch.asks_and, Stmt.eval, Stmt.pledges] at asks ⊢
  | declare declaration =>
    exact fulfils_declare kept asks.2
  | expression e span =>
    exact (fulfils_expressionStatement kept asks).zero
  | «return» argument span =>
    exact (fulfils_returnStatement kept asks).zero
  | block body span =>
    exact fulfils_blockOf kept asks fun scope => evalFrom_fulfils body (Watch.asks_of_and.1 asks).2 scope 0
  | branch test consequent alternate span =>
    have alone := fulfils_alone (Stmt.fulfils consequent asks.1.2 scope []) asks.1.2
    refine (fulfils_branch kept (fun _ => Expr.tame asks.1.1 none) (B := fun taken =>
      if taken then consequent.pledges strict scope else pledgesOption strict scope alternate)
      alone ?_ ?_).zero
    · intro x hx
      cases alternate with
      | none => cases hx
      | some s =>
        cases hx
        exact fulfils_alone (Stmt.fulfils s asks.2 scope []) asks.2
    · intro none
      cases alternate with
      | none => rfl
      | some s => cases none
  | switch discriminant cases span =>
    obtain ⟨chosen, asks⟩ := asks
    rw [Watch.asks_and_of] at chosen
    refine fulfils_switch kept (fun _ => Expr.tame chosen.1 none) chosen.2 asks
      (B := fun own => pledgesCase strict own cases) fun start value own => ?_
    exact (evalCases_fulfils cases asks (own.getD scope) 0 start value own).mono
      (fun _ known => known) (namesOf_drop_le cases start) (.refl _) (fun points n fits => by
        obtain ⟨i, value, rest, rfl, found⟩ := inSwitchFrom_eq_some.1 fits
        exact ⟨n, le_rfl, by rwa [Nat.zero_add]⟩) fun _ _ known => known
  | forLoop init test update body span =>
    exact fulfils_forStatement kept labels asks.1.1.1 asks.1.1.2 asks.1.2 asks.2
  | whileLoop test body span =>
    exact fulfils_whileStatement kept labels asks.1 asks.2
  | doWhile body test span =>
    exact fulfils_doWhileStatement kept labels asks.1 asks.2
  | tryCatch body handler finalizer span =>
    obtain ⟨⟨guarded, caught⟩, final⟩ := asks
    refine (fulfils_tryStatement (fulfils_blockOf kept guarded fun scope =>
      evalFrom_fulfils body (Watch.asks_of_and.1 guarded).2 scope 0)
      (D := (pledgesHandler strict · handler)) (L := pledgesFinalizer strict scope finalizer)
      ?_ ?_ ?_ ?_).zero
    · intro h hh e
      cases handler with
      | none => cases hh
      | some handler =>
        obtain ⟨parameter, body⟩ := handler
        cases hh
        simp only [tidyHandler, wellFormedHandler] at caught
        exact fulfils_blockOf kept caught fun scope =>
          evalFrom_fulfils body (Watch.asks_of_and.1 caught).2 scope 0
    · intro none e
      cases handler with
      | none => rfl
      | some handler =>
        obtain ⟨parameter, body⟩ := handler
        cases none
    · intro x hx
      cases finalizer with
      | none => cases hx
      | some body =>
        cases hx
        simp only [tidyFinalizer, wellFormedFinalizer] at final
        exact fulfils_blockOf kept final fun scope =>
          evalFrom_fulfils body (Watch.asks_of_and.1 final).2 scope 0
    · intro none
      cases finalizer with
      | none => rfl
      | some body => cases none
  | withObject e body span =>
    exact fulfils_withStatement kept (fun _ => Expr.tame asks.1 none)
      (fun e => fulfils_alone (Stmt.fulfils body asks.2 e []) asks.2) span
  | labelled label body span =>
    exact (Fulfils.andThen (fulfils_alone (Stmt.fulfils body asks scope (labels ++ [label]))
      asks) fun completion => fulfils_pure fun _ _ => trivial).zero
  | classDecl node =>
    rw [Stmt.names_classDecl]
    exact fulfils_classDeclaration kept asks.2
  | throw argument span =>
    exact fulfils_after kept (fun _ => Expr.tame asks none) fun v => fulfils_pure fun _ _ => trivial
  | functionDecl | «break» | «continue» | empty | debugger =>
    exact fulfils_pure fun _ _ => trivial

theorem evalFrom_fulfils (body : List Stmt) (asks : W.Asks (tidyList W.once body) (wellFormedList body))
    (scope : EnvironmentId) (index skip : Nat) (last : Option Value) :
    FulfilsAlways W P strict scope (.among scope (namesOf (body.drop skip)))
      (pledgesAt strict scope body skip) (inListFrom index (pledgesAt strict scope body))
      (evalFrom shortcuts body index skip last) := by
  match body, skip with
  | [], _ =>
    unfold evalFrom
    exact fulfils_pure fun _ _ => trivial
  | s :: rest, skip + 1 =>
    simp only [tidyList, wellFormedList, Watch.asks_and] at asks
    unfold evalFrom
    exact (evalFrom_fulfils rest asks.2 scope (index + 1) skip last).left (inListFrom_later fun _ => rfl)
  | s :: rest, 0 =>
    simp only [tidyList, wellFormedList, Watch.asks_and] at asks
    unfold evalFrom
    have statement : FulfilsAlways W P strict scope (.among scope s.names) (s.pledges strict scope)
        (s.pledges strict scope) (match s.knownCompletion? shortcuts with
          | some completion => pure completion
          | none => s.eval shortcuts []) := by
      cases known : s.knownCompletion? shortcuts with
      | none => exact Stmt.fulfils s asks.1 scope []
      | some completion => exact fulfils_done completion (Stmt.pledges_known known)
    have both := Fulfils.bind (fulfils_listed kept statement index last s.span)
      (f := fun completion => andThen last completion (evalFrom shortcuts rest (index + 1) 0))
      (E := inListFrom index (pledgesAt strict scope (s :: rest)))
      (U := fun _ _ => True) (j := .among scope (namesOf rest)) (fun completion => ?_)
      (inListFrom_first rfl)
    · rwa [← Dues.among_append, ← namesOf_cons] at both
    · unfold andThen
      split
      · exact fulfils_pure fun _ _ => trivial
      · exact (evalFrom_fulfils rest asks.2 scope (index + 1) 0 _).starts.left (inListFrom_later fun _ => rfl)

theorem evalCases_fulfils (cases : List SwitchCase)
    (asks : W.Asks (tidyCases W.once cases) (wellFormedCases cases))
    (scope : EnvironmentId) (index skip : Nat) (value : Value) (own : Option EnvironmentId) :
    Fulfils W P strict scope (·.Opens W own)
      (.among scope (namesOf ((cases.drop skip).flatMap (·.body)))) (pledgesCase strict scope cases skip)
      (inSwitchFrom index own (pledgesCase strict scope cases)) (fun _ _ => True)
      (evalCases shortcuts cases index skip value own) := by
  match cases, skip with
  | [], _ =>
    unfold evalCases
    exact Tame.fulfils kept.calls fun _ => tame_pure _
  | ⟨test, body⟩ :: rest, skip + 1 =>
    simp only [tidyCases, wellFormedCases, Watch.asks_and] at asks
    unfold evalCases
    exact (evalCases_fulfils rest asks.2 scope (index + 1) skip value own).left (inSwitchFrom_later fun _ => rfl)
  | ⟨test, body⟩ :: rest, 0 =>
    simp only [tidyCases, wellFormedCases, Watch.asks_and] at asks
    unfold evalCases
    have clause := Fulfils.keeping (fulfils_statements
      (evalFrom_fulfils body asks.1.2 scope 0)) (K := (·.Opens W own))
      fun _ _ known grows _ => known.grows grows
    have recorded := fulfils_recording (.switch index value own)
      (E := inSwitchFrom index own (inList (pledgesAt strict scope body)).first) clause
      (fun points n fits => ⟨n, le_rfl, inSwitchFrom_eq_some.2 ⟨0, value, points, rfl, fits⟩⟩)
      (fun _ _ known grows _ => ⟨trivial, known.2.grows grows⟩) fun _ known => known.2.grounds
    have both := Fulfils.bind recorded
      (f := fun completion => if completion.isAbrupt then
          pure (completion.updateEmpty (some (completion.value.getD value))).exitBreakable
        else evalCases shortcuts rest (index + 1) 0 (completion.value.getD value) own)
      (E := inSwitchFrom index own (pledgesCase strict scope (⟨test, body⟩ :: rest)))
      (U := fun _ _ => True) (j := .among scope (namesOf (rest.flatMap (·.body))))
      (fun completion => ?_) (inSwitchFrom_first rfl)
    · rw [← Dues.among_append, ← namesOf_append] at both
      exact both.under fun _ known => ⟨trivial, known⟩
    · split
      · exact fulfils_pure fun _ _ => trivial
      · exact ((evalCases_fulfils rest asks.2 scope (index + 1) 0 _ own).starts.left
          (inSwitchFrom_later fun _ => rfl)).under fun _ known => known.2

end

end

end ScriptEngine
