import ScriptEngine.Proofs.Operation
import ScriptEngine.Proofs.Scopes

/-!
# What data refers to

Objects, scopes and generators are referred to by their identities. `links` lists the references in
a piece of data, and `Linked V` says that all of them are among the `V`.
-/

namespace ScriptEngine

variable {α β : Type}

inductive Link where
  | object (o : ObjectId)
  | environment (e : EnvironmentId)
  /-- A reference to a scope that must not be the global one. -/
  | inner (e : EnvironmentId)
  | generator (g : GeneratorId)
deriving DecidableEq

class Refers (α : Type) where
  links : α → List Link

open Refers (links)

def Linked (V : Link → Prop) [Refers α] (a : α) : Prop := ∀ link ∈ links a, V link

theorem Linked.mono [Refers α] {V W : Link → Prop} {a : α} (h : Linked V a)
    (weaker : ∀ link, V link → W link) : Linked W a :=
  fun link listed => weaker link (h link listed)

/-! ## Plain data and containers -/

instance : Refers Unit := ⟨fun _ => []⟩
instance : Refers Bool := ⟨fun _ => []⟩
instance : Refers Nat := ⟨fun _ => []⟩
instance : Refers Float := ⟨fun _ => []⟩
instance : Refers String := ⟨fun _ => []⟩
instance : Refers ObjectId := ⟨fun o => [.object o]⟩
instance : Refers EnvironmentId := ⟨fun e => [.environment e]⟩
instance : Refers GeneratorId := ⟨fun g => [.generator g]⟩

instance [Refers α] : Refers (Option α) := ⟨fun a => a.elim [] links⟩
instance [Refers α] : Refers (List α) := ⟨fun l => l.flatMap links⟩
instance [Refers α] [Refers β] : Refers (α × β) := ⟨fun a => links a.1 ++ links a.2⟩
instance [Refers α] : Refers (Table α) := ⟨fun t => t.entries.flatMap fun entry => links entry.2⟩

section

variable {V : Link → Prop}

@[simp, grind .] theorem linked_unit (u : Unit) : Linked V u := nofun
@[simp, grind .] theorem linked_bool (b : Bool) : Linked V b := nofun
@[simp, grind .] theorem linked_nat (n : Nat) : Linked V n := nofun
@[simp, grind .] theorem linked_float (x : Float) : Linked V x := nofun
@[simp, grind .] theorem linked_string (s : String) : Linked V s := nofun

@[simp, grind =] theorem linked_objectId {o : ObjectId} : Linked V o ↔ V (.object o) := by
  simp [Linked, links]

@[simp, grind =] theorem linked_environmentId {e : EnvironmentId} : Linked V e ↔ V (.environment e) := by
  simp [Linked, links]

@[simp, grind =] theorem linked_generatorId {g : GeneratorId} : Linked V g ↔ V (.generator g) := by
  simp [Linked, links]

@[simp, grind .] theorem linked_none [Refers α] : Linked V (none : Option α) := nofun

@[simp, grind =] theorem linked_some [Refers α] {a : α} : Linked V (some a) ↔ Linked V a := Iff.rfl

@[simp, grind .] theorem linked_nil [Refers α] : Linked V ([] : List α) := nofun

@[simp, grind =] theorem linked_cons [Refers α] {a : α} {l : List α} :
    Linked V (a :: l) ↔ Linked V a ∧ Linked V l := by
  simp [Linked, links, or_imp, forall_and]

@[simp, grind =] theorem linked_append [Refers α] {l l' : List α} :
    Linked V (l ++ l') ↔ Linked V l ∧ Linked V l' := by
  simp [Linked, links, or_imp, forall_and]

theorem linked_list_iff [Refers α] {l : List α} : Linked V l ↔ ∀ a ∈ l, Linked V a := by
  induction l with
  | nil => simp
  | cons a l ih => simp [ih]

@[simp, grind =] theorem linked_prod [Refers α] [Refers β] {a : α} {b : β} :
    Linked V (a, b) ↔ Linked V a ∧ Linked V b := by
  simp [Linked, links, or_imp, forall_and]

end

namespace Table

variable [Refers α] {V : Link → Prop} {t : Table α} {key : String} {a : α}

theorem linked_iff : Linked V t ↔ ∀ entry ∈ t.entries, Linked V entry.2 := by
  simp only [Linked, links, List.mem_flatMap]
  exact ⟨fun h entry listed link found => h link ⟨entry, listed, found⟩,
    fun h link ⟨entry, listed, found⟩ => h entry listed link found⟩

@[simp, grind .] theorem linked_empty : Linked V (.empty : Table α) := nofun

theorem linked_find? (h : Linked V t) (found : t.find? key = some a) : Linked V a := by
  rw [linked_iff] at h
  obtain ⟨entries⟩ := t
  simp only [find?] at found
  induction entries with
  | nil => cases found
  | cons entry rest ih =>
    simp only [findIn] at found
    split at found
    · cases found
      exact h entry (List.mem_cons_self ..)
    · exact ih (fun entry listed => h entry (List.mem_cons_of_mem _ listed)) found

@[grind ←]
theorem linked_insert (h : Linked V t) (value : Linked V a) : Linked V (t.insert key a) := by
  rw [linked_iff] at h ⊢
  obtain ⟨entries⟩ := t
  simp only [insert]
  induction entries with
  | nil => simpa [insertIn] using value
  | cons entry rest ih =>
    simp only [List.mem_cons, forall_eq_or_imp] at h
    simp only [insertIn]
    split
    · simpa only [List.mem_cons, forall_eq_or_imp] using ⟨value, h.2⟩
    · simpa only [List.mem_cons, forall_eq_or_imp] using ⟨h.1, ih h.2⟩

theorem linked_erase (h : Linked V t) : Linked V (t.erase key) := by
  rw [linked_iff] at h ⊢
  obtain ⟨entries⟩ := t
  simp only [erase]
  induction entries with
  | nil => simp [eraseIn]
  | cons entry rest ih =>
    simp only [List.mem_cons, forall_eq_or_imp] at h
    simp only [eraseIn]
    split
    · exact h.2
    · simpa only [List.mem_cons, forall_eq_or_imp] using ⟨h.1, ih h.2⟩

end Table

/-! ## Values and completions -/

instance : Refers Value where
  links
    | .object o => [.object o]
    | _ => []

instance : Refers Completion := ⟨fun c => links c.value⟩
instance : Refers Property := ⟨fun p => links p.value⟩

section

variable {V : Link → Prop} {c : Completion}

@[simp, grind .] theorem linked_undefined : Linked V Value.undefined := nofun
@[simp, grind .] theorem linked_null : Linked V Value.null := nofun
@[simp, grind .] theorem linked_boolean (b : Bool) : Linked V (Value.boolean b) := nofun
@[simp, grind .] theorem linked_number (x : Float) : Linked V (Value.number x) := nofun
@[simp, grind .] theorem linked_text (s : String) : Linked V (Value.string s) := nofun

@[simp, grind =] theorem linked_object {o : ObjectId} : Linked V (Value.object o) ↔ V (.object o) := by
  simp [Linked, links]

@[simp, grind .] theorem linked_literal (l : Literal) : Linked V l.value := by
  cases l <;> exact nofun

@[simp, grind =] theorem linked_ofObject? {o : Option ObjectId} :
    Linked V (Value.ofObject? o) ↔ Linked V o := by
  cases o <;> simp [Value.ofObject?]

@[grind ←] theorem linked_asObject? {v : Value} (h : Linked V v) : Linked V v.asObject? := by
  cases v <;> simp_all [Value.asObject?]

@[grind ←] theorem linked_headD {l : List Value} (h : Linked V l) : Linked V (l.headD .undefined) := by
  cases l <;> simp_all

@[grind ←] theorem linked_tail [Refers α] {l : List α} (h : Linked V l) : Linked V l.tail := by
  cases l <;> simp_all

@[grind ←] theorem linked_getD [Refers α] {a : Option α} {b : α} (h : Linked V a) (h' : Linked V b) :
    Linked V (a.getD b) := by
  cases a <;> simp_all

theorem linked_orElse [Refers α] {a b : Option α} (h : Linked V a) (h' : Linked V b) :
    Linked V (a <|> b) := by
  cases a <;> simp_all

@[grind ←] theorem linked_updateEmpty {v : Option Value} (h : Linked V c) (h' : Linked V v) :
    Linked V (c.updateEmpty v) :=
  linked_orElse h h'

@[grind ←] theorem linked_exitBreakable (h : Linked V c) : Linked V c.exitBreakable := by
  unfold Completion.exitBreakable
  split <;> exact h

@[grind ←] theorem linked_exitLabel (h : Linked V c) (label : String) :
    Linked V (c.exitLabel label) := by
  unfold Completion.exitLabel
  split <;> exact h

@[grind ←] theorem linked_valueOrUndefined (h : Linked V c) : Linked V c.valueOrUndefined :=
  linked_getD h linked_undefined

@[simp, grind =] theorem linked_hidden {v : Value} :
    Linked V (Property.hidden v) ↔ Linked V v := Iff.rfl

@[simp, grind =] theorem linked_locked {v : Value} :
    Linked V (Property.locked v) ↔ Linked V v := Iff.rfl

@[simp, grind =] theorem linked_property {p : Property} : Linked V p ↔ Linked V p.value := Iff.rfl

end

/-! ## Records of suspended constructs and faults -/

def innerLinks (e : Option EnvironmentId) : List Link := e.elim [] fun e => [.inner e]

def Inner (V : Link → Prop) (e : Option EnvironmentId) : Prop := ∀ link ∈ innerLinks e, V link

instance : Refers TryPhase where
  links
    | .block => []
    | .handler environment => innerLinks environment
    | .finalizer pending => links pending

instance : Refers ResumePoint where
  links
    | .list _ last => links last
    | .scope environment => innerLinks environment
    | .branch _ | .yield _ => []
    | .loop value environment => links value ++ innerLinks environment
    | .switch _ value environment => links value ++ innerLinks environment
    | .tryCatch phase => links phase

instance : Refers Resumption where
  links
    | .next v | .throw v | .return v => links v

instance : Refers Eval.Yielded where
  links
    | .value v | .return v => links v

instance : Refers Fault where
  links
    | .thrown v _ | .suspended v => links v
    | .internal (.resumePoint point) => links point
    | _ => []

instance [Refers α] : Refers (Except Fault α) where
  links
    | .ok a => links a
    | .error fault => links fault

/-! ## Objects, scopes and frames -/

instance : Refers Closure := ⟨fun c => .environment c.environment :: links c.homeObject⟩

instance : Refers Callable where
  links
    | .script closure | .generator closure => links closure
    | .native _ => []
    | .bound f => .object f.target :: links f.thisArgument ++ links f.arguments

instance : Refers ObjectKind where
  links
    | .ordinary => []
    | .function callable => links callable
    | .generator g => [.generator g]
    | .wrapper primitive => links primitive

instance : Refers Object := ⟨fun o => links o.prototype ++ links o.properties ++ links o.kind⟩
instance : Refers Binding := ⟨fun b => links b.value⟩

instance : Refers ThisBinding where
  links
    | .bound v => links v
    | _ => []

instance : Refers FunctionRecord where
  links r := links r.bindings ++ links r.this ++ .object r.function :: links r.newTarget ++
    links r.homeObject

instance : Refers Record where
  links
    | .declarative b => links b
    | .function r => links r
    | .global r => .object r.object :: links r.bindings
    | .object o _ => [.object o]

instance : Refers Environment := ⟨fun e => links e.outer ++ links e.record⟩
instance : Refers Reference := ⟨fun r => links r.base⟩

instance : Refers Frame where
  links f := (if f.generator.isSome then .inner f.lexical else .environment f.lexical) ::
    .environment f.varScope :: links f.generator

instance : Refers Generator where
  links g := links g.frame ++ .object g.function :: links g.closure ++ links g.resumePoints ++
    links g.resumption

instance : Refers Realm where
  links r := [.object r.objectPrototype, .object r.functionPrototype, .object r.generatorPrototype,
    .object r.global, .environment r.globalEnvironment] ++
      ErrorClass.all.map fun kind => .object (r.errorPrototype kind)

instance : Refers Invocation where
  links
    | .call callee this arguments => links callee ++ links this ++ links arguments
    | .construct callee arguments newTarget => links callee ++ links arguments ++ links newTarget

instance : Refers Loop where
  links
    | .whileLoop _ _ _ value _ | .doWhile _ _ _ value => links value
    | .forLoop r => [.environment r.outer, .environment r.environment] ++ links r.value

instance : Refers Loop.Step where
  links
    | .done completion => links completion
    | .again next => links next

instance : Refers (Operation α) where
  links
    | .call callee this arguments => links callee ++ links this ++ links arguments
    | .construct callee arguments newTarget => links callee ++ links arguments ++ links newTarget
    | .drive receiver resumption _ => links receiver ++ links resumption
    | _ => []

/-! ## What it takes to be linked -/

section

variable {V : Link → Prop} {e : Option EnvironmentId} {v : Value}

@[simp, grind =] theorem linked_ok [Refers α] {a : α} :
    Linked V (.ok a : Except Fault α) ↔ Linked V a := Iff.rfl

@[simp, grind =] theorem linked_error [Refers α] {fault : Fault} :
    Linked V (.error fault : Except Fault α) ↔ Linked V fault := Iff.rfl

theorem linked_map [Refers α] [Refers β] {r : Except Fault α} {f : α → β} (h : Linked V r)
    (keeps : ∀ a, Linked V a → Linked V (f a)) : Linked V (r.map f) := by
  cases r with
  | ok a => exact keeps a h
  | error fault => exact h

@[simp, grind =] theorem linked_thrown {location : Option Span} :
    Linked V (Fault.thrown v location) ↔ Linked V v := Iff.rfl

@[simp, grind =] theorem linked_suspended : Linked V (Fault.suspended v) ↔ Linked V v :=
  Iff.rfl

@[simp, grind =] theorem linked_resumePoint {point : ResumePoint} :
    Linked V (Fault.internal (.resumePoint point)) ↔ Linked V point := Iff.rfl

@[simp, grind .] theorem linked_syntaxError (issue : SyntaxIssue) (location : Option Span) :
    Linked V (Fault.syntaxError issue location) := nofun

@[simp, grind .] theorem linked_typeError (issue : TypeIssue) (location : Option Span) :
    Linked V (Fault.typeError issue location) := nofun

@[simp, grind .] theorem linked_referenceError (issue : ReferenceIssue) :
    Linked V (Fault.referenceError issue) := nofun

@[simp, grind .] theorem inner_none : Inner V none := nofun

@[simp, grind =] theorem inner_some {e : EnvironmentId} : Inner V (some e) ↔ V (.inner e) := by
  simp [Inner, innerLinks]

@[simp, grind =] theorem linked_scopePoint : Linked V (ResumePoint.scope e) ↔ Inner V e := Iff.rfl

@[simp, grind .] theorem linked_branchPoint (taken : Bool) : Linked V (ResumePoint.branch taken) := nofun

@[simp, grind .] theorem linked_yieldPoint (slot : Nat) : Linked V (ResumePoint.yield slot) := nofun

@[simp, grind =] theorem linked_loopPoint :
    Linked V (ResumePoint.loop v e) ↔ Linked V v ∧ Inner V e := List.forall_mem_append

@[simp, grind =] theorem linked_switchPoint {index : Nat} :
    Linked V (ResumePoint.switch index v e) ↔ Linked V v ∧ Inner V e := List.forall_mem_append

@[simp, grind .] theorem linked_blockPhase : Linked V (ResumePoint.tryCatch .block) := nofun

@[simp, grind =] theorem linked_handlerPhase :
    Linked V (ResumePoint.tryCatch (.handler e)) ↔ Inner V e := Iff.rfl

@[simp, grind =] theorem linked_finalizerPhase {c : Completion} :
    Linked V (ResumePoint.tryCatch (.finalizer c)) ↔ Linked V c := Iff.rfl

@[simp, grind =] theorem linked_next : Linked V (Resumption.next v) ↔ Linked V v := Iff.rfl

@[simp, grind =] theorem linked_throw : Linked V (Resumption.throw v) ↔ Linked V v :=
  Iff.rfl

@[simp, grind =] theorem linked_return : Linked V (Resumption.return v) ↔ Linked V v :=
  Iff.rfl

@[simp, grind =] theorem linked_yieldedValue :
    Linked V (Eval.Yielded.value v) ↔ Linked V v := Iff.rfl

@[simp, grind =] theorem linked_yieldedReturn :
    Linked V (Eval.Yielded.return v) ↔ Linked V v := Iff.rfl

@[simp, grind =] theorem linked_closure {c : Closure} :
    Linked V c ↔ V (.environment c.environment) ∧ Linked V c.homeObject := by
  simp [Linked, links]

@[simp, grind =] theorem linked_bound {f : Bound} :
    Linked V (Callable.bound f) ↔
      V (.object f.target) ∧ Linked V f.thisArgument ∧ Linked V f.arguments := by
  simp [Linked, links, or_imp, forall_and]

@[simp, grind .] theorem linked_ordinary : Linked V ObjectKind.ordinary := nofun

@[simp, grind =] theorem linked_function {c : Callable} :
    Linked V (ObjectKind.function c) ↔ Linked V c := Iff.rfl

@[simp, grind =] theorem linked_generatorKind {g : GeneratorId} :
    Linked V (ObjectKind.generator g) ↔ V (.generator g) := by
  simp [Linked, links]

@[simp, grind =] theorem linked_wrapper : Linked V (ObjectKind.wrapper v) ↔ Linked V v := Iff.rfl

@[simp, grind =] theorem linked_objectRecord {o : Object} :
    Linked V o ↔ Linked V o.prototype ∧ Linked V o.properties ∧ Linked V o.kind := by
  simp [Linked, links, or_imp, forall_and]

@[simp, grind =] theorem linked_binding {b : Binding} : Linked V b ↔ Linked V b.value := Iff.rfl

@[simp, grind =] theorem linked_functionRecord {r : FunctionRecord} :
    Linked V r ↔ Linked V r.bindings ∧ Linked V r.this ∧ V (.object r.function) ∧
      Linked V r.newTarget ∧ Linked V r.homeObject := by
  simp [Linked, links, or_imp, forall_and]

@[simp, grind =] theorem linked_declarative {b : Bindings} :
    Linked V (Record.declarative b) ↔ Linked V b := Iff.rfl

@[simp, grind =] theorem linked_functionScope {r : FunctionRecord} :
    Linked V (Record.function r) ↔ Linked V r := Iff.rfl

@[simp, grind =] theorem linked_global {r : GlobalRecord} :
    Linked V (Record.global r) ↔ V (.object r.object) ∧ Linked V r.bindings := by
  simp [Linked, links]

@[simp, grind =] theorem linked_objectScope {o : ObjectId} {isWith : Bool} :
    Linked V (Record.object o isWith) ↔ V (.object o) := by
  simp [Linked, links]

@[simp, grind =] theorem linked_environment {e : Environment} :
    Linked V e ↔ Linked V e.outer ∧ Linked V e.record := by
  simp [Linked, links, or_imp, forall_and]

@[simp, grind =] theorem linked_reference {r : Reference} : Linked V r ↔ Linked V r.base := Iff.rfl

theorem linked_frame {f : Frame} :
    Linked V f ↔ V (if f.generator.isSome then .inner f.lexical else .environment f.lexical) ∧
      V (.environment f.varScope) ∧ Linked V f.generator := by
  simp [Linked, links]

@[simp, grind =] theorem linked_unlinkedFrame {lexical varScope : EnvironmentId} {strict : Bool}
    {name : Option String} :
    Linked V ({ lexical, varScope, strict, name } : Frame) ↔
      V (.environment lexical) ∧ V (.environment varScope) := by
  simp [linked_frame]

@[simp, grind =] theorem linked_generator {g : Generator} :
    Linked V g ↔ Linked V g.frame ∧ V (.object g.function) ∧ Linked V g.closure ∧
      Linked V g.resumePoints ∧ Linked V g.resumption := by
  simp [Linked, links, or_imp, forall_and, and_assoc]

@[simp, grind =] theorem linked_realm {r : Realm} :
    Linked V r ↔ V (.object r.objectPrototype) ∧ V (.object r.functionPrototype) ∧
      V (.object r.generatorPrototype) ∧ V (.object r.global) ∧
      V (.environment r.globalEnvironment) ∧ ∀ kind, V (.object (r.errorPrototype kind)) := by
  simp only [Linked, links, ErrorClass.all, List.map_cons, List.map_nil, List.cons_append,
    List.nil_append, List.mem_cons, List.not_mem_nil, or_false, forall_eq_or_imp, forall_eq]
  constructor
  · rintro ⟨object, function, generator, global, scope, errors⟩
    refine ⟨object, function, generator, global, scope, fun kind => ?_⟩
    cases kind <;> simp_all
  · rintro ⟨object, function, generator, global, scope, errors⟩
    exact ⟨object, function, generator, global, scope, errors _, errors _, errors _, errors _,
      errors _⟩

@[simp, grind =] theorem linked_call {callee this : Value} {arguments : List Value} :
    Linked V (Invocation.call callee this arguments) ↔
      Linked V callee ∧ Linked V this ∧ Linked V arguments := by
  simp [Linked, links, or_imp, forall_and]

@[simp, grind =] theorem linked_construct {callee : Value} {arguments : List Value}
    {newTarget : Option Value} :
    Linked V (Invocation.construct callee arguments newTarget) ↔
      Linked V callee ∧ Linked V arguments ∧ Linked V newTarget := by
  simp [Linked, links, or_imp, forall_and]

@[simp, grind =] theorem linked_forLoop {r : ForRound} :
    Linked V (Loop.forLoop r) ↔
      V (.environment r.outer) ∧ V (.environment r.environment) ∧ Linked V r.value := by
  simp [Linked, links]

@[simp, grind =] theorem linked_again {l : Loop} : Linked V (Loop.Step.again l) ↔ Linked V l := Iff.rfl

@[simp, grind =] theorem linked_normal {v : Option Value} :
    Linked V (Completion.normal v) ↔ Linked V v := Iff.rfl

@[simp, grind .] theorem linked_empty : Linked V Completion.empty := nofun

@[simp, grind =] theorem linked_returning :
    Linked V (Completion.returning v) ↔ Linked V v := Iff.rfl

@[simp, grind .] theorem linked_breaking (label : Option String) (location : Span) :
    Linked V (Completion.breaking label location) := nofun

@[simp, grind .] theorem linked_continuing (label : Option String) (location : Span) :
    Linked V (Completion.continuing label location) := nofun

end

end ScriptEngine
