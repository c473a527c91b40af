import ScriptEngine.Proofs.Pledges.Expression

/-!
# Scopes with names

Who creates the lexical names of a scope may initialize them later (`honest_createLexicals`). All
other names are given a value before code can run that knows of them, or they belong to a scope that
has just been opened.
-/

namespace ScriptEngine

variable {σ α β : Type}

/-! ## Bindings that are absent -/

namespace Store

variable {s : Store} {e : EnvironmentId} {name : String} {p : Spot}

theorem hasBinding_of_binding? {b : Binding} (found : s.binding? p = some b) :
    s.hasBinding p.1 p.2 = true := by
  unfold binding? Record.binding? at found
  unfold hasBinding
  cases record : (s.environment p.1).record <;> rw [record] at found <;>
    simp_all [Record.table?, Table.contains]

theorem hasBinding_eq_isSome {R : Rights} (takes : s.Takes R e) (refused : ¬ R.declare) :
    s.hasBinding e name = (s.binding? (e, name)).isSome := by
  have table := takes.table
  have notGlobal := takes.declare.resolve_left refused
  unfold Environment.globalRecord? at notGlobal
  unfold hasBinding binding? Record.binding?
  cases record : (s.environment e).record <;>
    simp_all [Record.table?, Table.contains]

end Store

def Effect.named? : Effect σ β → Option Spot
  | .createMutable e name _ | .createImmutable e name _ | .assign e name _ _ => some (e, name)
  | _ => none

theorem Effect.binding?_absent {effect : Effect σ β} {m : Machine σ} (settled : m.store.Settled)
    {p : Spot} (opens : effect.enclosed? = none) (other : effect.named? ≠ some p)
    (absent : m.store.binding? p = none) : (effect.apply m).2.store.binding? p = none := by
  have turns := effect.turns settled p
  rw [absent] at turns
  generalize (effect.apply m).2.store.binding? p = b' at turns ⊢
  cases turns with
  | same => rfl
  | enclosed => cases opens
  | created | createdConstant | added => exact absurd rfl other

namespace Machine

variable {W : Watch} {R : Rights} {m m' : Machine σ} {e : EnvironmentId} {name : String}
  {names : List String} {free : String → Prop}

theorem Fresh.effect (h : m.Fresh W e) {effect : Effect σ β} (settled : m.store.Settled)
    (opens : effect.enclosed? = none) (names : effect.named? = none) :
    (effect.apply m).2.Fresh W e :=
  ⟨(effect.grows m).takes h.takes, fun name =>
    Effect.binding?_absent settled opens (by simp [names]) (h.absent name), h.inner⟩

structure Offers (W : Watch) (R : Rights) (e : EnvironmentId) (free : String → Prop)
    (names : List String) (m : Machine σ) : Prop where
  takes : m.store.Takes R e
  nodup : names.Nodup
  awaits : ∀ name ∈ names, m.Awaits W (e, name)
  absent : ∀ name, free name → name ∉ names → m.store.binding? (e, name) = none

theorem Fresh.offers (h : m.Fresh W e) (free : String → Prop) : m.Offers W R e free [] :=
  ⟨h.takes.mono False.elim, .nil, nofun, fun name _ _ => h.absent name⟩

theorem Offers.create (h : m.Offers W R e free names) (tidy : m.Tidy W)
    {effect : Effect σ (Except Fault Unit)} {b : Binding} (fresh : b.initialized = false)
    (firm : b.deletable = false) (allowed : effect.Allowed W ⟨fun _ => False, R.declare⟩ m)
    (opens : effect.enclosed? = none) (named : effect.named? = some (e, name))
    (before : m.store.binding? (e, name) = .none)
    (after : (effect.apply m).2.store.binding? (e, name) = some b) :
    (effect.apply m).2.Offers W R e free (names ++ [name]) := by
  have honors := allowed.honors tidy.settled
  have absent : ¬ m.store.Reserved W.once (e, name) := fun ⟨_, found, _⟩ => by
    cases before.symm.trans found
  refine ⟨honors.grows.takes h.takes, ?_, fun other listed => ?_, fun other isFree unlisted => ?_⟩
  · rw [← List.concat_eq_append, List.nodup_concat]
    exact ⟨fun listed => absent (h.awaits name listed).reserved, h.nodup⟩
  · rcases List.mem_append.1 listed with old | new
    · exact (h.awaits other old).honors honors fun _ => id
    · obtain rfl := List.mem_singleton.1 new
      exact tidy.awaits allowed.generators absent ⟨b, after, firm, fun _ => fresh⟩
  · simp only [List.mem_append, List.mem_singleton, not_or] at unlisted
    refine Effect.binding?_absent tidy.settled opens ?_ (h.absent other isFree unlisted.1)
    rw [named]
    exact fun same => unlisted.2 (congrArg Prod.snd (Option.some.inj same)).symm

theorem Offers.holds (h : m.Offers W R e free names) : m.Holds W (.among e names) := by
  rintro ⟨scope, name⟩ positive
  obtain rfl : scope = e := Dues.scope_of_among positive
  refine ⟨h.awaits name (Dues.mem_of_among positive), fun _ => ?_⟩
  simp only [Dues.among, if_true]
  exact List.nodup_iff_count_le_one.1 h.nodup name

structure At (W : Watch) (e : EnvironmentId) (n : Dues) (m : Machine σ) : Prop where
  runs : m.Inside e
  holds : m.Holds W n

theorem At.mono {n n' : Dues} (h : m.At W e n) (le : n' ≤ n) : m.At W e n' :=
  ⟨h.runs, h.holds.mono le⟩

def Rounds (W : Watch) (copied : List String) (e : EnvironmentId) (m : Machine σ) : Prop :=
  W.sound = true → m.Grounds e ∧ (copied ≠ [] → e ≠ ⟨0⟩)

end Machine

section

variable {W : Watch} {body : List Stmt}

theorem asks_declaredFunctions (h : W.Asks (tidyList W.once body) (wellFormedList body))
    (f : FunctionNode) (declared : f ∈ declaredFunctions body) : W.Asks (f.tidy W.once) f.wellFormed :=
  ⟨declaredFunctions_tidy h.1 declared, fun sound => declaredFunctions_wellFormed (h.2 sound) declared⟩

theorem FunctionNode.asks_functions (node : FunctionNode)
    (h : W.Asks (node.tidy W.once) node.wellFormed) (f : FunctionNode)
    (declared : f ∈ node.scope.functions) : W.Asks (f.tidy W.once) f.wellFormed :=
  ⟨FunctionNode.scope_tidy h.1 declared, fun sound => FunctionNode.scope_wellFormed (h.2 sound) declared⟩

end

namespace Eval

variable {W : Watch} {P : Promises σ} {R : Rights} {e scope : EnvironmentId} {name : String} {free : String → Prop}

theorem honest_createLexical (name : String) (constant : Bool) (names : List String) :
    Honest W P R (fun m => m.Offers W R e free names)
      (fun _ m => m.Offers W R e free (names ++ [name])) (createLexical e name constant) := by
  cases constant with
  | false =>
    refine honest_attempt (fun m _ offers => offers.takes)
      (fun m tidy _ => fine_commit (m.store.createMutable_unsuspended e name false)
        fun sound => m.store.createMutable_endsWell (tidy.intact sound).store e name false)
      fun m _ tidy offers ok => ?_
    obtain ⟨before, after⟩ := Store.binding?_createMutable offers.takes.has offers.takes.table ok
    exact offers.create tidy rfl rfl (offers.takes.mono id) rfl rfl before after
  | true =>
    refine honest_attempt (fun m _ offers => offers.takes)
      (fun m tidy offers => fine_commit (m.store.createImmutable_unsuspended e name true)
        fun sound => m.store.createImmutable_endsWell (tidy.intact sound).store
          offers.takes.declares name true)
      fun m _ tidy offers ok => ?_
    obtain ⟨before, after⟩ := Store.binding?_createImmutable offers.takes.has offers.takes.table ok
    exact offers.create tidy rfl rfl (offers.takes.mono id) rfl rfl before after

theorem createFunctionNames_eq (scope : EnvironmentId) (functions : List FunctionNode) :
    (createFunctionNames scope functions : Eval σ Unit) =
      createMissing scope (functions.filterMap (·.name)) := by
  induction functions with
  | nil => rfl
  | cons f rest ih =>
    unfold createFunctionNames
    cases named : f.name with
    | none => simp [named, ih]
    | some name => simp [named, ih, createMissing]

theorem honest_getBinding (last : EnvironmentId) (name : String) (strict : Bool)
    {H : Machine σ → Prop} :
    Honest W P R H (fun _ => H) (askFor fun m => m.store.getBinding last name strict) :=
  honest_askFor (fun m _ _ => (m.store.getBinding_endsWell last name strict).fine)
    fun _ _ _ _ known => known

section

variable [P.Lawful] {x : Eval σ α} {functions : List FunctionNode}
  {H : Machine σ → Prop}

theorem Honest.taking {Q : α → Machine σ → Prop} (h : Honest W P R H Q x) {V : Rights}
    (e : EnvironmentId) :
    Honest W P R (fun m => H m ∧ m.store.Takes V e) (fun a m => Q a m ∧ m.store.Takes V e) x :=
  h.keeping fun _ _ takes honors _ => honors.grows.takes takes

variable (free) in
theorem honest_createLexicals (lexical : List LexicalName) (names : List String) :
    Honest W P R (fun m => m.Offers W R e free names)
      (fun _ m => m.Offers W R e free (names ++ lexical.map (·.name)))
      (createLexicals e lexical) := by
  induction lexical generalizing names with
  | nil => exact honest_pure fun _ offers => by simpa using offers
  | cons x rest ih =>
    refine (honest_bind (honest_createLexical x.name x.constant names)
      fun _ => ih _).mono (.refl R) (fun _ offers => offers) fun _ m offers => ?_
    simpa using offers

variable (free) in
theorem honest_createMissing (refused : ¬ R.declare) (missing : List String) (names : List String)
    (unused : ∀ x ∈ missing, free x) :
    Honest W P R (fun m => m.Offers W R e free names)
      (fun _ m => ∀ x, x ∈ names ∨ x ∈ missing → m.Awaits W (e, x)) (createMissing e missing) := by
  induction missing generalizing names with
  | nil => exact honest_pure fun _ offers x listed => offers.awaits x (listed.resolve_right nofun)
  | cons name rest ih =>
    have ih (names : List String) := ih names fun x later => unused x (List.mem_cons_of_mem name later)
    refine honest_bind (honest_ask (Q := fun present m =>
      m.Offers W R e free names ∧ present = m.store.hasBinding e name) fun _ _ offers =>
        ⟨offers, rfl⟩) fun present => ?_
    cases present with
    | true =>
      intro m tidy ⟨offers, found⟩
      have listed : name ∈ names := by
        refine Classical.byContradiction fun unlisted => ?_
        have absent := offers.absent name (unused name List.mem_cons_self) unlisted
        simp [Store.hasBinding_eq_isSome offers.takes refused, absent] at found
      refine ((ih names).mono (.refl R) (fun _ offers => offers)
        fun _ m awaits x found => awaits x ?_) m tidy offers
      grind
    | false =>
      refine honest_bind ((honest_createLexical name false names).mono (.refl R)
        (fun _ known => known.1) fun _ _ offers => offers) fun _ =>
          (ih _).mono (.refl R) (fun _ offers => offers) fun _ m awaits x found =>
            awaits x ?_
      grind

theorem honest_new {Q : α → Machine σ → Prop}
    (h : ∀ S : Spot → Prop, Honest W P ⟨fun p => R.init p ∨ S p, R.declare⟩ (fun m => H m ∧ ∀ p, ¬ m.store.Reserved W.once p → S p) Q x) :
    Honest W P R H Q x := by
  intro m tidy known
  refine (h (fun p => ¬ m.store.Reserved W.once p) m tidy ⟨known, fun _ => id⟩).mono
    fun r m' ends => ?_
  obtain ⟨⟨tidy', honors, steady, fine⟩, post⟩ := ends
  exact ⟨⟨tidy', honors.weaken (fun p reserved used => used.resolve_right fun new => new reserved) id,
    steady, fine⟩, post⟩

theorem honest_createInit (name : String) (v : Value) {Q : β → Machine σ → Prop}
    {f : Unit → Eval σ β} (h : ∀ a, Honest W P R (fun m => m.store.Takes R e) Q (f a)) :
    Honest W P R (fun m => m.store.Takes R e) Q
      (attempt (.createMutable e name false) >>= fun _ =>
        attempt (.initBinding e name v) >>= f) := by
  refine honest_new fun S => ?_
  let R' : Rights := ⟨fun p => R.init p ∨ S p, R.declare⟩
  have created : Honest W P R' (fun m => m.store.Takes R e ∧ ∀ p, ¬ m.store.Reserved W.once p → S p)
      (fun _ m => (m.Awaits W (e, name) ∧ S (e, name)) ∧ m.store.Takes R e)
      (attempt (.createMutable e name false)) := by
    refine honest_attempt (fun _ _ known => known.1.mono id)
      (fun m tidy _ => fine_commit (m.store.createMutable_unsuspended e name false)
        fun sound => m.store.createMutable_endsWell (tidy.intact sound).store e name false)
      fun m _ tidy known ok => ?_
    obtain ⟨before, after⟩ := Store.binding?_createMutable known.1.has known.1.table ok
    have absent : ¬ m.store.Reserved W.once (e, name) := fun ⟨_, found, _⟩ => by
      cases before.symm.trans found
    exact ⟨⟨tidy.awaits rfl absent ⟨_, after, rfl, fun _ => rfl⟩, known.2 _ absent⟩,
      (Effect.grows _ m).takes known.1⟩
  refine honest_bind created fun _ => honest_bind (Q := fun _ m => m.store.Takes R e)
    ?_ fun a => (h a).widen ⟨fun _ => .inl, id⟩
  intro m tidy known
  have init := ((honest_init (W := W) (P := P) (R := R') (.inr known.1.2) v).taking (V := R) e)
  exact init.mono (.refl _) (fun _ known => known) (fun _ _ known => known.2) m tidy
    ⟨known.1.1, known.2⟩

/-! ## Copies and parameters -/

theorem honest_copyInto (last : EnvironmentId) (names : List String) :
    Honest W P R (fun m => m.store.Takes R e) (fun _ m => m.store.Takes R e)
      (copyBindings.copyInto last e names) := by
  induction names with
  | nil => exact honest_pure fun _ takes => takes
  | cons name rest ih =>
    exact honest_bind (honest_getBinding last name true) fun v =>
      honest_createInit name v fun _ => ih

theorem honest_openScope {env : Environment} (blank : env.Blank)
    (around : ∀ m, m.Tidy W → H m → m.store.Encloses W env) :
    Honest W P R H (fun e m => m.store.Takes .none e ∧ (W.sound = true → e ≠ ⟨0⟩))
      (perform (.enclose env)) := fun m tidy known =>
  ((honest_enclose blank 0).mono (.refl _) (fun _ known => known)
    (fun _ _ known => ⟨known.1.takes, known.1.inner⟩)) m tidy ⟨around m tidy known, Nat.zero_le _⟩

theorem honest_copyBindings (last : EnvironmentId) (names : List String) :
    Honest W P .none (fun m => m.Rounds W names last) (fun e m => m.Rounds W names e)
      (copyBindings last names) := by
  unfold copyBindings
  split
  · exact honest_pure fun _ known => known
  · rename_i some
    have copies : names ≠ [] := by simpa using some
    refine honest_bind (honest_ask (Q := fun outer m => W.sound = true →
      ∃ e, outer = .some e ∧ m.store.Has e) fun m tidy known sound => ?_) fun outer => ?_
    · obtain ⟨grounds, inner⟩ := known sound
      obtain ⟨outer, around, lower⟩ := (tidy.intact sound).store.nested last grounds.1 (inner copies)
      exact ⟨outer, around, Nat.lt_trans lower grounds.1⟩
    · refine honest_bind (honest_openScope (Environment.blank_block outer)
        fun _ _ known sound => known sound) fun e => honest_given fun inner => ?_
      refine honest_bind (honest_copyInto last names) fun _ => honest_pure
        fun m takes sound => ⟨Machine.grounds_of_inner ⟨takes.has, inner sound⟩, fun _ => inner sound⟩

theorem honest_openHandler (parameter : Option String) (thrown : Value) :
    Honest W P .none (fun _ => True) (fun e m => W.sound = true → m.store.Inner e)
      (openHandler parameter thrown) := by
  refine honest_bind (honest_ask (Q := fun outer m => W.sound = true → m.store.Has outer)
    fun m tidy _ sound => (tidy.intact sound).lexical.1) fun outer => ?_
  refine honest_bind (honest_openScope (Environment.blank_block outer)
    fun _ _ known sound => ⟨outer, rfl, known sound⟩) fun e => honest_given fun inner => ?_
  have last : Honest W P .none (fun m => m.store.Takes .none e)
      (fun e m => W.sound = true → m.store.Inner e) (pure e) :=
    honest_pure fun _ takes sound => ⟨takes.has, inner sound⟩
  cases parameter with
  | none => exact last
  | some name => exact honest_createInit name thrown fun _ => last

theorem honest_declareVariables (names : List String) :
    Honest W P R (fun m => m.store.Takes R e) (fun _ _ => True) (declareVariables e names) := by
  induction names with
  | nil => exact honest_pure fun _ _ => trivial
  | cons name rest ih =>
    refine honest_bind (honest_ask (Q := fun _ m => m.store.Takes R e)
      fun _ _ known => known) fun present => ?_
    cases present with
    | true => exact ih
    | false => exact honest_createInit name .undefined fun _ => ih

theorem honest_copyVariables (parameters : EnvironmentId) (parameterNames names : List String) :
    Honest W P R (fun m => m.store.Takes R e) (fun _ _ => True)
      (copyVariables parameters e parameterNames names) := by
  induction names with
  | nil => exact honest_pure fun _ _ => trivial
  | cons name rest ih =>
    have tail (v : Value) : Honest W P R (fun m => m.store.Takes R e) (fun _ _ => True)
        (attempt (.createMutable e name false) >>= fun _ =>
          attempt (.initBinding e name v) >>= fun _ =>
            copyVariables parameters e parameterNames rest) :=
      honest_createInit name v fun _ => ih
    unfold copyVariables
    split
    · exact honest_bind (honest_getBinding parameters name false) tail
    · exact honest_bind (honest_pure (Q := fun _ m => m.store.Takes R e)
        fun _ known => known) tail

variable (calls : P.Spare W)

include calls

theorem honest_makeFunction {f : FunctionNode} (asks : W.Asks (f.tidy W.once) f.wellFormed)
    {K : Machine σ → Prop} (has : ∀ m, K m → m.store.Has e)
    (stable : ∀ m m', K m → m.Honors W .none m' → m.Steady m' → K m') :
    Honest W P R K (fun _ => K) (createFunction f e) := fun m tidy known =>
  ((tame_createFunction (.plain asks fun _ => has m known)).keeping calls stable m tidy
    ⟨.refl _, known⟩).mono fun _ _ post => ⟨post.1, fun a ok => (post.2 a ok).2⟩

theorem honest_createFunctions (asks : ∀ f ∈ functions, W.Asks (f.tidy W.once) f.wellFormed)
    (apart : W.once = true → (functions.filterMap (·.name)).Nodup) :
    Honest W P ⟨fun p => p.1 = e ∧ p.2 ∈ functions.filterMap (·.name), False⟩
      (fun m => ∀ x ∈ functions.filterMap (·.name), m.Awaits W (e, x))
      (fun _ _ => True) (createFunctions e functions) := by
  induction functions with
  | nil => exact honest_pure fun _ _ => trivial
  | cons f rest ih =>
    have ih := ih fun g later => asks g (List.mem_cons_of_mem f later)
    unfold createFunctions
    cases named : f.name with
    | none =>
      rw [List.filterMap_cons_none named] at apart ⊢
      exact ih apart
    | some name =>
      rw [List.filterMap_cons_some named] at apart ⊢
      refine honest_bind (honest_makeFunction calls (asks f List.mem_cons_self)
        (fun _ awaits => (awaits name List.mem_cons_self).reserved.has)
        fun _ _ awaits honors _ x listed => (awaits x listed).honors honors fun _ => id)
        fun function => ?_
      refine honest_bind (((honest_init (R := ⟨(· = (e, name)), False⟩) rfl
        (.object function)).keeping (K := fun m =>
          ∀ x ∈ rest.filterMap (·.name), m.Awaits W (e, x))
        fun m m' awaits honors _ x listed => ?_).mono ⟨?_, id⟩
          (fun m awaits => ⟨awaits name List.mem_cons_self, fun x listed =>
            awaits x (List.mem_cons_of_mem name listed)⟩) fun _ _ known => known.2) fun _ =>
              (ih fun once => (List.nodup_cons.1 (apart once)).2).mono
                ⟨fun p used => ⟨used.1, List.mem_cons_of_mem name used.2⟩, id⟩
                (fun _ awaits => awaits) fun _ _ known => known
      · refine (awaits x listed).honors honors fun once same => ?_
        obtain rfl : x = name := congrArg Prod.snd same
        exact (List.nodup_cons.1 (apart once)).1 listed
      · rintro _ rfl
        exact ⟨rfl, List.mem_cons_self⟩

theorem honest_openBlock {scope : BlockScope}
    (asks : ∀ f ∈ scope.functions, W.Asks (f.tidy W.once) f.wellFormed)
    (apart : W.once = true →
      (scope.lexical.map (·.name) ++ scope.functions.filterMap (·.name)).Nodup)
    (outer : EnvironmentId) (first : Nat) :
    Honest W P (.since first)
      (fun m => (W.sound = true → m.store.Has outer) ∧ first ≤ m.store.environments.size)
      (fun own m => (m.Holds W (.among (own.getD outer) (scope.lexical.map (·.name))) ∧
        (Rights.upTo (.among (own.getD outer) (scope.lexical.map (·.name)))).Le (.since first)) ∧
          ∀ e, own = some e → W.sound = true → m.store.Inner e)
      (openBlock scope outer) := by
  unfold openBlock
  split
  · rename_i empty
    simp only [Bool.and_eq_true, List.isEmpty_iff] at empty
    rw [empty.1]
    refine honest_pure fun m _ => ⟨⟨?_, ?_⟩, nofun⟩
    · rw [List.map_nil, Dues.among_nil]
      exact .zero
    · rw [List.map_nil, Dues.among_nil]
      exact Rights.upTo_zero_le _
  · refine honest_bind (Q := fun e m => m.Fresh W e ∧ (W.sound = true → e ≠ ⟨0⟩) ∧ first ≤ e.index)
      ((honest_enclose (Environment.blank_block outer) first).mono (.refl _)
      (fun _ known => ⟨fun sound => ⟨outer, rfl, known.1 sound⟩, known.2⟩)
      fun _ _ known => ⟨known.1, known.1.inner, known.2⟩) fun e => honest_given fun opened => ?_
    obtain ⟨inner, new⟩ := opened
    let names := scope.functions.filterMap (·.name)
    let lexical := scope.lexical.map (·.name)
    refine honest_bind ((honest_createLexicals (fun _ => True) scope.lexical
      []).mono (.refl _) (fun _ fresh => fresh.offers _) fun _ _ offers => offers) fun _ => ?_
    rw [createFunctionNames_eq]
    -- the function names are created beside the lexical names, which stay free
    refine honest_bind (((honest_createMissing (R := .none) _ id names
      lexical fun _ _ => trivial).keeping (K := fun m => m.Holds W (.among e lexical) ∧
        m.store.Has e) fun _ _ known honors _ =>
          ⟨known.1.none honors, honors.grows.has known.2⟩).mono (Rights.none_le _)
          (fun m offers => ⟨⟨offers.takes.mono id, offers.nodup, offers.awaits, offers.absent⟩,
            offers.holds, offers.takes.has⟩) fun _ _ known => known) fun _ => ?_
    have made := honest_createFunctions calls (e := e) asks fun once =>
      (List.nodup_append.1 (apart once)).2.1
    refine honest_bind ((made.keeping (K := fun m => m.Holds W (.among e lexical) ∧
      m.store.Has e) fun m m' known honors _ => ⟨known.1.honors honors fun once p held used => ?_,
        honors.grows.has known.2⟩).mono
        ⟨fun _ used => Nat.le_trans new (Nat.le_of_eq (congrArg (·.index) used.1.symm)), id⟩
        (fun m known => ⟨fun x listed => known.1 x (.inr listed), known.2⟩) fun _ _ known => known.2)
        fun _ => honest_pure fun m known => ⟨⟨known.1, Rights.among_le_since new lexical⟩, ?_⟩
    · exact (List.nodup_append.1 (apart once)).2.2 p.2 (Dues.mem_of_among held) p.2 used.2 rfl
    · rintro _ ⟨⟩ sound
      exact ⟨known.2, inner sound⟩

theorem honest_declareFunctions (asks : ∀ f ∈ functions, W.Asks (f.tidy W.once) f.wellFormed) :
    Honest W P R (fun m => m.store.Takes R e) (fun _ _ => True) (declareFunctions e functions) := by
  induction functions with
  | nil => exact honest_pure fun _ _ => trivial
  | cons f rest ih =>
    have ih := ih fun g later => asks g (List.mem_cons_of_mem f later)
    unfold declareFunctions
    cases f.name with
    | none => exact ih
    | some name =>
      refine honest_bind (honest_makeFunction calls (asks f List.mem_cons_self)
        (fun _ takes => takes.has) fun _ _ takes honors _ => honors.grows.takes takes)
        fun function => honest_bind (honest_ask (Q := fun _ m => m.store.Takes R e)
          fun _ _ takes => takes) fun present => ?_
      cases present with
      | true =>
        exact honest_bind (Tame.keepingAll (fun _ => tame_assign e name _ false)
          calls fun _ _ takes honors _ => honors.grows.takes takes) fun _ => ih
      | false => exact honest_createInit name (.object function) fun _ => ih

theorem honest_bindParameters (right : ∀ x, R.init (e, x)) (seen : List String)
    {parameters : List Parameter}
    (asks : W.Asks (tidyParameters W.once parameters) (wellFormedParameters parameters))
    (arguments : List Value) :
    Honest W P R
      (fun m => ∀ x ∈ parameters.map (·.name), x ∉ seen → m.Awaits W (e, x))
      (fun _ _ => True) (bindParameters e seen parameters arguments) := by
  induction parameters generalizing seen arguments with
  | nil => exact honest_pure fun _ _ => trivial
  | cons parameter rest ih =>
    obtain ⟨name, fallback⟩ := parameter
    simp only [tidyParameters, wellFormedParameters, Watch.asks_and] at asks
    let wanted (seen : List String) (m : Machine σ) : Prop :=
      ∀ x ∈ name :: rest.map (·.name), x ∉ seen → m.Awaits W (e, x)
    have keeping {α : Type} {x : Eval σ α} (h : ∀ s, Tame W s x) :
        Honest W P R (wanted seen) (fun _ => wanted seen) x :=
      Tame.keepingAll h calls fun _ _ awaits honors _ x listed new =>
        (awaits x listed new).honors honors fun _ => id
    have tail (arguments : List Value) : Honest W P R (wanted (name :: seen)) (fun _ _ => True)
        (bindParameters e (name :: seen) rest arguments) :=
      (ih (name :: seen) asks.2 arguments).under fun m awaits x listed =>
        awaits x (List.mem_cons_of_mem name listed)
    refine honest_bind (keeping fun _ => tame_argumentFor ⟨name, fallback⟩ asks.1
      (arguments.headD .undefined)) fun v => ?_
    dsimp only
    split
    · exact honest_bind (keeping fun _ => tame_assign e name v false) fun _ =>
        (tail _).under fun m awaits x listed new => awaits x listed fun old =>
          new (List.mem_cons_of_mem name old)
    · rename_i unseen
      refine honest_bind (((honest_init (R := ⟨(· = (e, name)), False⟩) rfl v).keeping
        (K := wanted (name :: seen)) fun _ _ awaits honors _ x listed new => ?_).mono
          ⟨?_, False.elim⟩ (fun m awaits => ⟨awaits name List.mem_cons_self
            (by simpa using unseen), fun x listed new => awaits x listed fun old =>
              new (List.mem_cons_of_mem name old)⟩) fun _ _ known => known.2) fun _ => tail _
      · refine (awaits x listed new).honors honors fun _ same => new ?_
        obtain rfl : x = name := congrArg Prod.snd same
        exact List.mem_cons_self
      · rintro _ rfl
        exact right name

omit calls in
theorem honest_openVariables (node : FunctionNode) {first : Nat} (new : first ≤ scope.index)
    (inner : W.sound = true → scope ≠ ⟨0⟩) :
    Honest W P .none (fun m => m.store.Takes .none scope)
      (fun own m => m.store.Takes .none own ∧ first ≤ own.index ∧ (W.sound = true → own ≠ ⟨0⟩))
      (openVariables node scope) := by
  unfold openVariables
  split
  · refine honest_bind (Q := fun own m => m.store.Takes .none own ∧ first ≤ own.index ∧
      (W.sound = true → own ≠ ⟨0⟩)) ((honest_enclose (Environment.blank_block scope)
      first).mono (.refl _) (fun _ takes => ⟨fun _ => ⟨scope, rfl, takes.has⟩,
        Nat.le_trans new (Nat.le_of_lt takes.has)⟩) fun _ _ known => ⟨known.1.takes, known.2,
          known.1.inner⟩) fun own => honest_given fun opened => ?_
    refine honest_bind (((honest_copyVariables scope node.parameterNames
      node.scope.varNames).taking own).mono (.refl _)
        (fun _ takes => ⟨takes, takes⟩) fun _ _ known => known.2) fun _ => ?_
    exact honest_pure fun _ takes => ⟨takes, opened⟩
  · refine honest_bind (((honest_declareVariables
      node.scope.varNames).taking scope).mono (.refl _)
        (fun _ takes => ⟨takes, takes⟩) fun _ _ known => known.2) fun _ => ?_
    exact honest_pure fun _ takes => ⟨takes, new, inner⟩

theorem honest_instantiate {node : FunctionNode} (asks : W.Asks (node.tidy W.once) node.wellFormed)
    {first : Nat} (new : first ≤ scope.index) (inner : W.sound = true → scope ≠ ⟨0⟩)
    (arguments : List Value) :
    Honest W P (.since first) (fun m => m.Fresh W scope)
      (fun own m => (m.Holds W (.among own node.body.names) ∧ m.store.Has own) ∧ first ≤ own.index ∧
        (W.sound = true → own ≠ ⟨0⟩))
      (instantiate node scope arguments) := by
  have functions := node.asks_functions asks
  rw [node.tidy_eq, node.wellFormed_eq, Watch.asks_and] at asks
  refine honest_bind (((honest_createMissing (R := .none) (fun _ => True) id
    node.parameterNames [] fun _ _ => trivial).taking scope).mono
      (Rights.none_le _) (fun m fresh => ⟨fresh.offers _, fresh.takes⟩) fun _ _ known => known)
      fun _ => ?_
  refine honest_bind (((honest_bindParameters (R := .since first) calls
    (fun _ => new) [] asks.1 arguments).taking scope).mono (.refl _)
      (fun m known => ⟨fun x listed _ => known.1 x (.inr listed), known.2⟩)
      fun _ _ known => known.2) fun _ => ?_
  refine honest_bind ((honest_openVariables node new inner).widen (Rights.none_le _)) fun own =>
      honest_given fun opened => ?_
  refine honest_bind ((honest_createLexicals (fun _ => False)
    node.scope.lexical []).mono (.refl _) (fun m takes =>
      ⟨takes.mono False.elim, .nil, nofun, nofun⟩) fun _ _ offers => offers) fun _ => ?_
  refine honest_bind (((honest_declareFunctions (R := .none) calls functions).keeping
    (K := fun m => m.Holds W (.among own node.body.names) ∧ m.store.Has own)
      fun _ _ known honors _ => ⟨known.1.none honors, honors.grows.has known.2⟩).mono
        (Rights.none_le _) (fun m offers => ⟨offers.takes.mono id, ?_, offers.takes.has⟩)
        fun _ _ known => known.2) fun _ => honest_pure fun m known => ⟨known, opened⟩
  rw [← node.names_scope]
  exact offers.holds

omit calls in
theorem honest_bindThis (closure : Closure) (scope : EnvironmentId) (target this : Value)
    (object : ∀ o, target = .object o → ∃ o, this = .object o) :
    Honest W P .none (fun m => m.Fresh W scope ∧ (closure.thisMode ≠ .lexical → W.sound = true →
        m.store.OwnsThis scope target)) (fun _ m => m.Fresh W scope) (bindThis closure scope this) := by
  let owned (m : Machine σ) : Prop :=
    m.Fresh W scope ∧ (W.sound = true → m.store.OwnsThis scope target)
  have bound (value : Value) (object : ∀ o, target = .object o → ∃ o, value = .object o) :
      Honest W P .none owned (fun _ m => m.Fresh W scope)
        (attempt (.bindThis scope value)) :=
    honest_attempt (fun _ _ known sound => ⟨target, known.2 sound, object⟩)
      (fun m _ known => fine_commit (m.store.bindThis_unsuspended scope value) fun sound =>
        Store.bindThis_endsWell (known.2 sound) object)
      fun m _ tidy known _ => known.1.effect tidy.settled rfl rfl
  have given (own : closure.thisMode ≠ .lexical) {x : Eval σ Unit}
      (h : Honest W P .none owned (fun _ m => m.Fresh W scope) x) :
      Honest W P .none (fun m => m.Fresh W scope ∧ (closure.thisMode ≠ .lexical → W.sound = true →
        m.store.OwnsThis scope target)) (fun _ m => m.Fresh W scope) x :=
    h.under (fun _ known => ⟨known.1, known.2 own⟩)
  unfold bindThis
  split
  · exact honest_pure fun _ known => known.1
  · rename_i mode
    exact given (by simp [mode]) (bound this object)
  · rename_i mode
    refine given (by simp [mode]) ?_
    split
    · exact honest_bind (honest_ask (Q := fun _ => owned) fun _ _ known => known)
        fun global => bound _ fun _ _ => ⟨_, rfl⟩
    · refine honest_bind (Q := fun _ => owned) ?_ fun o => bound _ fun _ _ => ⟨_, rfl⟩
      unfold toObject
      split
      · exact honest_throw trivial
      · exact honest_throw trivial
      · exact honest_pure fun _ known => known
      · refine honest_bind (honest_ask (Q := fun _ => owned) fun _ _ known => known)
          fun prototype => ?_
        exact honest_perform (fun _ _ _ => Watch.admits_of_none rfl) fun m tidy known =>
          ⟨known.1.effect tidy.settled rfl rfl, fun sound =>
            (Effect.grows _ m).ownsThis (known.2 sound)⟩

omit calls in
theorem Honest.spending {a : Dues}
    (h : Honest W P (.upTo a) (fun m => m.At W e a) (fun _ _ => True) x) (n : Dues) :
    Honest W P (.upTo (a + n)) (fun m => m.At W e (a + n)) (fun _ m => m.At W e n) x := by
  intro m tidy known
  refine (h m tidy (known.mono le_self_add)).mono fun r m' ends => ?_
  refine ⟨ends.1.mono (Rights.upTo_le le_self_add), fun _ _ => ⟨?_, ?_⟩⟩
  · exact known.runs.congr ends.1.steady.stack
  · exact known.holds.spend ends.1.honors

theorem Tame.spending (h : ∀ s, Tame W s x) (n : Dues) :
    Honest W P (.upTo n) (fun m => m.At W e n) (fun _ m => m.At W e n) x :=
  Tame.keepingAll h calls fun _ _ known honors steady =>
    ⟨known.runs.congr steady.stack, known.holds.none honors⟩

omit calls in
theorem honest_initLexical (name : String) (constant : Bool) (v : Value) :
    Honest W P (.upTo (.among e [name])) (fun m => m.At W e (.among e [name])) (fun _ _ => True)
      (initLexical name constant v) := by
  have among : 0 < Dues.among e [name] (e, name) := Dues.among_pos List.mem_cons_self
  refine honest_bind (honest_ask (Q := fun scope m => m.Awaits W (e, name) ∧ scope = e)
    fun m _ known => ⟨(known.holds (e, name) among).1, known.runs.lexical⟩) fun scope => honest_given ?_
  rintro rfl
  refine honest_bind (honest_ask (Q := fun present m =>
    m.Awaits W (scope, name) ∧ present = true) fun m _ awaits => ⟨awaits, ?_⟩) fun present =>
      honest_given ?_
  · obtain ⟨_, found, _⟩ := awaits.reserved
    exact Store.hasBinding_of_binding? found
  · rintro rfl
    exact honest_init among v

theorem honest_storeDeclared (kind : VariableKind) (name : String) (v : Option Value) :
    Honest W P (.upTo (.among e (kind.lexical [name])))
      (fun m => m.At W e (.among e (kind.lexical [name]))) (fun _ _ => True)
      (storeDeclared kind name v) := by
  have lexical (constant : Bool) (v : Value) := honest_initLexical (W := W) (P := P) (e := e) name
    constant v
  unfold storeDeclared
  split
  · exact honest_pure fun _ _ => trivial
  · rename_i v
    have put (s : Store) :
        Tame W s (ask (·.reference name) >>= fun r => putReference r v : Eval σ Unit) :=
      tame_bind (tame_ask _) fun r => tame_putReference r v
    exact (Tame.keepingAll put calls (K := fun _ => True) fun _ _ _ _ _ => trivial).under (fun _ _ => trivial)
  · exact lexical false _
  · exact lexical true _

theorem honest_declarators (kind : VariableKind) (slot : Nat) {ds : List Declarator}
    (asks : W.Asks (tidyDeclarators W.once ds) (wellFormedDeclarators ds)) :
    Honest W P (.upTo (.among e (kind.lexical (ds.map (·.name)))))
      (fun m => m.At W e (.among e (kind.lexical (ds.map (·.name))))) (fun _ _ => True)
      (declarators kind false none slot ds) := by
  induction ds generalizing slot with
  | nil => exact honest_pure fun _ _ => trivial
  | cons d rest ih =>
    obtain ⟨name, init⟩ := d
    simp only [tidyDeclarators, wellFormedDeclarators, Watch.asks_and] at asks
    rw [List.map_cons, VariableKind.lexical_cons, Dues.among_append]
    let n : Dues := .among e (kind.lexical [name]) + .among e (kind.lexical (rest.map (·.name)))
    have stored (v : Option Value) : Honest W P (.upTo n) (fun m => m.At W e n) (fun _ _ => True)
        (do storeDeclared kind name v
            declarators kind false none (slot + 1) rest) :=
      honest_bind ((honest_storeDeclared calls kind name v).spending _)
        fun _ => (ih (slot + 1) asks.2).widen (Rights.upTo_le le_add_self)
    unfold declarators
    cases init with
    | none => exact stored none
    | some init =>
      have evaluated := Tame.spending (e := e) calls
        (fun _ => Expr.tame (σ := σ) asks.1 (some name)) n
      cases init <;> exact honest_bind evaluated fun v => stored (some v)

theorem honest_declare {declaration : Declaration}
    (asks : W.Asks (declaration.tidy W.once) declaration.wellFormed) :
    Honest W P (.upTo (.among e (Stmt.declare declaration).names))
      (fun m => m.At W e (.among e (Stmt.declare declaration).names)) (fun _ _ => True)
      (declare declaration false) := by
  rw [declaration.tidy_eq, declaration.wellFormed_eq] at asks
  refine honest_bind (honest_pure (Q := fun resumed m =>
    m.At W e (.among e (Stmt.declare declaration).names) ∧ resumed = none)
      fun _ known => ⟨known, rfl⟩) fun resumed => honest_given ?_
  rintro rfl
  rw [Stmt.names_declare]
  exact honest_declarators calls declaration.kind 0 asks

theorem honest_forInit {init : ForInit} (asks : W.Asks (init.tidy W.once) init.wellFormed)
    (outer : EnvironmentId) :
    Honest W P .none (fun m => m.Inside outer) (fun e m => m.Rounds W (copiedNames init) e)
      (forInit init outer) := by
  have inside {m : Machine σ} (tidy : m.Tidy W) (runs : m.Inside outer) (sound : W.sound = true) :
      m.Grounds outer := runs.lexical ▸ (tidy.intact sound).lexical
  have last (none : copiedNames init = []) : Honest W P .none (fun m => m.Inside outer)
      (fun e m => m.Rounds W (copiedNames init) e) (pure outer) := by
    refine fun m tidy runs => ⟨.of_tidy tidy (fine_ok outer), ?_⟩
    rintro _ ⟨⟩ sound
    exact ⟨inside tidy runs sound, fun copies => absurd none copies⟩
  cases init with
  | none => exact last rfl
  | expression e =>
    exact honest_bind (Tame.keepingAll (fun _ => Expr.tame asks none) calls
      fun _ _ runs _ steady => Machine.Inside.congr runs steady.stack) fun _ => last rfl
  | declaration declaration =>
    have declared (e : EnvironmentId) := honest_declare (e := e) calls asks
    by_cases kind : declaration.kind = .var
    · have names : (Stmt.declare declaration).names = [] := by
        rw [Stmt.names_declare, VariableKind.lexical, if_pos kind]
      have declared := declared outer
      rw [names, Dues.among_nil] at declared
      simp only [forInit, if_pos kind]
      refine honest_bind ((declared.keeping (K := fun m => m.Inside outer)
        fun _ _ runs _ steady => runs.congr steady.stack).mono (Rights.upTo_zero_le _)
        (fun m runs => ⟨⟨runs, .zero⟩, runs⟩) fun _ _ known => known.2) fun _ => last ?_
      obtain ⟨_, _, _⟩ := declaration
      cases kind
      rfl
    · have names : (Stmt.declare declaration).names = declaration.declarators.map (·.name) := by
        rw [Stmt.names_declare, VariableKind.lexical, if_neg kind]
      simp only [forInit, if_neg kind]
      refine honest_inNewScope (Environment.blank_block outer)
        (fun m tidy runs sound => ⟨outer, rfl, (inside tidy runs sound).1⟩)
        (fun _ _ runs _ same => runs.congr same) fun first e new => ?_
      let opened (m : Machine σ) : Prop :=
        m.Inside outer ∧ (W.sound = true → m.store.Inner e)
      have kept (m m' : Machine σ) (R : Rights) (known : opened m) (honors : m.Honors W R m')
          (steady : m.Steady m') : opened m' :=
        ⟨known.1.congr steady.stack, fun sound => honors.grows.inner (known.2 sound)⟩
      refine honest_bind (((honest_createLexicals (fun _ => True)
        (declaration.declarators.map fun d => ⟨d.name, declaration.kind = .const⟩) []).keeping
          (K := opened) fun m m' known honors steady => kept m m' _ known honors steady).under (fun m known => ⟨known.1.offers _, known.2, known.1.store_inner⟩)) fun _ => ?_
      refine honest_bind (honest_within (Q := fun _ m => W.sound = true → m.store.Inner e)
        (((declared e).keeping
          (K := fun m => W.sound = true → m.store.Inner e) fun _ _ known honors _ sound =>
            honors.grows.inner (known sound)).widen (Rights.among_le_since new _))
        (fun m known sound => Machine.grounds_of_inner (known.2.2 sound))
        (fun m varScope known => ⟨?_, known.2.2⟩) fun _ _ _ _ known => known.2)
        fun _ => honest_pure fun _ known sound =>
          ⟨Machine.grounds_of_inner (known sound), fun _ => (known sound).inner⟩
      refine ⟨known.2.1.setScope varScope, ?_⟩
      have holds := known.1.holds
      rw [List.nil_append, List.map_map] at holds
      rw [names]
      exact holds.congr rfl rfl

omit calls in
theorem tame_refuseDeclared (conflicts : Machine σ → String → Bool) (names : List String) (s : Store) :
    Tame W s (refuseDeclared conflicts names) := by
  induction names with
  | nil => exact tame_pure ()
  | cons name rest ih =>
    unfold refuseDeclared
    grind

theorem honest_declareGlobalFunctions (declare : R.declare)
    (asks : ∀ f ∈ functions, W.Asks (f.tidy W.once) f.wellFormed)
    (global : W.sound = true → e = ⟨0⟩)
    (listed : ∀ x ∈ functions.filterMap (·.name), W.functions (e, x)) :
    Honest W P R (fun m => m.store.Takes R e) (fun _ m => m.store.Takes R e)
      (declareGlobalFunctions e functions) := by
  induction functions with
  | nil => exact honest_pure fun _ takes => takes
  | cons f rest ih =>
    have ih := ih fun g later => asks g (List.mem_cons_of_mem f later)
    unfold declareGlobalFunctions
    cases named : f.name with
    | none =>
      rw [List.filterMap_cons_none named] at listed
      exact ih listed
    | some name =>
      rw [List.filterMap_cons_some named] at listed
      refine honest_bind (honest_makeFunction calls (asks f List.mem_cons_self)
        (fun _ takes => takes.has) fun _ _ takes honors _ => honors.grows.takes takes)
        fun function => ?_
      refine honest_bind (honest_attempt
        (fun _ _ _ => ⟨declare, listed name List.mem_cons_self, global⟩)
        (fun m tidy _ => fine_commit
          (m.store.declareFunction_unsuspended e name (.object function) false) fun sound => ?_)
        fun m _ _ takes _ => (Effect.grows _ m).takes takes) fun _ =>
          ih fun x later => listed x (List.mem_cons_of_mem name later)
      obtain rfl := global sound
      obtain ⟨r, record⟩ := (tidy.intact sound).store.global
      exact Store.declareFunction_endsWell record _ _ _

omit calls in
theorem honest_declareGlobalVars (declare : R.declare) (global : W.sound = true → e = ⟨0⟩)
    (names : List String) :
    Honest W P R (fun m => m.store.Takes R e) (fun _ m => m.store.Takes R e)
      (declareGlobalVars e names) := by
  induction names with
  | nil => exact honest_pure fun _ takes => takes
  | cons name rest ih =>
    refine honest_bind (honest_attempt (fun _ _ _ => ⟨declare, global⟩)
      (fun m tidy _ => fine_commit (m.store.declareVar_unsuspended e name false) fun sound => ?_)
      fun m _ _ takes _ => (Effect.grows _ m).takes takes) fun _ => ih
    obtain rfl := global sound
    obtain ⟨r, record⟩ := (tidy.intact sound).store.global
    exact Store.declareVar_endsWell record _ _

theorem honest_declareGlobals {declared : BodyScope}
    (asks : ∀ f ∈ declared.functions, W.Asks (f.tidy W.once) f.wellFormed)
    (global : W.sound = true → e = ⟨0⟩)
    (listed : ∀ x ∈ declared.functions.filterMap (·.name), W.functions (e, x)) :
    Honest W P .script (fun m => m.store.Takes .script e)
      (fun _ m => m.Holds W (.among e (declared.lexical.map (·.name))))
      (declareGlobals e declared) := by
  have refused (conflicts : Machine σ → String → Bool) (names : List String) :
      Honest W P .script (fun m => m.store.Takes .script e) (fun _ m => m.store.Takes .script e)
        (refuseDeclared conflicts names) :=
    Tame.keepingAll (tame_refuseDeclared conflicts names) calls
      fun _ _ takes honors _ => honors.grows.takes takes
  refine honest_bind (refused _ _) fun _ => honest_bind (refused _ _) fun _ => ?_
  refine honest_bind (honest_declareGlobalFunctions calls trivial asks global
    listed) fun _ => ?_
  refine honest_bind (honest_declareGlobalVars trivial global _) fun _ => ?_
  exact (honest_createLexicals (fun _ => False) declared.lexical []).mono
    (.refl _) (fun m takes => ⟨takes, .nil, nofun, nofun⟩) fun _ m offers => offers.holds

end

end Eval

end ScriptEngine
