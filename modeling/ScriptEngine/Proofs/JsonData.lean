import ScriptEngine.Json.Value
import ScriptEngine.Proofs.Spots

/-!
# JSON data in the heap

Making a value from JSON data changes no object: it adds a new one for each array and each object of
the data, and none of these is referred to twice. The data can be read back from the heap, so data
that differ give values that look different.
-/

namespace ScriptEngine

variable {σ ν : Type}

def Table.ofFields {α : Type} (fields : List (String × α)) : Table α :=
  fields.foldl (fun t field => t.insert field.1 field.2) .empty

namespace Json

mutual

/-- How many arrays and objects there are in the data. -/
def containers : Json ν → Nat
  | .array items => listContainers items + 1
  | .object fields => fieldsContainers fields + 1
  | _ => 0

def listContainers : List (Json ν) → Nat
  | [] => 0
  | item :: rest => item.containers + listContainers rest

def fieldsContainers : List (String × Json ν) → Nat
  | [] => 0
  | (_, item) :: rest => item.containers + fieldsContainers rest

end

/-- Fields as a map, in the order of their keys. -/
def members {α : Type} (fields : List (String × α)) : List (String × α) :=
  (Table.ofFields (fields.mergeSort fun a b => !(b.1 < a.1))).entries

mutual

/-- The same data with the fields of every object as a map. -/
def normal : Json ν → Json ν
  | .array items => .array (normalList items)
  | .object fields => .object (members (normalFields fields))
  | j => j

def normalList : List (Json ν) → List (Json ν)
  | [] => []
  | item :: rest => item.normal :: normalList rest

def normalFields : List (String × Json ν) → List (String × Json ν)
  | [] => []
  | (key, item) :: rest => (key, item.normal) :: normalFields rest

end

/-- Reads an object from its keys, each with whether it is listed and what its value reads as. An
object with a hidden length is an array. -/
def ofEntries (entries : List (String × Bool × Option (Json Float))) : Option (Json Float) :=
  match entries.any fun entry => entry.1 = "length" && !entry.2.1 with
  | true => (((entries.filter (·.2.1)).map (·.2.2)).mapM (m := Option) id).map .array
  | false => ((entries.map fun entry => entry.2.2.map (entry.1, ·)).mapM (m := Option) id).map .object

def readEntry {α : Type} (read : Value → Option α) (p : Property) : Bool × Option α :=
  (p.enumerable, read p.value)

end Json

namespace Heap

/-- Reads data of at most `n` levels. -/
def jsonWithin (h : Heap) : Nat → Value → Option (Json Float)
  | _, .null => some .null
  | _, .boolean b => some (.bool b)
  | _, .number x => some (.number x)
  | _, .string s => some (.string s)
  | n + 1, .object o =>
    Json.ofEntries ((h.get o).properties.entries.map (Prod.map id (Json.readEntry (h.jsonWithin n))))
  | _, _ => none

def json? (h : Heap) (v : Value) : Option (Json Float) := h.jsonWithin h.bound v

/-- The values look the same, each in its heap: primitives are equal, and objects have properties with
the same keys in the same order, alike hidden or not, with values that look the same. -/
def Resembles (h h' : Heap) (v v' : Value) : Prop :=
  ∃ R : Value → Value → Prop, R v v' ∧ ∀ a b, R a b → a = b ∧ a.asObject? = none ∨
    ∃ o o', a = .object o ∧ b = .object o' ∧ List.Forall₂
      (fun p q => p.1 = q.1 ∧ p.2.enumerable = q.2.enumerable ∧ R p.2.value q.2.value)
      (h.get o).properties.entries (h'.get o').properties.entries

/-- The objects that the properties of `n` objects refer to. -/
def referred (h : Heap) (first n : Nat) : List ObjectId :=
  (List.range' first n).flatMap fun i =>
    (h.get ⟨i⟩).properties.entries.filterMap (·.2.value.asObject?)

/-- The second heap has `n` more objects, all plain, and otherwise the same. No new object is
referred to twice by the values and the new objects. -/
structure Gains (h : Heap) (prototype : ObjectId) (n : Nat) (values : List Value) (h' : Heap) :
    Prop where
  size : h'.objects.size = h.objects.size + n
  kept : ∀ o : ObjectId, o.index < h.objects.size → h'.get o = h.get o
  plain : ∀ o : ObjectId, h.objects.size ≤ o.index → o.index < h'.objects.size →
    ∃ properties, h'.get o = { prototype := some prototype, properties }
  unshared : (values.filterMap Value.asObject? ++ h'.referred h.objects.size n).Subperm
    ((List.range' h.objects.size n).map ObjectId.mk)

/-- What is so of reading `n` levels or more, also when objects have been added. -/
def Reads (h : Heap) (n : Nat) (P : (Value → Option (Json Float)) → Prop) : Prop :=
  ∀ h' : Heap, (∀ o : ObjectId, o.index < h.objects.size → h'.get o = h.get o) →
    ∀ k, n ≤ k → P (h'.jsonWithin k)

variable {h h' h₁ h₂ : Heap} {prototype : ObjectId} {n k : Nat} {vs ws : List Value} {v v' : Value}
  {P : (Value → Option (Json Float)) → Prop}

/-! ## New objects -/

theorem referred_congr {first : Nat} (same : ∀ i, first ≤ i → i < first + n → h₁.get ⟨i⟩ = h.get ⟨i⟩) :
    h₁.referred first n = h.referred first n := by
  refine List.flatMap_congr fun i listed => ?_
  obtain ⟨least, most⟩ := List.mem_range'_1.1 listed
  rw [same i least most]

theorem referred_add (first : Nat) :
    h.referred first (n + k) = h.referred first n ++ h.referred (first + n) k := by
  simp only [referred, ← List.flatMap_append, ← List.range'_append_1]

namespace Gains

theorem refl (unboxed : vs.filterMap Value.asObject? = []) : h.Gains prototype 0 vs h :=
  ⟨rfl, fun _ _ => rfl, fun _ least most => absurd least (Nat.not_le.2 most), unboxed ▸ .refl _⟩

theorem append (first : h.Gains prototype n vs h₁) (second : h₁.Gains prototype k ws h₂) :
    h.Gains prototype (n + k) (vs ++ ws) h₂ := by
  refine ⟨by rw [second.size, first.size, Nat.add_assoc], fun o old => ?_, fun o least most => ?_, ?_⟩
  · rw [second.kept o (by rw [first.size]; exact Nat.lt_add_right n old), first.kept o old]
  · by_cases early : o.index < h₁.objects.size
    · rw [second.kept o early]
      exact first.plain o least early
    · exact second.plain o (Nat.le_of_not_lt early) most
  · have earlier : h₂.referred h.objects.size n = h₁.referred h.objects.size n :=
      referred_congr fun i _ most => second.kept ⟨i⟩ (by rw [first.size]; exact most)
    have both := first.unshared.append second.unshared
    rw [first.size, ← List.map_append, List.range'_append_1] at both
    rw [referred_add, earlier, List.filterMap_append]
    refine List.Perm.subperm ?_ |>.trans both
    exact List.perm_iff_count.2 fun o => by simp only [List.count_append]; omega

/-- The new object refers to the objects among the values, to each at most once. -/
theorem allocate (inner : h.Gains prototype n vs h₁) {properties : Table Property}
    (held : (properties.entries.filterMap (·.2.value.asObject?)).Subperm
      (vs.filterMap Value.asObject?)) :
    h.Gains prototype (n + 1) [.object ⟨h₁.objects.size⟩]
      (h₁.allocate { prototype := some prototype, properties }).2 := by
  have new (o : ObjectId) := h₁.get_allocate { prototype := some prototype, properties } o
  have size : (h₁.allocate { prototype := some prototype, properties }).2.objects.size =
      h.objects.size + (n + 1) := (Array.size_push _).trans (congrArg _ inner.size)
  generalize (h₁.allocate { prototype := some prototype, properties }).2 = h₂ at new size ⊢
  have here := inner.size
  refine ⟨size, fun o old => ?_, fun o least most => ?_, ?_⟩
  · rw [new, if_neg (by omega), inner.kept o old]
  · rw [new]
    split
    · exact ⟨_, rfl⟩
    · exact inner.plain o least (by omega)
  · have earlier : h₂.referred h.objects.size n = h₁.referred h.objects.size n :=
      referred_congr fun i _ most => by rw [new, if_neg (Nat.ne_of_lt (here ▸ most))]
    have last : h₂.referred (h.objects.size + n) 1 =
        properties.entries.filterMap (·.2.value.asObject?) := by
      simp [referred, new, here]
    have all := ((held.append (.refl _)).trans inner.unshared).append
      (.refl [ObjectId.mk h₁.objects.size])
    rw [referred_add, earlier, last, List.range'_1_concat, List.map_append]
    refine List.Perm.subperm ?_ |>.trans (here ▸ all)
    exact List.perm_iff_count.2 fun o => by
      simp only [List.count_append, List.filterMap_cons, Value.asObject?, List.filterMap_nil, here]
      omega

end Gains

/-! ## Reading -/

theorem Reads.later (reads : h.Reads n P) (more : h.Gains prototype k vs h₁) : h₁.Reads n P :=
  fun h' same => reads h' fun o old =>
    (same o (by rw [more.size]; exact Nat.lt_add_right k old)).trans (more.kept o old)

theorem Reads.allocate {prototype : Option ObjectId} {properties : Table Property} {j : Json Float}
    (reads : h.Reads n fun read =>
      Json.ofEntries (properties.entries.map (Prod.map id (Json.readEntry read))) = some j) :
    (h.allocate { prototype, properties }).2.Reads (n + 1) fun read =>
      read (.object ⟨h.objects.size⟩) = some j := by
  intro h' kept k most
  obtain ⟨k, rfl⟩ : ∃ l, k = l + 1 := ⟨k - 1, by omega⟩
  have new (o : ObjectId) (old : o.index < h.objects.size + 1) :
      h'.get o = if o.index = h.objects.size then { prototype, properties } else h.get o :=
    (kept o (Nat.lt_of_lt_of_eq old (Array.size_push _).symm)).trans (h.get_allocate _ o)
  rw [jsonWithin, new ⟨h.objects.size⟩ (Nat.lt_succ_self _), if_pos rfl]
  refine reads h' (fun o old => ?_) k (by omega)
  rw [new o (Nat.lt_succ_of_lt old), if_neg (Nat.ne_of_lt old)]

theorem Resembles.jsonWithin_eq (alike : h.Resembles h' v v') (n : Nat) :
    h.jsonWithin n v = h'.jsonWithin n v' := by
  obtain ⟨R, related, closed⟩ := alike
  induction n generalizing v v' with
  | zero =>
    rcases closed v v' related with ⟨rfl, -⟩ | ⟨o, o', rfl, rfl, -⟩
    · cases v <;> rfl
    · rfl
  | succ n ih =>
    rcases closed v v' related with ⟨rfl, primitive⟩ | ⟨o, o', rfl, rfl, same⟩
    · cases v <;> first | rfl | cases primitive
    · refine congrArg Json.ofEntries (List.forall₂_eq_eq_eq ▸ ?_)
      refine List.forall₂_map_left_iff.2 (List.forall₂_map_right_iff.2 (same.imp fun p q entry => ?_))
      simp [Prod.map, Json.readEntry, entry.1, entry.2.1, ih entry.2.2]

end Heap

namespace Table

variable {α β : Type} {t : Table α} {key : String} {a : α}

theorem entries_insert_new (absent : key ∉ t.keys) :
    (t.insert key a).entries = t.entries ++ [(key, a)] := by
  obtain ⟨entries⟩ := t
  simp only [keys, insert] at absent ⊢
  induction entries with
  | nil => rfl
  | cons first rest ih =>
    simp only [List.map_cons, List.mem_cons, not_or] at absent
    rw [insertIn, if_neg (Ne.symm absent.1), ih absent.2, List.cons_append]

theorem subperm_insert : (t.insert key a).entries.Subperm (t.entries ++ [(key, a)]) := by
  obtain ⟨entries⟩ := t
  simp only [insert]
  induction entries with
  | nil => exact .refl _
  | cons first rest ih =>
    simp only [insertIn]
    split
    · exact (List.perm_append_singleton _ _).symm.subperm.trans
        (List.sublist_cons_self _ _).subperm
    · exact (List.subperm_cons _).2 ih

theorem map_insert (f : α → β) : (t.insert key a).entries.map (Prod.map id f) =
    (insert ⟨t.entries.map (Prod.map id f)⟩ key (f a)).entries := by
  obtain ⟨entries⟩ := t
  simp only [insert]
  induction entries with
  | nil => rfl
  | cons first rest ih =>
    simp only [insertIn, List.map_cons, Prod.map_fst, id_eq]
    split
    · rfl
    · rw [List.map_cons, ih]
      rfl

theorem ofFields_append (fields : List (String × α)) (field : String × α) :
    ofFields (fields ++ [field]) = (ofFields fields).insert field.1 field.2 := List.foldl_append

variable (fields : List (String × α))

theorem ofFields_new (distinct : (fields.map (·.1)).Nodup) : (ofFields fields).entries = fields := by
  induction fields using List.reverseRecOn with
  | nil => rfl
  | append_singleton fields field ih =>
    rw [List.map_append, List.nodup_append] at distinct
    rw [ofFields_append, entries_insert_new, ih distinct.1]
    rw [keys, ih distinct.1]
    exact fun listed => distinct.2.2 _ listed _ List.mem_cons_self rfl

theorem ofFields_subperm : (ofFields fields).entries.Subperm fields := by
  induction fields using List.reverseRecOn with
  | nil => exact .refl _
  | append_singleton fields field ih =>
    rw [ofFields_append]
    exact subperm_insert.trans (ih.append (.refl _))

theorem map_ofFields (f : α → β) :
    (ofFields fields).entries.map (Prod.map id f) = (ofFields (fields.map (Prod.map id f))).entries := by
  induction fields using List.reverseRecOn with
  | nil => rfl
  | append_singleton fields field ih =>
    rw [ofFields_append, map_insert, ih, List.map_append]
    exact congrArg entries (ofFields_append _ (field.1, f field.2)).symm

end Table

open Table

namespace Json

variable {read : Value → Option (Json Float)} (vs : List Value) (fields : List (String × Value))

theorem map_members {α β : Type} (f : α → β) (fields : List (String × α)) :
    (members fields).map (Prod.map id f) = members (fields.map (Prod.map id f)) := by
  rw [members, map_ofFields, members, List.map_mergeSort]
  exact fun _ _ _ _ => rfl

theorem addFields_eq : addFields fields = ofFields (fields.map (Prod.map id .data)) := by
  rw [ofFields, List.foldl_map]
  rfl

theorem entries_objectProperties :
    (objectProperties fields).entries = members (fields.map (Prod.map id .data)) := by
  rw [objectProperties, addFields_eq, ← map_ofFields]
  exact map_members _ _

theorem repr_injective {i k : Nat} (same : i.repr = k.repr) : i = k := by
  rw [Nat.repr_eq_ofList_toDigits, Nat.repr_eq_ofList_toDigits, String.ofList_inj] at same
  rw [← Nat.ofDigitChars_ten_toDigits (n := i), same, Nat.ofDigitChars_ten_toDigits]

theorem length_ne_repr (i : Nat) : "length" ≠ i.repr := by
  rw [Nat.repr_eq_ofList_toDigits]
  intro same
  have digit := Nat.isDigit_of_mem_toDigits (b := 10) (n := i) (c := 'l') (by decide) (by decide)
    (by simpa using congrArg (fun s => 'l' ∈ s.toList) same)
  revert digit
  decide

theorem entries_arrayProperties : (arrayProperties vs).entries =
    (vs.mapIdx fun i v => (toString i, Property.data v)) ++
      [("length", .hidden (.number (Float.ofNat vs.length)))] := by
  have names : (vs.mapIdx fun i v => (toString i, Property.data v)).map (·.1) =
      (List.range vs.length).map Nat.repr := by
    apply List.ext_getElem <;> simp
  have numbered : (addFields (vs.mapIdx fun i v => (toString i, v))).entries =
      vs.mapIdx fun i v => (toString i, Property.data v) := by
    have pairs : (vs.mapIdx fun i v => (toString i, v)).map (Prod.map id Property.data) =
        vs.mapIdx fun i v => (toString i, Property.data v) := by
      apply List.ext_getElem <;> simp
    rw [addFields_eq, pairs]
    refine ofFields_new _ ?_
    rw [names]
    exact List.nodup_range.map fun _ _ => repr_injective
  rw [arrayProperties, entries_insert_new, numbered]
  rw [keys, numbered, names]
  exact fun listed => (List.mem_map.1 listed).elim fun i named => length_ne_repr i named.2.symm

theorem mapM_some {α : Type} (l : List α) : (l.map some).mapM id = some l := by
  induction l with
  | nil => rfl
  | cons a rest ih => simp_all

theorem ofEntries_array {items : List (Json Float)} (values : vs.map read = items.map some) :
    ofEntries ((arrayProperties vs).entries.map (Prod.map id (readEntry read))) =
      some (.array items) := by
  have shown : (((arrayProperties vs).entries.map (Prod.map id (readEntry read))).filter
      (·.2.1)).map (·.2.2) = items.map some := by
    rw [← values, entries_arrayProperties, List.map_append, List.filter_append,
      List.filter_eq_self.2 (by simp [Prod.map, readEntry, Property.data])]
    apply List.ext_getElem <;> simp [readEntry, Property.data, Property.hidden]
  rw [ofEntries, List.any_eq_true.2, shown, mapM_some]
  · rfl
  · rw [entries_arrayProperties]
    exact ⟨_, List.mem_map_of_mem (List.mem_append_right _ List.mem_cons_self), rfl⟩

theorem ofEntries_object {items : List (String × Json Float)}
    (values : fields.map (Prod.map id read) = items.map (Prod.map id some)) :
    ofEntries ((objectProperties fields).entries.map (Prod.map id (readEntry read))) =
      some (.object (members items)) := by
  have shown : (objectProperties fields).entries.map (Prod.map id (readEntry read)) =
      (members items).map (Prod.map id fun j => (true, some j)) := by
    rw [entries_objectProperties, map_members, map_members]
    have pairs := congrArg (List.map (Prod.map id (Prod.mk true))) values
    simp only [List.map_map] at pairs ⊢
    exact congrArg members pairs
  rw [shown, ofEntries, List.any_eq_false.2, List.map_map]
  · exact congrArg (Option.map object) (mapM_some _)
  · simp [Prod.map]

theorem objects_arrayProperties :
    (arrayProperties vs).entries.filterMap (·.2.value.asObject?) = vs.filterMap Value.asObject? := by
  have values : (vs.mapIdx fun i v => (toString i, Property.data v)).map (·.2.value) = vs := by
    apply List.ext_getElem <;> simp [Property.data]
  have objects := congrArg (List.filterMap Value.asObject?) values
  rw [List.filterMap_map] at objects
  rw [entries_arrayProperties, List.filterMap_append]
  exact (List.append_nil _).trans objects

theorem objects_objectProperties :
    ((objectProperties fields).entries.filterMap (·.2.value.asObject?)).Subperm
      ((fields.map (·.2)).filterMap Value.asObject?) := by
  rw [entries_objectProperties, ← map_members, List.filterMap_map, List.filterMap_map]
  obtain ⟨l, perm, sub⟩ := ofFields_subperm (fields.mergeSort fun a b => !(b.1 < a.1))
  exact List.Subperm.trans ⟨_, perm.filterMap _, sub.filterMap _⟩
    ((List.mergeSort_perm fields _).filterMap _).subperm

variable (A : Answers σ)

mutual

theorem eval_value (j : Json Float) (m : Machine σ) :
    ∃ v h, A.eval j.value m = .finished (.ok v) (m.mapHeap fun _ => h) ∧
      m.heap.Gains m.realm.objectPrototype j.containers [v] h ∧
      h.Reads j.containers fun read => read v = some j.normal := by
  cases j with
  | null | bool | number | string =>
    exact ⟨_, _, rfl, .refl rfl, fun _ _ k _ => by cases k <;> rfl⟩
  | array items =>
    obtain ⟨vs, h, run, gains, reads⟩ := eval_valueList items m
    refine ⟨_, _, ?_, gains.allocate (objects_arrayProperties vs ▸ .refl _),
      .allocate fun h' kept n most => ofEntries_array vs (reads h' kept n most)⟩
    rw [value, eval_bind, run]
    rfl
  | object fields =>
    obtain ⟨vs, h, run, gains, reads⟩ := eval_valueFields fields m
    refine ⟨_, _, ?_, gains.allocate (objects_objectProperties vs),
      .allocate fun h' kept n most => ofEntries_object vs (reads h' kept n most)⟩
    rw [value, eval_bind, run]
    rfl

theorem eval_valueList (items : List (Json Float)) (m : Machine σ) :
    ∃ vs h, A.eval (valueList items) m = .finished (.ok vs) (m.mapHeap fun _ => h) ∧
      m.heap.Gains m.realm.objectPrototype (listContainers items) vs h ∧
      h.Reads (listContainers items) fun read => vs.map read = (normalList items).map some := by
  cases items with
  | nil => exact ⟨[], _, rfl, .refl rfl, fun _ _ _ _ => rfl⟩
  | cons item rest =>
    obtain ⟨v, h, first, gains, reads⟩ := eval_value item m
    obtain ⟨vs, h', second, more, others⟩ := eval_valueList rest (m.mapHeap fun _ => h)
    refine ⟨v :: vs, h', ?_, gains.append more, fun h kept n most => ?_⟩
    · rw [valueList, eval_bind, first, proceed_ok, eval_bind, second]
      rfl
    · rw [listContainers] at most
      rw [List.map_cons, reads.later more h kept n (by omega), others h kept n (by omega)]
      rfl

theorem eval_valueFields (fields : List (String × Json Float)) (m : Machine σ) :
    ∃ vs h, A.eval (valueFields fields) m = .finished (.ok vs) (m.mapHeap fun _ => h) ∧
      m.heap.Gains m.realm.objectPrototype (fieldsContainers fields) (vs.map (·.2)) h ∧
      h.Reads (fieldsContainers fields) fun read =>
        vs.map (Prod.map id read) = (normalFields fields).map (Prod.map id some) := by
  cases fields with
  | nil => exact ⟨[], _, rfl, .refl rfl, fun _ _ _ _ => rfl⟩
  | cons field rest =>
    obtain ⟨v, h, first, gains, reads⟩ := eval_value field.2 m
    obtain ⟨vs, h', second, more, others⟩ := eval_valueFields rest (m.mapHeap fun _ => h)
    refine ⟨(field.1, v) :: vs, h', ?_, gains.append more, fun h kept n most => ?_⟩
    · rw [valueFields, eval_bind, first, proceed_ok, eval_bind, second]
      rfl
    · rw [fieldsContainers] at most
      rw [List.map_cons, Prod.map, reads.later more h kept n (by omega),
        others h kept n (by omega)]
      rfl

end

end Json

/-- A value made from JSON data is made of new objects alone, one for each array and object of the
data, and the data can be read back: values that look the same are made from the same data. -/
theorem json_read_back (engine : Engine σ) (fuel : Nat) (m : Machine σ) (j : Json Float) :
    ∃ v h, engine.run fuel j.value m = .finished (.ok v) (m.mapHeap fun _ => h) ∧
      m.heap.Gains m.realm.objectPrototype j.containers [v] h ∧ h.json? v = some j.normal ∧
      ∀ (m₁ m₂ : Machine σ) (k : Json Float) (w : Value),
        engine.run fuel k.value m₁ = .finished (.ok w) m₂ → h.Resembles m₂.heap v w →
          j.normal = k.normal := by
  let A : Answers σ := ⟨engine.invoke fuel, engine.repeat fuel⟩
  obtain ⟨v, h, run, gains, reads⟩ := Json.eval_value A j m
  have read (n : Nat) (most : j.containers ≤ n) := reads h (fun _ _ => rfl) n most
  refine ⟨v, h, run, gains, read _ (by rw [Heap.bound, gains.size]; omega),
    fun m₁ m₂ k w other alike => ?_⟩
  obtain ⟨w', h', run', -, reads'⟩ := Json.eval_value A k m₁
  cases run'.symm.trans other
  have same := alike.jsonWithin_eq (max j.containers k.containers)
  rw [read _ (Nat.le_max_left _ _)] at same
  exact Option.some.inj (same.trans (reads' _ (fun _ _ => rfl) _ (Nat.le_max_right _ _)))

end ScriptEngine
