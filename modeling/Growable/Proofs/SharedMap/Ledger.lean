import Growable.SharedMap.Machine
import Mathlib.Data.Finmap

/-!
# Entries in the order in which their keys came in

A ledger lists keys with their values, a new key behind those that were there. What is done with a
key in a bucket is the same as what is done with it in the ledger, and a ledger without a key twice
is a finite map.
-/

namespace Growable.SharedMap

/-- Keys with their values, in the order in which the keys came in. -/
abbrev Ledger (K V : Type) := List (K × V)

/-- Every key of the map is listed once, with its value. -/
structure Lists {K V : Type} [DecidableEq K] (kvs : List (K × V)) (map : Finmap fun _ : K => V) :
    Prop where
  distinct : (kvs.map Prod.fst).Nodup
  mem_iff : ∀ k v, (k, v) ∈ kvs ↔ map.lookup k = some v

section

variable {K V : Type}

/-- What an errand that finds this under its key answers. -/
def Errand.answerTo (v? : Option V) : Errand K V → Answer K V
  | insert .. | insertIfAbsent .. | get _ => .found v?
  | contains _ => .truth v?.isSome

/-- An errand that finds this under its key puts the key in. -/
def Errand.adds (v? : Option V) : Errand K V → Bool
  | insert .. | insertIfAbsent .. => v?.isNone
  | get _ | contains _ => false

theorem Errand.answerTo_of_adds {e : Errand K V} {v? : Option V} (h : e.adds v? = true) :
    e.answerTo v? = .found none := by
  cases e with
  | insert k v => exact congrArg Answer.found (Option.isNone_iff_eq_none.mp h)
  | insertIfAbsent k v => exact congrArg Answer.found (Option.isNone_iff_eq_none.mp h)
  | get k => cases h
  | contains k => cases h

end

variable {K V : Type} [DecidableEq K]

/-- Replaces the value of a key, or puts a new key behind the others. -/
def record (k : K) (v : V) : Ledger K V → Ledger K V
  | [] => [(k, v)]
  | kv :: kvs => if kv.1 = k then (k, v) :: kvs else kv :: record k v kvs

/-- What an errand makes of a ledger. -/
def Errand.applyTo (kvs : Ledger K V) : Errand K V → Ledger K V
  | insert k v => record k v kvs
  | insertIfAbsent k v => if (kvs.lookup k).isSome then kvs else record k v kvs
  | get _ => kvs
  | contains _ => kvs

variable {kvs : Ledger K V} {k : K} {v : V}

theorem lookup_cons_eq_ite (k : K) (kv : K × V) (kvs : Ledger K V) :
    List.lookup k (kv :: kvs) = if k = kv.1 then some kv.2 else kvs.lookup k := by
  rcases kv with ⟨a, b⟩
  rw [List.lookup_cons]
  by_cases hk : k = a
  · subst hk
    simp
  · rw [beq_eq_false_iff_ne.mpr hk, if_neg hk]

theorem lookup_record (k k' : K) (v : V) (kvs : Ledger K V) :
    (record k v kvs).lookup k' = if k' = k then some v else kvs.lookup k' := by
  induction kvs with
  | nil => rw [record, lookup_cons_eq_ite]
  | cons kv kvs ih =>
    by_cases ha : kv.1 = k
    · subst ha
      rw [record, if_pos rfl, lookup_cons_eq_ite, lookup_cons_eq_ite]
      by_cases hk : k' = kv.1 <;> simp [hk]
    · rw [record, if_neg ha, lookup_cons_eq_ite, lookup_cons_eq_ite, ih]
      by_cases hk : k' = kv.1
      · subst hk
        simp [ha]
      · simp [hk]

theorem lookup_eq_none_iff_notMem : kvs.lookup k = none ↔ k ∉ kvs.map Prod.fst := by
  rw [List.lookup_eq_none_iff, List.mem_map]
  constructor
  · rintro h ⟨kv, hmem, rfl⟩
    exact bne_iff_ne.mp (h kv hmem) rfl
  · intro h kv hmem
    rw [bne_iff_ne]
    rintro rfl
    exact h ⟨kv, hmem, rfl⟩

theorem record_of_lookup_eq_none (h : kvs.lookup k = none) : record k v kvs = kvs ++ [(k, v)] := by
  induction kvs with
  | nil => rfl
  | cons kv kvs ih =>
    rw [lookup_eq_none_iff_notMem, List.map_cons, List.mem_cons, not_or] at h
    rw [record, if_neg (Ne.symm h.1), ih (lookup_eq_none_iff_notMem.mpr h.2), List.cons_append]

theorem keys_record_of_mem (h : k ∈ kvs.map Prod.fst) :
    (record k v kvs).map Prod.fst = kvs.map Prod.fst := by
  induction kvs with
  | nil => cases h
  | cons kv kvs ih =>
    by_cases hk : kv.1 = k
    · rw [record, if_pos hk, List.map_cons, List.map_cons, hk]
    · rw [List.map_cons, List.mem_cons] at h
      rw [record, if_neg hk, List.map_cons, List.map_cons, ih (h.resolve_left (Ne.symm hk))]

theorem distinct_record (h : (kvs.map Prod.fst).Nodup) (k : K) (v : V) :
    ((record k v kvs).map Prod.fst).Nodup := by
  by_cases hk : k ∈ kvs.map Prod.fst
  · rw [keys_record_of_mem hk]
    exact h
  · rw [record_of_lookup_eq_none (lookup_eq_none_iff_notMem.mpr hk), List.map_append,
      List.nodup_append]
    refine ⟨h, by simp, ?_⟩
    intro a ha b hb
    obtain rfl : b = k := by simpa using hb
    rintro rfl
    exact hk ha

theorem length_applyTo (e : Errand K V) (kvs : Ledger K V) :
    (e.applyTo kvs).length = kvs.length + (if e.adds (kvs.lookup e.key) then 1 else 0) := by
  have hrecord (k : K) (v : V) :
      (record k v kvs).length = kvs.length + (if (kvs.lookup k).isNone then 1 else 0) := by
    cases hk : kvs.lookup k with
    | none => simp [record_of_lookup_eq_none hk]
    | some old =>
      have hmem : k ∈ kvs.map Prod.fst := by
        rw [← not_not (a := k ∈ _), ← lookup_eq_none_iff_notMem, hk]
        exact Option.some_ne_none old
      have hkeys := congrArg List.length (keys_record_of_mem (v := v) hmem)
      rw [List.length_map, List.length_map] at hkeys
      exact hkeys
  cases e with
  | insert k v => exact hrecord k v
  | insertIfAbsent k v =>
    rw [Errand.applyTo, Errand.adds, show (Errand.insertIfAbsent k v).key = k from rfl]
    cases hk : kvs.lookup k with
    | none =>
      have hlength := hrecord k v
      rw [hk] at hlength
      exact hlength
    | some old => rfl
  | get k => rfl
  | contains k => rfl

/-! ## Part of a ledger -/

theorem lookup_filter {p : K → Bool} (hk : p k = true) (kvs : Ledger K V) :
    (kvs.filter fun kv => p kv.1).lookup k = kvs.lookup k := by
  induction kvs with
  | nil => rfl
  | cons kv kvs ih =>
    rw [List.filter_cons, lookup_cons_eq_ite, ← ih]
    by_cases ha : k = kv.1
    · subst ha
      rw [if_pos hk, if_pos rfl, lookup_cons_eq_ite, if_pos rfl]
    · rw [if_neg ha]
      split
      · rw [lookup_cons_eq_ite, if_neg ha]
      · rfl

theorem filter_record (p : K → Bool) (k : K) (v : V) (kvs : Ledger K V) :
    (record k v kvs).filter (fun kv => p kv.1) =
      if p k then record k v (kvs.filter fun kv => p kv.1) else kvs.filter fun kv => p kv.1 := by
  induction kvs with
  | nil => simp [record, List.filter_cons]
  | cons kv kvs ih =>
    by_cases hk : kv.1 = k
    · rw [record, if_pos hk, List.filter_cons, List.filter_cons, hk]
      cases p k <;> simp [record, hk]
    · rw [record, if_neg hk, List.filter_cons, List.filter_cons, ih]
      cases p k <;> cases p kv.1 <;> simp [record, hk]

/-- An errand only touches the part its key is in, and does there what it does on the whole. -/
theorem filter_applyTo (p : K → Bool) (e : Errand K V) (kvs : Ledger K V) :
    (e.applyTo kvs).filter (fun kv => p kv.1) =
      if p e.key then e.applyTo (kvs.filter fun kv => p kv.1) else kvs.filter fun kv => p kv.1 := by
  cases e with
  | insert k v => exact filter_record p k v kvs
  | insertIfAbsent k v =>
    rw [show (Errand.insertIfAbsent k v).key = k from rfl, Errand.applyTo, Errand.applyTo]
    by_cases hk : p k = true
    · rw [lookup_filter hk, if_pos hk]
      split
      · rfl
      · rw [filter_record, if_pos hk]
    · rw [if_neg hk]
      split
      · rfl
      · rw [filter_record, if_neg hk]
  | get k => simp [Errand.applyTo]
  | contains k => simp [Errand.applyTo]

/-! ## A bucket -/

/-- A line of the ledger with the hash of its key. -/
def entryOf (hash : K → UInt64) (kv : K × V) : Entry K V := ⟨hash kv.1, kv.1, kv.2⟩

theorem matches_entryOf (hash : K → UInt64) (k : K) (kv : K × V) :
    (entryOf hash kv).matches (hash k) k = (k == kv.1) := by
  rw [Entry.matches, entryOf]
  by_cases hk : k = kv.1
  · simp [hk]
  · rw [beq_eq_false_iff_ne.mpr (Ne.symm hk), beq_eq_false_iff_ne.mpr hk, Bool.and_false]

theorem lookup_map_entryOf (hash : K → UInt64) (k : K) (kvs : Ledger K V) :
    lookup (hash k) k (kvs.map (entryOf hash)) = kvs.lookup k := by
  induction kvs with
  | nil => rfl
  | cons kv kvs ih =>
    rw [lookup] at ih
    rw [lookup, List.map_cons, List.find?_cons, matches_entryOf, lookup_cons_eq_ite, ← ih]
    by_cases hk : k = kv.1
    · rw [if_pos hk, beq_iff_eq.mpr hk]
      rfl
    · rw [if_neg hk, beq_eq_false_iff_ne.mpr hk]

theorem replace_map_entryOf (hash : K → UInt64) {old : V} (h : kvs.lookup k = some old) (v : V) :
    replace (hash k) k v (kvs.map (entryOf hash)) = (record k v kvs).map (entryOf hash) := by
  induction kvs with
  | nil => cases h
  | cons kv kvs ih =>
    rw [List.map_cons, replace, matches_entryOf, record]
    by_cases hk : kv.1 = k
    · subst hk
      simp [entryOf]
    · rw [lookup_cons_eq_ite, if_neg (Ne.symm hk)] at h
      rw [beq_eq_false_iff_ne.mpr (Ne.symm hk), if_neg Bool.false_ne_true, if_neg hk, ih h,
        List.map_cons]

theorem perform_map_entryOf (hash : K → UInt64) (e : Errand K V) (kvs : Ledger K V) :
    e.perform (hash e.key) (kvs.map (entryOf hash)) =
      ((e.applyTo kvs).map (entryOf hash),
        if e.adds (kvs.lookup e.key) then none else some (e.answerTo (kvs.lookup e.key))) := by
  cases e with
  | insert k v =>
    rw [Errand.key, Errand.perform, lookup_map_entryOf, Errand.applyTo, Errand.adds]
    cases hk : kvs.lookup k with
    | none => rw [record_of_lookup_eq_none hk, List.map_append]; rfl
    | some old => rw [← replace_map_entryOf hash hk v]; rfl
  | insertIfAbsent k v =>
    rw [Errand.key, Errand.perform, lookup_map_entryOf, Errand.applyTo, Errand.adds]
    cases hk : kvs.lookup k with
    | none => simp [record_of_lookup_eq_none hk, entryOf]
    | some old => rfl
  | get k =>
    rw [Errand.key, Errand.perform, lookup_map_entryOf]
    rfl
  | contains k =>
    rw [Errand.key, Errand.perform, lookup_map_entryOf]
    rfl

/-! ## A ledger as a finite map -/

theorem mem_iff_lookup (h : (kvs.map Prod.fst).Nodup) : (k, v) ∈ kvs ↔ kvs.lookup k = some v := by
  induction kvs with
  | nil => simp
  | cons kv kvs ih =>
    rcases kv with ⟨a, b⟩
    rw [List.map_cons, List.nodup_cons] at h
    rw [List.mem_cons, ih h.2, lookup_cons_eq_ite]
    by_cases hk : k = a
    · subst hk
      rw [lookup_eq_none_iff_notMem.mpr h.1]
      simp [eq_comm]
    · simp [hk]

theorem lists_of_lookup {map : Finmap fun _ : K => V} (h : (kvs.map Prod.fst).Nodup)
    (hlookup : ∀ k, kvs.lookup k = map.lookup k) : Lists kvs map := by
  refine ⟨h, ?_⟩
  intro k v
  rw [mem_iff_lookup h, hlookup]

theorem Lists.lookup {map : Finmap fun _ : K => V} (h : Lists kvs map) (k : K) :
    kvs.lookup k = map.lookup k := by
  rw [Option.ext_iff]
  intro v
  rw [← mem_iff_lookup h.distinct, h.mem_iff]

theorem Lists.mem_keys_iff {map : Finmap fun _ : K => V} (h : Lists kvs map) :
    k ∈ kvs.map Prod.fst ↔ k ∈ map := by
  rw [← Finmap.lookup_isSome, ← h.lookup, ← not_iff_not, ← lookup_eq_none_iff_notMem,
    Option.not_isSome_iff_eq_none]

theorem Lists.card_keys {map : Finmap fun _ : K => V} (h : Lists kvs map) :
    map.keys.card = kvs.length := by
  have hkeys : map.keys = (kvs.map Prod.fst).toFinset := by
    ext k
    rw [Finmap.mem_keys, List.mem_toFinset, h.mem_keys_iff]
  rw [hkeys, List.toFinset_card_of_nodup h.distinct, List.length_map]

/-- Two lists of the same map differ in the order at most. -/
theorem Lists.perm {map : Finmap fun _ : K => V} {kvs' : List (K × V)} (h : Lists kvs map)
    (h' : Lists kvs' map) : kvs.Perm kvs' := by
  rw [List.perm_ext_iff_of_nodup (List.Nodup.of_map _ h.distinct) (List.Nodup.of_map _ h'.distinct)]
  rintro ⟨k, v⟩
  rw [h.mem_iff, h'.mem_iff]

end Growable.SharedMap
