import Growable.Proofs.SharedMap.Ledger

/-!
# A ledger spread over buckets

The table of a map that one thread has used is determined by the ledger of its keys, the hash
function and the number of buckets: each bucket has the lines whose hash selects it, in the order of
the ledger. An errand in the bucket of its key and a resizing to a multiple of the buckets both lead
to such a table again.
-/

namespace Growable.SharedMap

variable {K V : Type}

/-- The lines of a ledger whose hashes select bucket `b` of `n`. -/
def inBucket (hash : K → UInt64) (kvs : Ledger K V) (n b : Nat) : List (Entry K V) :=
  (kvs.filter fun kv => bucketOf (hash kv.1) n == b).map (entryOf hash)

/-- The lines of a ledger in `n` buckets. -/
def tableOf (hash : K → UInt64) (kvs : Ledger K V) (n : Nat) : Table K V :=
  (Array.range n).map fun b => { entries := inBucket hash kvs n b }

variable {hash : K → UInt64} {kvs : Ledger K V} {n b : Nat}

theorem bucketOf_lt (h : UInt64) (hn : 0 < n) : bucketOf h n < n := Nat.mod_lt _ hn

theorem bucketOf_mod {m : Nat} (h : UInt64) (hdvd : m ∣ n) : bucketOf h n % m = bucketOf h m :=
  Nat.mod_mod_of_dvd _ hdvd

@[simp] theorem size_tableOf : (tableOf hash kvs n).size = n := by
  simp [tableOf]

theorem getElem?_tableOf (hash : K → UInt64) (kvs : Ledger K V) (n b : Nat) :
    (tableOf hash kvs n)[b]? = if b < n then some { entries := inBucket hash kvs n b } else none := by
  rw [tableOf, Array.getElem?_map, Array.getElem?_range]
  split
  · rfl
  · rfl

theorem tableEntries_tableOf (hash : K → UInt64) (kvs : Ledger K V) (n : Nat) :
    tableEntries (tableOf hash kvs n) = (List.range n).flatMap (inBucket hash kvs n) := by
  rw [tableEntries, tableOf, Array.toList_map, Array.toList_range, List.flatMap_map]

theorem entriesAt_tableOf (hash : K → UInt64) (kvs : Ledger K V) (hb : b < n) :
    entriesAt (tableOf hash kvs n) b = inBucket hash kvs n b := by
  rw [entriesAt, getElem?_tableOf, if_pos hb]
  rfl

theorem isTaken_tableOf (hash : K → UInt64) (kvs : Ledger K V) (n b : Nat) :
    isTaken (tableOf hash kvs n) b = false := by
  rw [isTaken, getElem?_tableOf]
  split
  · rfl
  · rfl

theorem emptyTable_eq_tableOf (hash : K → UInt64) (n : Nat) :
    (emptyTable n : Table K V) = tableOf hash [] n := by
  apply Array.ext_getElem?
  intro b
  rw [getElem?_tableOf, emptyTable, Array.getElem?_replicate]
  rfl

/-! ## Errands -/

section

variable [DecidableEq K]

theorem inBucket_applyTo (hash : K → UInt64) (e : Errand K V) (kvs : Ledger K V) (n b : Nat) :
    inBucket hash (e.applyTo kvs) n b =
      if bucketOf (hash e.key) n = b then
        (e.perform (hash e.key) (inBucket hash kvs n b)).1
      else inBucket hash kvs n b := by
  have hfilter := filter_applyTo (fun k => bucketOf (hash k) n == b) e kvs
  rw [inBucket, hfilter, inBucket, perform_map_entryOf]
  by_cases hb : bucketOf (hash e.key) n = b
  · rw [if_pos hb, if_pos (beq_iff_eq.mpr hb)]
  · rw [if_neg hb, if_neg (mt beq_iff_eq.mp hb)]

/-- What an errand does in the bucket of its key is what it does to the ledger. -/
theorem setEntries_tableOf (hash : K → UInt64) (e : Errand K V) (kvs : Ledger K V) (hn : 0 < n) :
    setEntries (tableOf hash kvs n) (bucketOf (hash e.key) n)
      (e.perform (hash e.key)
        (entriesAt (tableOf hash kvs n) (bucketOf (hash e.key) n))).1 =
      tableOf hash (e.applyTo kvs) n := by
  rw [entriesAt_tableOf hash kvs (bucketOf_lt _ hn), setEntries]
  apply Array.ext_getElem?
  intro b
  rw [Array.getElem?_modify, getElem?_tableOf, getElem?_tableOf, inBucket_applyTo]
  by_cases hb : bucketOf (hash e.key) n = b
  · subst hb
    rw [if_pos rfl, if_pos rfl, if_pos (bucketOf_lt _ hn), if_pos (bucketOf_lt _ hn)]
    rfl
  · rw [if_neg hb, if_neg hb]

/-- An errand finds in the bucket of its key what it would find in the ledger. -/
theorem answer_perform_tableOf (hash : K → UInt64) (e : Errand K V) (kvs : Ledger K V)
    (hn : 0 < n) :
    (e.perform (hash e.key) (entriesAt (tableOf hash kvs n) (bucketOf (hash e.key) n))).2 =
      if e.adds (kvs.lookup e.key) then none else some (e.answerTo (kvs.lookup e.key)) := by
  have hpart : (kvs.filter fun kv => bucketOf (hash kv.1) n == bucketOf (hash e.key) n).lookup e.key =
      kvs.lookup e.key :=
    lookup_filter (p := fun k => bucketOf (hash k) n == bucketOf (hash e.key) n)
      (beq_self_eq_true _) kvs
  rw [entriesAt_tableOf hash kvs (bucketOf_lt _ hn), inBucket, perform_map_entryOf, hpart]

end

/-! ## Resizing -/

theorem getElem?_pushEntry (t : Table K V) (e : Entry K V) (b : Nat) :
    (pushEntry t e)[b]? = t[b]?.map fun bucket =>
      { bucket with
        entries := bucket.entries ++ [e].filter fun e => bucketOf e.hash t.size == b } := by
  rw [pushEntry, Array.getElem?_modify]
  by_cases hb : bucketOf e.hash t.size = b
  · simp [hb]
  · simp [hb]

@[simp] theorem size_pushEntry (t : Table K V) (e : Entry K V) : (pushEntry t e).size = t.size := by
  rw [pushEntry, Array.size_modify]

theorem getElem?_foldl_pushEntry (es : List (Entry K V)) (t : Table K V) (b : Nat) :
    (es.foldl pushEntry t)[b]? = t[b]?.map fun bucket =>
      { bucket with
        entries := bucket.entries ++ es.filter fun e => bucketOf e.hash t.size == b } := by
  induction es generalizing t with
  | nil => simp
  | cons e es ih =>
    rw [List.foldl_cons, ih, getElem?_pushEntry, size_pushEntry, Option.map_map]
    refine congrArg (fun f => t[b]?.map f) (funext fun bucket => ?_)
    rw [show e :: es = [e] ++ es from rfl, List.filter_append, ← List.append_assoc]
    rfl

theorem size_rehash (t : Table K V) (n : Nat) : (rehash t n).size = n := by
  have hsize (es : List (Entry K V)) (t : Table K V) : (es.foldl pushEntry t).size = t.size := by
    induction es generalizing t with
    | nil => rfl
    | cons e es ih => rw [List.foldl_cons, ih, size_pushEntry]
  rw [rehash, hsize, emptyTable, Array.size_replicate]

/-- Of a bucket of a smaller table, either all lines that belong into bucket `b` of the larger one
come from it, or none does. -/
theorem filter_inBucket {m : Nat} (hash : K → UInt64) (kvs : Ledger K V) (hdvd : m ∣ n) (i b : Nat) :
    (inBucket hash kvs m i).filter (fun e => bucketOf e.hash n == b) =
      if i = b % m then inBucket hash kvs n b else [] := by
  rw [inBucket, List.filter_map, List.filter_filter]
  by_cases hi : i = b % m
  · rw [if_pos hi, inBucket]
    refine congrArg (List.map (entryOf hash)) (List.filter_congr ?_)
    intro kv _
    by_cases hb : bucketOf (hash kv.1) n = b
    · have hm : bucketOf (hash kv.1) m = i := by rw [hi, ← hb, bucketOf_mod _ hdvd]
      simp [entryOf, hb, hm]
    · simp [entryOf, hb]
  · rw [if_neg hi, List.map_eq_nil_iff, List.filter_eq_nil_iff]
    intro kv _ hkv
    obtain ⟨hb, hm⟩ := Bool.and_eq_true_iff.mp hkv
    have hb : bucketOf (hash kv.1) n = b := beq_iff_eq.mp hb
    have hm : bucketOf (hash kv.1) m = i := beq_iff_eq.mp hm
    exact hi (by rw [← hm, ← hb, bucketOf_mod _ hdvd])

theorem flatMap_range_ite {τ : Type} (l : List τ) (m j : Nat) :
    ((List.range m).flatMap fun i => if i = j then l else []) = if j < m then l else [] := by
  induction m with
  | zero => simp
  | succ m ih =>
    rw [List.range_succ, List.flatMap_append, ih, List.flatMap_singleton]
    rcases Nat.lt_trichotomy j m with hlt | rfl | hgt
    · rw [if_pos hlt, if_neg (by omega), if_pos (by omega), List.append_nil]
    · rw [if_neg (by omega), if_pos rfl, if_pos (by omega), List.nil_append]
    · rw [if_neg (by omega), if_neg (by omega), if_neg (by omega), List.append_nil]

/-- A table is spread over a multiple of its buckets as the ledger is. -/
theorem rehash_tableOf {m : Nat} (hash : K → UInt64) (kvs : Ledger K V) (hm : 0 < m)
    (hdvd : m ∣ n) : rehash (tableOf hash kvs m) n = tableOf hash kvs n := by
  have hfilter (b : Nat) : (tableEntries (tableOf hash kvs m)).filter
      (fun e => bucketOf e.hash n == b) = inBucket hash kvs n b := by
    rw [tableEntries_tableOf, List.filter_flatMap]
    simp only [filter_inBucket hash kvs hdvd]
    rw [flatMap_range_ite, if_pos (Nat.mod_lt b hm)]
  apply Array.ext_getElem?
  intro b
  rw [rehash, getElem?_foldl_pushEntry, getElem?_tableOf, emptyTable, Array.getElem?_replicate,
    Array.size_replicate, hfilter]
  split
  · rfl
  · rfl

/-! ## Walking through a table -/

/-- The keys and values of a table, bucket by bucket. -/
def tablePairs (t : Table K V) : List (K × V) :=
  (tableEntries t).map fun e => (e.key, e.value)

theorem tablePairs_tableOf (hash : K → UInt64) (kvs : Ledger K V) (n : Nat) :
    tablePairs (tableOf hash kvs n) =
      (List.range n).flatMap fun b => kvs.filter fun kv => bucketOf (hash kv.1) n == b := by
  rw [tablePairs, tableEntries_tableOf, List.map_flatMap]
  refine congrArg (fun f => (List.range n).flatMap f) (funext fun b => ?_)
  rw [inBucket, List.map_map]
  exact List.map_id _

/-- Buckets have no key in common, even if they are those of different ledgers. -/
theorem nodup_keys_flatMap (hash : K → UInt64) (n count : Nat) {kvs : Nat → Ledger K V}
    (h : ∀ b < count, ((kvs b).map Prod.fst).Nodup) :
    (((List.range count).flatMap fun b =>
      (kvs b).filter fun kv => bucketOf (hash kv.1) n == b).map Prod.fst).Nodup := by
  rw [List.map_flatMap, List.nodup_flatMap]
  constructor
  · intro b hb
    exact (h b (List.mem_range.mp hb)).sublist (List.filter_sublist.map Prod.fst)
  · apply List.nodup_range.imp
    intro i j hij k hi hj
    obtain ⟨kv, hmem, rfl⟩ := List.mem_map.mp hi
    obtain ⟨kv', hmem', hkey⟩ := List.mem_map.mp hj
    have hi' := beq_iff_eq.mp (List.mem_filter.mp hmem).2
    have hj' := beq_iff_eq.mp (List.mem_filter.mp hmem').2
    rw [hkey] at hj'
    exact hij (hi'.symm.trans hj')

theorem lists_tablePairs [DecidableEq K] {map : Finmap fun _ : K => V} (hn : 0 < n)
    (h : Lists kvs map) : Lists (tablePairs (tableOf hash kvs n)) map := by
  rw [tablePairs_tableOf]
  constructor
  · exact nodup_keys_flatMap hash n n fun _ _ => h.distinct
  · intro k v
    rw [← h.mem_iff, List.mem_flatMap]
    constructor
    · rintro ⟨b, -, hmem⟩
      exact (List.mem_filter.mp hmem).1
    · intro hmem
      refine ⟨bucketOf (hash k) n, List.mem_range.mpr (bucketOf_lt _ hn), ?_⟩
      rw [List.mem_filter]
      exact ⟨hmem, beq_self_eq_true _⟩

end Growable.SharedMap
