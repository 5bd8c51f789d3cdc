import Growable.Proofs.SharedMap.Sizing
import Growable.Proofs.SharedMap.Visits

/-!
# Where entries are, and in which order

A map that one thread uses is laid out by its hash function, by the number of its buckets and by the
order in which its keys first came in. How often it was resized on the way does not show, nor do
the values that were replaced: each bucket has the keys whose hashes select it in the order in which
they came in, each with its latest value, and a walk goes through the buckets in their order.
-/

namespace Growable.SharedMap

section

variable {K V : Type} [DecidableEq K]

/-! ## Keys and values without a table -/

/-- The distinct keys that calls insert, in the order in which they first come in. -/
def keysInOrder (calls : List (Call K V)) : List K := (insertedKeys calls).eraseDups

/-- What a call makes of the value under a key. -/
def Call.revalue (k : K) (v? : Option V) : Call K V → Option V
  | errand (.insert k' v) => if k' = k then some v else v?
  | errand (.insertIfAbsent k' v) => if k' = k then some (v?.getD v) else v?
  | _ => v?

/-- The value under a key after calls. -/
def latestValue? (k : K) (calls : List (Call K V)) : Option V :=
  calls.foldl (fun v? c => c.revalue k v?) none

/-- The keys whose hashes select bucket `b` of `n`, in the order in which they first come in. -/
def keysIn (hash : K → UInt64) (calls : List (Call K V)) (n b : Nat) : List K :=
  (keysInOrder calls).filter fun k => (hash k).toNat &&& (n - 1) == b

/-! ## The ledger of calls -/

/-- What calls come to, one after the other. -/
def ledgerAfter (calls : List (Call K V)) : Ledger K V :=
  calls.foldl (fun kvs c => c.applyTo kvs) []

theorem ledgerAfter_concat (calls : List (Call K V)) (c : Call K V) :
    ledgerAfter (calls ++ [c]) = c.applyTo (ledgerAfter calls) := List.foldl_concat ..

variable {kvs : Ledger K V} {k : K}

theorem lookup_callApplyTo (c : Call K V) (kvs : Ledger K V) (k : K) :
    (c.applyTo kvs).lookup k = c.revalue k (kvs.lookup k) := by
  have hrecord (k' : K) (v : V) : (record k' v kvs).lookup k =
      if k' = k then some v else kvs.lookup k := by
    rw [lookup_record]
    exact if_congr eq_comm rfl rfl
  cases c with
  | errand e =>
    cases e with
    | insert k' v => exact hrecord k' v
    | insertIfAbsent k' v =>
      rw [Call.applyTo, Errand.applyTo, Call.revalue]
      by_cases hk : k' = k
      · subst hk
        cases hold : kvs.lookup k' with
        | none => simp [hrecord]
        | some old => simp [hold]
      · rw [if_neg hk]
        split
        · rfl
        · rw [hrecord, if_neg hk]
    | get k' => rfl
    | contains k' => rfl
  | entries => rfl
  | length => rfl
  | capacity => rfl

theorem keys_callApplyTo (c : Call K V) (kvs : Ledger K V) :
    (c.applyTo kvs).map Prod.fst =
      kvs.map Prod.fst ++ c.inserted?.toList.filter (· ∉ kvs.map Prod.fst) := by
  have hrecord (k : K) (v : V) : (record k v kvs).map Prod.fst =
      kvs.map Prod.fst ++ [k].filter (· ∉ kvs.map Prod.fst) := by
    by_cases hk : k ∈ kvs.map Prod.fst
    · rw [keys_record_of_mem hk, List.filter_singleton]
      simp only [hk, not_true_eq_false, decide_false, cond_false, List.append_nil]
    · rw [record_of_lookup_eq_none (lookup_eq_none_iff_notMem.mpr hk), List.map_append,
        List.filter_singleton]
      simp only [hk, not_false_eq_true, decide_true, cond_true]
      rfl
  have hnothing : kvs.map Prod.fst = kvs.map Prod.fst ++ [] := (List.append_nil _).symm
  cases c with
  | errand e =>
    cases e with
    | insert k v => exact hrecord k v
    | insertIfAbsent k v =>
      rw [Call.applyTo, Errand.applyTo]
      split
      · rename_i hsome
        have hmem : k ∈ kvs.map Prod.fst := by
          rw [← not_not (a := k ∈ _), ← lookup_eq_none_iff_notMem]
          exact fun hnone => by simp [hnone] at hsome
        exact (keys_record_of_mem hmem).symm.trans (hrecord k v)
      · exact hrecord k v
    | get k => exact hnothing
    | contains k => exact hnothing
  | entries => exact hnothing
  | length => exact hnothing
  | capacity => exact hnothing

omit [DecidableEq K] in
theorem eraseDups_append_toList [DecidableEq K] (ks : List K) (k? : Option K) :
    (ks ++ k?.toList).eraseDups = ks.eraseDups ++ k?.toList.filter (· ∉ ks.eraseDups) := by
  rw [List.eraseDups_append]
  cases k? with
  | none => rfl
  | some k => by_cases hk : k ∈ ks <;> simp [List.removeAll, List.eraseDups_cons, hk]

theorem keys_ledgerAfter (calls : List (Call K V)) :
    (ledgerAfter calls).map Prod.fst = keysInOrder calls := by
  induction calls using List.reverseRecOn with
  | nil => rfl
  | append_singleton calls c ih =>
    rw [ledgerAfter_concat, keys_callApplyTo, ih, keysInOrder, keysInOrder, insertedKeys_concat,
      eraseDups_append_toList]

theorem lookup_ledgerAfter (k : K) (calls : List (Call K V)) :
    (ledgerAfter calls).lookup k = latestValue? k calls := by
  induction calls using List.reverseRecOn with
  | nil => rfl
  | append_singleton calls c ih =>
    rw [ledgerAfter_concat, lookup_callApplyTo, ih, latestValue?, latestValue?, List.foldl_concat]

theorem length_ledgerAfter_take_le (calls : List (Call K V)) (n : Nat) :
    (ledgerAfter (calls.take n)).length ≤ (ledgerAfter calls).length := by
  have hle (calls more : List (Call K V)) :
      (ledgerAfter calls).length ≤ (ledgerAfter (calls ++ more)).length := by
    induction more using List.reverseRecOn with
    | nil => rw [List.append_nil]
    | append_singleton more c ih =>
      have hkeys := congrArg List.length (keys_callApplyTo c (ledgerAfter (calls ++ more)))
      rw [List.length_map, List.length_append, List.length_map] at hkeys
      rw [← List.append_assoc, ledgerAfter_concat, hkeys]
      exact Nat.le_add_right_of_le ih
  have hsplit := hle (calls.take n) (calls.drop n)
  rwa [List.take_append_drop] at hsplit

/-- Some lines of the ledger, each with the value that its key has. -/
theorem map_filter_ledgerAfter (p : K → Bool) {calls : List (Call K V)}
    (hdistinct : ((ledgerAfter calls).map Prod.fst).Nodup) :
    ((ledgerAfter calls).filter fun kv => p kv.1).map (fun kv => (kv.1, some kv.2)) =
      ((keysInOrder calls).filter p).map fun k => (k, latestValue? k calls) := by
  rw [← keys_ledgerAfter, List.filter_map, List.map_map]
  refine List.map_congr_left fun kv hkv => ?_
  have hlookup := (mem_iff_lookup hdistinct).mp (List.mem_filter.mp hkv).1
  rw [Function.comp_apply, ← lookup_ledgerAfter, hlookup]

/-! ## The map after calls -/

theorem after_concat (m : SharedMap K V) (calls : List (Call K V)) (c : Call K V) :
    m.after (calls ++ [c]) = ((m.after calls).perform c).1 := List.foldl_concat ..

/-- After any calls the table has the lines of their ledger in as many buckets as these need. -/
theorem represents_ledgerAfter (hash : K → UInt64) (capacity : Nat) (calls : List (Call K V)) :
    ∃ r, Represents ((ofCapacity hash capacity).after calls) r (ledgerAfter calls) ∧
      Snug (bucketsFor capacity) (ledgerAfter calls).length r.buckets := by
  induction calls using List.reverseRecOn with
  | nil =>
    refine ⟨_, represents_ofCapacity hash capacity, .of_not_isOverLoaded ?_⟩
    simp [ledgerAfter, isOverLoaded, cappedMul]
  | append_singleton calls c ih =>
    obtain ⟨r, h, hsnug⟩ := ih
    rw [after_concat, ledgerAfter_concat]
    refine ⟨r.next c, h.perform c, ?_⟩
    cases c with
    | errand e =>
      rw [Call.applyTo, h.lists.buckets_next e, length_applyTo]
      split
      · exact hsnug.trans (.roomFor h.pos _) (Nat.le_succ _)
      · exact hsnug
    | entries => exact hsnug
    | length => exact hsnug
    | capacity => exact hsnug

/-! ## The layout -/

variable {m : SharedMap K V} {r : Reference K V} {calls : List (Call K V)}

theorem Represents.capacity_eq (h : Represents m r kvs) : m.capacity = r.buckets := by
  change m.shared.table.size = r.buckets
  rw [h.table, size_tableOf]

theorem Represents.keys_eq (h : Represents m r kvs) :
    m.keys.2 = (tablePairs m.shared.table).map Prod.fst := by
  rw [SharedMap.keys, h.entries_eq]

omit [DecidableEq K] in
/-- The lowest bits of a hash select its bucket. -/
theorem bucketOf_eq_and (h : UInt64) {n j : Nat} (hn : n = 2 ^ j) :
    bucketOf h n = h.toNat &&& (n - 1) := by
  rw [bucketOf, hn, Nat.and_two_pow_sub_one_eq_mod]

theorem Represents.inBucket (h : Represents m r (ledgerAfter calls)) (b : Nat) :
    ((ledgerAfter calls).filter fun kv => bucketOf (m.hash kv.1) r.buckets == b).map
        (fun kv => (kv.1, some kv.2)) =
      (keysIn m.hash calls m.capacity b).map fun k => (k, latestValue? k calls) := by
  obtain ⟨j, hj⟩ := h.power
  rw [map_filter_ledgerAfter (fun k => bucketOf (m.hash k) r.buckets == b) h.lists.distinct,
    keysIn, h.capacity_eq]
  simp only [bucketOf_eq_and _ hj]

theorem Represents.bucket (h : Represents m r (ledgerAfter calls)) {b : Nat}
    (hb : b < m.capacity) :
    (entriesAt m.shared.table b).map (fun e => (e.hash, e.key, some e.value)) =
      (keysIn m.hash calls m.capacity b).map fun k => (m.hash k, k, latestValue? k calls) := by
  have hinBucket := congrArg (List.map fun x : K × Option V => (m.hash x.1, x)) (h.inBucket b)
  rw [List.map_map, List.map_map] at hinBucket
  rw [h.capacity_eq] at hb
  rw [h.table, entriesAt_tableOf _ _ hb, SharedMap.inBucket, List.map_map]
  exact hinBucket

/-- A map that is laid out by the same ledger in as many buckets is the same. -/
theorem Represents.same {m' : SharedMap K V} {r' : Reference K V} (h : Represents m r kvs)
    (h' : Represents m' r' kvs) (hhash : m'.hash = m.hash) (hbuckets : r'.buckets = r.buckets) :
    m'.shared.table = m.shared.table ∧ m'.entries.2 = m.entries.2 ∧ m'.keys.2 = m.keys.2 := by
  have htable : m'.shared.table = m.shared.table := by
    rw [h'.table, h.table, hhash, hbuckets]
  rw [h'.entries_eq, h.entries_eq, h'.keys_eq, h.keys_eq, htable]
  exact ⟨rfl, rfl, rfl⟩

/-- With enough buckets from the first, no call adds any. -/
theorem capacity_of_upFront {hash : K → UInt64} {capacity : Nat}
    (hfits : isOverLoaded (ledgerAfter calls).length (bucketsFor capacity) = false) (n : Nat) :
    ((ofCapacity hash capacity).after (calls.take n)).capacity = bucketsFor capacity := by
  obtain ⟨r, h, hsnug⟩ := represents_ledgerAfter hash capacity (calls.take n)
  rw [h.capacity_eq]
  refine hsnug.eq_of_not_isOverLoaded (Bool.eq_false_iff.mpr fun hload => ?_)
  rw [isOverLoaded_of_len_le hload (length_ledgerAfter_take_le calls n)] at hfits
  cases hfits

/-- With the thirteenth key sixteen buckets become thirty-two, and 17 leaves the bucket that it
shared with 1 and 33. -/
example : ((ofCapacity Hasher.identity 0).after
    ([17, 1, 33, 2, 3, 4, 5, 6, 7, 8, 9, 10, 11].map fun k =>
      .errand (.insertIfAbsent k ()))).keys.2 = [1, 33, 2, 3, 4, 5, 6, 7, 8, 9, 10, 11, 17] := by
  decide +kernel

end

end Growable.SharedMap
