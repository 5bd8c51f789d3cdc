import Growable.Proofs.SharedMap.Alone

/-!
# A shared map as a finite map

To a thread by itself a shared map is a finite map and a number of buckets. `Reference` is that
machine: it knows no hashes, no order and no locks. Whatever the hash function, and however often
the table was resized in between, a shared map answers every sequence of calls as the reference
does, so that nothing but the order in which entries are walked through depends on the hashes.
-/

namespace Growable.SharedMap

/-! ## Numbers of buckets -/

/-- The number of buckets once there are `len` entries. -/
def roomFor (len buckets : Nat) : Nat :=
  if isOverLoaded len buckets then grownBuckets len (2 * buckets) else buckets

theorem doubled_eq (len times buckets : Nat) : ∃ i, doubled len times buckets = 2 ^ i * buckets := by
  induction times generalizing buckets with
  | zero => exact ⟨0, (Nat.one_mul _).symm⟩
  | succ times ih =>
    unfold doubled
    split
    · obtain ⟨i, hi⟩ := ih (2 * buckets)
      refine ⟨i + 1, ?_⟩
      rw [hi, Nat.pow_succ, Nat.mul_assoc]
    · exact ⟨0, (Nat.one_mul _).symm⟩

/-- A table grows by doubling. -/
theorem roomFor_eq (len buckets : Nat) : ∃ i, roomFor len buckets = 2 ^ i * buckets := by
  unfold roomFor
  split
  · obtain ⟨i, hi⟩ := doubled_eq len 64 (2 * buckets)
    refine ⟨i + 1, ?_⟩
    rw [grownBuckets, hi, Nat.pow_succ, Nat.mul_assoc]
  · exact ⟨0, (Nat.one_mul _).symm⟩

theorem bucketsFor_eq (capacity : Nat) : ∃ i, bucketsFor capacity = 2 ^ i := by
  rw [bucketsFor, powerFrom]
  split
  · exact ⟨0, rfl⟩
  · exact ⟨_, Nat.one_shiftLeft _⟩

/-- A table that is resized, or found large enough, has the ledger in its buckets as before. -/
theorem grow_tableOf {K V : Type} (hash : K → UInt64) (kvs : Ledger K V) {n : Nat} (hn : 0 < n)
    (len : Nat) (journal : List Record) :
    ∃ journal', grow (⟨{}, tableOf hash kvs n, len, journal⟩ : Shared .layout K V) =
      ⟨{}, tableOf hash kvs (roomFor len n), len, journal'⟩ := by
  cases hload : isOverLoaded len n with
  | true =>
    rw [grow_of_isOverLoaded (by rw [size_tableOf]; exact hload), size_tableOf]
    obtain ⟨i, hi⟩ := roomFor_eq len n
    have hroom : roomFor len n = grownBuckets len (2 * n) := by rw [roomFor, if_pos hload]
    refine ⟨.resizing n (roomFor len n) len :: journal, ?_⟩
    rw [← hroom, rehash_tableOf hash kvs hn ⟨2 ^ i, by rw [hi, Nat.mul_comm]⟩]
  | false =>
    rw [grow_of_not_isOverLoaded (by rw [size_tableOf]; exact hload), roomFor,
      if_neg (by simp [hload])]
    exact ⟨journal, rfl⟩

/-! ## The reference -/

/-- A finite map, and the number of buckets set aside for it. -/
structure Reference (K V : Type) where
  map : Finmap fun _ : K => V
  buckets : Nat

namespace Reference

variable {K V : Type} [DecidableEq K]

/-- No entry, and room for `capacity` entries. -/
def ofCapacity (capacity : Nat) : Reference K V := ⟨∅, bucketsFor capacity⟩

/-- The key has this value from now on. -/
def put (r : Reference K V) (k : K) (v : V) : Reference K V where
  map := r.map.insert k v
  buckets := if k ∈ r.map then r.buckets else roomFor (r.map.keys.card + 1) r.buckets

/-- The reference after a call. -/
def next (r : Reference K V) : Call K V → Reference K V
  | .errand (.insert k v) => r.put k v
  | .errand (.insertIfAbsent k v) => if k ∈ r.map then r else r.put k v
  | _ => r

/-- The answers that a call may get. Only entries may come in any order. -/
def Answers (r : Reference K V) : Call K V → Answer K V → Prop
  | .errand (.insert k _), a => a = .found (r.map.lookup k)
  | .errand (.insertIfAbsent k _), a => a = .found (r.map.lookup k)
  | .errand (.get k), a => a = .found (r.map.lookup k)
  | .errand (.contains k), a => a = .truth (decide (k ∈ r.map))
  | .entries, a => ∃ kvs, a = .entries kvs ∧ Lists kvs r.map
  | .length, a => a = .count r.map.keys.card
  | .capacity, a => a = .count r.buckets

/-- The reference after calls. -/
def after (r : Reference K V) (calls : List (Call K V)) : Reference K V := calls.foldl next r

end Reference

section

variable {K V : Type} [DecidableEq K]

/-- The keys that calls insert. -/
def insertedKeys (calls : List (Call K V)) : List K :=
  calls.filterMap fun
    | .errand (.insert k _) => some k
    | .errand (.insertIfAbsent k _) => some k
    | _ => none

/-- The map after calls that one thread performs one after the other. -/
def after (m : SharedMap K V) (calls : List (Call K V)) : SharedMap K V :=
  calls.foldl (fun m c => (m.perform c).1) m

/-- A shared map that nobody is in stands for the reference: its table has the lines of a ledger in
their buckets, the ledger lists the finite map, and every line is counted. -/
structure Represents (m : SharedMap K V) (r : Reference K V) (kvs : Ledger K V) : Prop where
  gate : m.shared.gate = {}
  table : m.shared.table = tableOf m.hash kvs r.buckets
  length : m.shared.length = kvs.length
  lists : Lists kvs r.map
  power : ∃ i, r.buckets = 2 ^ i

variable {m : SharedMap K V} {r : Reference K V} {kvs : Ledger K V}

theorem Represents.pos (h : Represents m r kvs) : 0 < r.buckets := by
  obtain ⟨i, hi⟩ := h.power
  rw [hi]
  exact Nat.two_pow_pos i

theorem Represents.isTaken (h : Represents m r kvs) (b : Nat) :
    isTaken m.shared.table b = false := by
  rw [h.table]
  exact isTaken_tableOf m.hash kvs r.buckets b

theorem Represents.card (h : Represents m r kvs) : m.shared.length = r.map.keys.card := by
  rw [h.length, h.lists.card_keys]

theorem represents_ofCapacity (hash : K → UInt64) (capacity : Nat) :
    Represents (ofCapacity hash capacity : SharedMap K V) (.ofCapacity capacity) [] where
  gate := rfl
  table := emptyTable_eq_tableOf hash (bucketsFor capacity)
  length := rfl
  lists := lists_of_lookup List.nodup_nil fun _ => rfl
  power := bucketsFor_eq capacity

/-! ## Errands -/

theorem Lists.record {map : Finmap fun _ : K => V} (h : Lists kvs map) (k : K) (v : V) :
    Lists (record k v kvs) (map.insert k v) := by
  apply lists_of_lookup (distinct_record h.distinct k v)
  intro k'
  rw [lookup_record]
  by_cases hk : k' = k
  · subst hk
    rw [if_pos rfl, Finmap.lookup_insert]
  · rw [if_neg hk, Finmap.lookup_insert_of_ne _ hk, h.lookup]

theorem Lists.isSome_lookup {map : Finmap fun _ : K => V} (h : Lists kvs map) (k : K) :
    (kvs.lookup k).isSome = true ↔ k ∈ map := by
  rw [h.lookup, Finmap.lookup_isSome]

/-- An errand does to the ledger what it does to the finite map. -/
theorem Lists.applyTo (h : Lists kvs r.map) (e : Errand K V) :
    Lists (e.applyTo kvs) (r.next (.errand e)).map := by
  cases e with
  | insert k v => exact h.record k v
  | insertIfAbsent k v =>
    rw [Errand.applyTo, Reference.next]
    by_cases hk : k ∈ r.map
    · rw [if_pos ((h.isSome_lookup k).mpr hk), if_pos hk]
      exact h
    · rw [if_neg (mt (h.isSome_lookup k).mp hk), if_neg hk]
      exact h.record k v
  | get k => exact h
  | contains k => exact h

/-- Buckets are added for a new key only. -/
theorem Lists.buckets_next (h : Lists kvs r.map) (e : Errand K V) :
    (r.next (.errand e)).buckets =
      if e.adds (kvs.lookup e.key) then roomFor (kvs.length + 1) r.buckets else r.buckets := by
  have hput (k : K) (v : V) : (r.put k v).buckets =
      if (kvs.lookup k).isNone then roomFor (kvs.length + 1) r.buckets else r.buckets := by
    rw [Reference.put, h.lookup, h.card_keys]
    by_cases hk : k ∈ r.map
    · obtain ⟨v', hv'⟩ := Finmap.mem_iff.mp hk
      simp [hk, hv']
    · simp [hk, Finmap.lookup_eq_none.mpr hk]
  cases e with
  | insert k v => exact hput k v
  | insertIfAbsent k v =>
    rw [Reference.next]
    by_cases hk : k ∈ r.map
    · obtain ⟨v', hv'⟩ := Option.isSome_iff_exists.mp ((h.isSome_lookup k).mpr hk)
      rw [if_pos hk, show (Errand.insertIfAbsent k v).key = k from rfl, hv']
      rfl
    · rw [if_neg hk]
      exact hput k v
  | get k => rfl
  | contains k => rfl

theorem Lists.answerTo (h : Lists kvs r.map) (e : Errand K V) :
    r.Answers (.errand e) (e.answerTo (kvs.lookup e.key)) := by
  cases e with
  | insert k v => exact congrArg Answer.found (h.lookup k)
  | insertIfAbsent k v => exact congrArg Answer.found (h.lookup k)
  | get k => exact congrArg Answer.found (h.lookup k)
  | contains k =>
    apply congrArg Answer.truth
    rw [Bool.eq_iff_iff, decide_eq_true_iff]
    exact h.isSome_lookup k

/-- An errand is answered by the reference, and leaves a shared map that stands for the next one. -/
theorem Represents.visit (h : Represents m r kvs) (e : Errand K V) :
    r.Answers (.errand e) (m.shared.visit m.hash e).2 ∧
      Represents ⟨m.hash, (m.shared.visit m.hash e).1⟩ (r.next (.errand e)) (e.applyTo kvs) := by
  have hpos := h.pos
  have hlists := h.lists.applyTo e
  have hbuckets := h.lists.buckets_next e
  have hanswers := h.lists.answerTo e
  have hlength := length_applyTo e kvs
  rcases m with ⟨hash, ⟨gate, t, len, journal⟩⟩
  obtain rfl : gate = {} := h.gate
  obtain rfl : t = tableOf hash kvs r.buckets := h.table
  obtain rfl : len = kvs.length := h.length
  have hanswer := answer_perform_tableOf hash e kvs hpos
  have hset := setEntries_tableOf hash e kvs hpos
  simp only [Shared.visit, size_tableOf, hset]
  cases hadds : e.adds (kvs.lookup e.key) with
  | true =>
    rw [hadds, if_pos rfl] at hanswer hbuckets hlength
    rw [Errand.answerTo_of_adds hadds] at hanswers
    rw [hanswer]
    obtain ⟨journal', hgrow⟩ :=
      grow_tableOf hash (e.applyTo kvs) hpos (kvs.length + 1) journal
    simp only [hgrow]
    obtain ⟨i, hi⟩ := h.power
    obtain ⟨j, hj⟩ := roomFor_eq (kvs.length + 1) r.buckets
    refine ⟨hanswers, rfl, ?_, hlength.symm, hlists, j + i, ?_⟩
    · rw [hbuckets]
    · rw [hbuckets, hj, hi, Nat.pow_add]
  | false =>
    rw [hadds, if_neg Bool.false_ne_true] at hanswer hbuckets hlength
    rw [hanswer]
    refine ⟨hanswers, rfl, ?_, hlength.symm, hlists, ?_⟩
    · rw [hbuckets]
    · rw [hbuckets]
      exact h.power

/-! ## Calls -/

theorem Represents.perform_eq (h : Represents m r kvs) (c : Call K V) :
    m.perform c =
      (⟨m.hash, (m.shared.perform m.hash c).1⟩, some (m.shared.perform m.hash c).2) :=
  SharedMap.perform_eq m h.gate h.isTaken c

theorem Represents.lists_entries (h : Represents m r kvs) :
    Lists (tablePairs m.shared.table) r.map := by
  rw [h.table]
  exact lists_tablePairs h.pos h.lists

/-- Every call is answered as the reference allows. -/
theorem Represents.answers (h : Represents m r kvs) (c : Call K V) :
    r.Answers c (m.shared.perform m.hash c).2 := by
  cases c with
  | errand e => exact (h.visit e).1
  | entries => exact ⟨_, rfl, h.lists_entries⟩
  | length => exact congrArg Answer.count h.card
  | capacity =>
    apply congrArg Answer.count
    rw [h.table, size_tableOf]

/-- What a call makes of a ledger. -/
def Call.applyTo (kvs : Ledger K V) : Call K V → Ledger K V
  | errand e => e.applyTo kvs
  | entries | length | capacity => kvs

theorem Represents.perform (h : Represents m r kvs) (c : Call K V) :
    Represents (m.perform c).1 (r.next c) (c.applyTo kvs) := by
  rw [h.perform_eq]
  cases c with
  | errand e => exact (h.visit e).2
  | entries => exact h
  | length => exact h
  | capacity => exact h

theorem Represents.next (h : Represents m r kvs) (c : Call K V) :
    ∃ kvs', Represents (m.perform c).1 (r.next c) kvs' := ⟨_, h.perform c⟩

theorem Represents.entries_eq (h : Represents m r kvs) :
    m.entries = ((m.perform .entries).1, tablePairs m.shared.table) := by
  rw [SharedMap.entries, h.perform_eq]
  rfl

theorem Reference.Answers.eq {c : Call K V} {a a' : Answer K V} (hc : c ≠ .entries)
    (ha : r.Answers c a) (ha' : r.Answers c a') : a = a' := by
  cases c with
  | errand e => cases e <;> exact Eq.trans ha (Eq.symm ha')
  | entries => exact absurd rfl hc
  | length => exact Eq.trans ha (Eq.symm ha')
  | capacity => exact Eq.trans ha (Eq.symm ha')

theorem Reference.mem_next_iff (r : Reference K V) (c : Call K V) (k : K) :
    k ∈ (r.next c).map ↔ k ∈ insertedKeys [c] ∨ k ∈ r.map := by
  have hput (k' : K) (v : V) : k ∈ (r.put k' v).map ↔ k ∈ [k'] ∨ k ∈ r.map := by
    rw [Reference.put, Finmap.mem_insert, List.mem_singleton]
  cases c with
  | errand e =>
    cases e with
    | insert k' v => exact hput k' v
    | insertIfAbsent k' v =>
      rw [Reference.next]
      by_cases hk : k' ∈ r.map
      · rw [if_pos hk]
        change k ∈ r.map ↔ k ∈ [k'] ∨ k ∈ r.map
        rw [List.mem_singleton]
        constructor
        · exact .inr
        · rintro (rfl | h)
          · exact hk
          · exact h
      · rw [if_neg hk]
        exact hput k' v
    | get k' => exact (or_iff_right List.not_mem_nil).symm
    | contains k' => exact (or_iff_right List.not_mem_nil).symm
  | entries => exact (or_iff_right List.not_mem_nil).symm
  | length => exact (or_iff_right List.not_mem_nil).symm
  | capacity => exact (or_iff_right List.not_mem_nil).symm

/-- The keys of the reference are those that were inserted. -/
theorem Reference.keys_after (capacity : Nat) (calls : List (Call K V)) :
    ((Reference.ofCapacity capacity).after calls).map.keys = (insertedKeys calls).toFinset := by
  have hafter : ∀ (calls : List (Call K V)) (r : Reference K V) (k : K),
      k ∈ (r.after calls).map ↔ k ∈ insertedKeys calls ∨ k ∈ r.map := by
    intro calls
    induction calls with
    | nil => exact fun r k => (or_iff_right List.not_mem_nil).symm
    | cons c calls ih =>
      intro r k
      have hcons : insertedKeys (c :: calls) = insertedKeys [c] ++ insertedKeys calls :=
        List.filterMap_append (l := [c])
      rw [Reference.after, List.foldl_cons, ← Reference.after, ih, mem_next_iff, hcons,
        List.mem_append, ← or_assoc, or_comm (a := k ∈ insertedKeys calls)]
  ext k
  rw [Finmap.mem_keys, hafter, List.mem_toFinset]
  exact or_iff_left Finmap.notMem_empty

end

end Growable.SharedMap
