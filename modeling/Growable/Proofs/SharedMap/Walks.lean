import Growable.Proofs.SharedMap.Inserts

/-!
# Walks beside insertions

A walk is in shared mode from its first bucket to its last, so the table has as many buckets all
that time and every key belongs into the same one. It takes down each bucket at a moment of its own,
while it is alone there, and entries go on coming in before it and behind it. What it yields is thus
no state that the map was ever in; but as each key has one bucket, no key is yielded twice, none is
missed that was there before the walk, and each comes with a value that it had.
-/

namespace Growable.SharedMap

open Lock (Gate)

section

variable {K V : Type}

/-! ## Steps of a walk -/

/-- The keys and values in a bucket. -/
def pairsAt (t : Table K V) (b : Nat) : List (K × V) :=
  (entriesAt t b).map fun e => (e.key, e.value)

/-- A bucket has the lines of the ledger whose hashes select it. -/
theorem Spread.pairsAt {hash : K → UInt64} {kvs : Ledger K V} {t : Table K V}
    (h : Spread hash kvs t) {b : Nat} (hb : b < t.size) :
    pairsAt t b = kvs.filter fun kv => bucketOf (hash kv.1) t.size == b := by
  rw [SharedMap.pairsAt, ← entriesAt_bare, h.table, entriesAt_tableOf hash kvs hb, inBucket,
    List.map_map]
  exact List.map_id _

/-- What was taken down in `n` buckets, if it is to be answered. -/
def Outcome.walked? (n : Nat) : Outcome K V → Option (Nat × List (K × V))
  | answer (.entries kvs) => some (n, kvs)
  | _ => none

/-- How many buckets of `n` a walk has been through, and what it has taken down. -/
def Task.walked? (n : Nat) : Task K V → Option (Nat × List (K × V))
  | walkLock b _ seen | walkVisit b seen => some (b, seen.toList)
  | walkUnlock b seen => some (b + 1, seen.toList)
  | unlock _ o | leave o => o.walked? n
  | _ => none

theorem Task.stance_of_walked? {k : Task K V} {n : Nat} {x : Nat × List (K × V)}
    (h : k.walked? n = some x) : k.stance = .holding .shared := by
  cases k with
  | walkLock | walkVisit | walkUnlock | unlock | leave => rfl
  | _ => cases h

theorem Task.rests_of_walked? {k : Task K V} {n : Nat} {x : Nat × List (K × V)}
    (h : k.walked? n = some x) : k.rests = false := by
  cases k with
  | rest => cases h
  | _ => rfl

/-- No errand is answered with entries. -/
theorem Errand.walked?_outcome [DecidableEq K] (e : Errand K V) (h : UInt64)
    (es : List (Entry K V)) (m n : Nat) : (e.outcome h es m).walked? n = none := by
  cases e with
  | insert k v | insertIfAbsent k v =>
    cases hlookup : lookup h k es <;> simp [outcome, perform, hlookup, Outcome.walked?]
  | get k | contains k => rfl

/-- What a step does to the walk that its thread is on. -/
inductive Walking (t : Table K V) : Task K V → Task K V → Prop
  | apart {k k' : Task K V} : k'.walked? t.size = none → Walking t k k'
  | start : Walking t .walkEnter (.walkLock 0 .out #[])
  | same {k k' : Task K V} : k'.walked? t.size = k.walked? t.size → Walking t k k'
  | visit {b : Nat} {seen : Array (K × V)} :
    Walking t (.walkVisit b seen) (.walkUnlock b (seen ++ pairsAt t b))
  | finish {b : Nat} {place : Lock.Spin.Place} {seen : Array (K × V)} : t.size ≤ b →
    Walking t (.walkLock b place seen) (.leave (.answer (.entries seen.toList)))

variable {G : Gate} [DecidableEq K]

theorem walking (hash : K → UInt64) (luck : Bool) (s : Shared G K V) (c : Client G K V) :
    Walking s.table c.task (step hash luck s c).2.task := by
  rcases c with ⟨place, task⟩
  cases task with
  | sizeEnter | enter e | growEnter =>
    exact enter_task (P := Walking s.table _) (.apart rfl) (.same rfl)
  | walkEnter => exact enter_task (P := Walking s.table _) .start (.same rfl)
  | lock e at' =>
    simp only [step]
    split <;> exact .apart rfl
  | visit e => exact .apart (e.walked?_outcome ..)
  | unlock b o => exact .same rfl
  | leave o => cases o <;> exact .apart rfl
  | count buckets =>
    simp only [step]
    split <;> exact .apart rfl
  | walkLock b at' seen =>
    simp only [step]
    split
    · dsimp only
      split <;> exact .same rfl
    · rename_i hend
      exact .finish (Nat.le_of_not_lt hend)
  | walkVisit b seen => exact .visit
  | walkUnlock b seen => exact .same rfl
  | rest | length | size | grow | growLeave => exact .apart rfl

/-- Only growth changes the number of buckets. -/
theorem size_step (hash : K → UInt64) (luck : Bool) (s : Shared G K V) {c : Client G K V}
    (hbusy : c.task.rests = false) (hgrow : c.task ≠ .grow) :
    (step hash luck s c).1.table.size = s.table.size := by
  have hworking := working hash luck s c hbusy
  generalize step hash luck s c = r at hworking ⊢
  rcases r with ⟨s', ⟨place, task⟩⟩
  rcases c with ⟨place', task'⟩
  cases hworking with
  | pass _ hbare => exact size_eq_of_bare hbare
  | look hbare => exact size_eq_of_bare hbare
  | answer hbare => exact size_eq_of_bare hbare
  | visit e => exact size_setEntries ..
  | count => rfl
  | countLoaded => rfl
  | grow => exact absurd rfl hgrow

/-- Entries are answered at the end of a walk. -/
theorem walked?_of_reply? {hash : K → UInt64} {luck : Bool} {s : Shared G K V} {c : Client G K V}
    {kvs : List (K × V)} (hbusy : c.task.rests = false)
    (hreply : (step hash luck s c).2.task.reply? = some (.entries kvs)) (n : Nat) :
    c.task.walked? n = some (n, kvs) := by
  rcases c with ⟨place, task⟩
  cases task with
  | rest => cases hbusy
  | leave o =>
    cases o with
    | answer a =>
      obtain rfl : a = .entries kvs := Option.some.inj hreply
      rfl
    | pushed => cases hreply
  | sizeEnter | enter e | growEnter | walkEnter =>
    simp only [step, enter] at hreply
    split at hreply <;> cases hreply
  | lock e at' =>
    simp only [step] at hreply
    split at hreply <;> cases hreply
  | count buckets =>
    simp only [step] at hreply
    split at hreply <;> cases hreply
  | walkLock b at' seen =>
    simp only [step] at hreply
    split at hreply
    · dsimp only at hreply
      split at hreply <;> cases hreply
    · cases hreply
  | _ => cases hreply

end

/-! ## In every run -/

namespace Setup

variable {K V : Type} [DecidableEq K] {S : Setup K} {turns entered : List (Turn (Call K V))}
  {visited : Nat → List (Turn (Call K V))} {turn : Turn (Call K V)} {t count : Nat}
  {c d : Client .layout K V} {kvs : List (K × V)}

/-- While a thread is in shared mode the number of buckets stays the same. -/
theorem size_concat (ht : (S.after turns).threads[t]? = some c)
    (hshared : c.task.stance = .holding .shared) (turn : Turn (Call K V)) :
    (S.after (turns ++ [turn])).shared.table.size = (S.after turns).shared.table.size := by
  have hadvance := S.advance turns turn
  generalize S.after (turns ++ [turn]) = p', S.history (turns ++ [turn]) = es,
    S.visits (turns ++ [turn]) = vs at hadvance
  cases hadvance with
  | idle => rfl
  | call => rfl
  | @step u d luck hu hbusy =>
    refine size_step S.hash luck _ hbusy fun hgrow => ?_
    by_cases hut : u = t
    · subst hut
      obtain rfl := Option.some.inj (ht.symm.trans hu)
      rw [hgrow] at hshared
      cases hshared
    · have hout := alone_of_grow hut hu ht hgrow
      rw [hshared] at hout
      cases hout

/-- The walk of a thread through the first `count` buckets: it enters shared mode after the turns
`entered`, is in bucket `b` after the turns `visited b`, and has taken down `kvs`. -/
structure Walk (S : Setup K) (turns : List (Turn (Call K V))) (t : Nat)
    (entered : List (Turn (Call K V))) (visited : Nat → List (Turn (Call K V))) (count : Nat)
    (kvs : List (K × V)) : Prop where
  enters : ∃ luck c, (S.after entered).threads[t]? = some c ∧ c.task = .walkEnter ∧
    entered ++ [.step t luck] <+: turns
  /-- From then on it is in shared mode, and the number of buckets stays the same. -/
  inside : ∀ past, past <+: turns → entered.length < past.length →
    (S.after past).shared.table.size = (S.after turns).shared.table.size ∧
    ∃ c, (S.after past).threads[t]? = some c ∧ c.task.stance = .holding .shared
  visits : ∀ b < count, visited b <+: turns ∧ entered.length < (visited b).length ∧
    ∃ c seen, (S.after (visited b)).threads[t]? = some c ∧ c.task = .walkVisit b seen
  count_le : count ≤ (S.after turns).shared.table.size
  /-- What it takes down in a bucket is what there is in it at that moment. -/
  yields : kvs = (List.range count).flatMap fun b => pairsAt (S.after (visited b)).shared.table b

namespace Walk

theorem length_lt (h : S.Walk turns t entered visited count kvs) :
    entered.length < turns.length := by
  obtain ⟨luck, -, -, -, hprefix⟩ := h.enters
  have hle := hprefix.length_le
  rw [List.length_append, List.length_singleton] at hle
  exact hle

/-- The walk goes on for another turn. -/
theorem concat (h : S.Walk turns t entered visited count kvs)
    (ht : (S.after turns).threads[t]? = some c) (hshared : c.task.stance = .holding .shared)
    (ht' : (S.after (turns ++ [turn])).threads[t]? = some d)
    (hshared' : d.task.stance = .holding .shared) :
    S.Walk (turns ++ [turn]) t entered visited count kvs := by
  have hsize := size_concat ht hshared turn
  have hprefix : turns <+: turns ++ [turn] := List.prefix_append ..
  refine ⟨?_, ?_, ?_, ?_, h.yields⟩
  · obtain ⟨luck, x, hx, htask, hentered⟩ := h.enters
    exact ⟨luck, x, hx, htask, hentered.trans hprefix⟩
  · intro past hpast hlt
    rcases List.prefix_concat_iff.mp hpast with rfl | hold
    · exact ⟨rfl, d, ht', hshared'⟩
    · rw [hsize]
      exact h.inside past hold hlt
  · intro b hb
    obtain ⟨hvisited, hlt, hthread⟩ := h.visits b hb
    exact ⟨hvisited.trans hprefix, hlt, hthread⟩
  · rw [hsize]
    exact h.count_le

/-- One more bucket is taken down. -/
theorem take {seen : Array (K × V)} (h : S.Walk turns t entered visited count kvs)
    (ht : (S.after turns).threads[t]? = some c) (hvisit : c.task = .walkVisit count seen) :
    S.Walk turns t entered (Function.update visited count turns) (count + 1)
      (kvs ++ pairsAt (S.after turns).shared.table count) := by
  have hlt : count < (S.after turns).shared.table.size := by
    refine lt_size_of_isTaken ((S.locked_after turns).isTaken_of_bucket? ht ?_)
    rw [hvisit]
    rfl
  have hbefore {b : Nat} (hb : b < count) : Function.update visited count turns b = visited b :=
    Function.update_of_ne (Nat.ne_of_lt hb) ..
  refine ⟨h.enters, h.inside, ?_, hlt, ?_⟩
  · intro b hb
    rcases Nat.lt_succ_iff_lt_or_eq.mp hb with hb | rfl
    · rw [hbefore hb]
      exact h.visits b hb
    · rw [Function.update_self]
      exact ⟨List.prefix_rfl, h.length_lt, c, seen, ht, hvisit⟩
  · rw [List.range_succ, List.flatMap_append, List.flatMap_singleton, Function.update_self,
      h.yields]
    refine congrArg (· ++ _) (List.flatMap_congr fun b hb => ?_)
    rw [hbefore (List.mem_range.mp hb)]

end Walk

theorem after_step (ht : (S.after turns).threads[t]? = some c) (hbusy : c.task.rests = false)
    (luck : Bool) : S.after (turns ++ [.step t luck]) =
      (S.after turns).put t (step S.hash luck (S.after turns).shared c).1
        (step S.hash luck (S.after turns).shared c).2 := by
  rw [after, Machine.run_concat]
  exact Machine.act_step (m := machine .layout S.hash) ht hbusy

/-- The thread enters shared mode. -/
theorem walk_enter (ht : (S.after turns).threads[t]? = some c) (hc : c.task = .walkEnter)
    {luck : Bool} (ht' : (S.after (turns ++ [.step t luck])).threads[t]? = some d)
    (hd : d.task = .walkLock 0 .out #[]) :
    S.Walk (turns ++ [.step t luck]) t turns visited 0 [] := by
  refine ⟨⟨luck, c, ht, hc, List.prefix_rfl⟩, ?_, ?_, Nat.zero_le _, rfl⟩
  · intro past hpast hlt
    rcases List.prefix_concat_iff.mp hpast with rfl | hold
    · refine ⟨rfl, d, ht', ?_⟩
      rw [hd]
      rfl
    · exact absurd hold.length_le (Nat.not_le.mpr hlt)
  · intro b hb
    cases hb

/-- A step leads on a walk only from one, or from its beginning. -/
theorem walk_step {luck : Bool} (ht : (S.after turns).threads[t]? = some c)
    (hbusy : c.task.rests = false)
    (hbefore : ∀ count kvs, c.task.walked? (S.after turns).shared.table.size = some (count, kvs) →
      ∃ entered visited, S.Walk turns t entered visited count kvs)
    (hwalked : (step S.hash luck (S.after turns).shared c).2.task.walked?
      (S.after (turns ++ [.step t luck])).shared.table.size = some (count, kvs)) :
    ∃ entered visited, S.Walk (turns ++ [.step t luck]) t entered visited count kvs := by
  have hgrow : c.task ≠ .grow := by
    rcases c with ⟨place, task⟩
    rintro rfl
    cases hwalked
  have hstep := after_step ht hbusy luck
  have hsize : (S.after (turns ++ [.step t luck])).shared.table.size =
      (S.after turns).shared.table.size := by
    rw [hstep]
    exact size_step S.hash luck _ hbusy hgrow
  have ht' : (S.after (turns ++ [.step t luck])).threads[t]? =
      some (step S.hash luck (S.after turns).shared c).2 := by
    rw [hstep]
    exact (Pool.getElem?_put_iff ht).mpr (.inl ⟨rfl, rfl⟩)
  rw [hsize] at hwalked
  have hshared' := Task.stance_of_walked? hwalked
  have hwalking := walking S.hash luck (S.after turns).shared c
  generalize step S.hash luck (S.after turns).shared c = r at hwalking hwalked ht' hshared'
  rcases r with ⟨s', ⟨place', task'⟩⟩
  rcases c with ⟨place, task⟩
  cases hwalking with
  | apart hnone => cases hnone.symm.trans hwalked
  | start =>
    obtain ⟨rfl, rfl⟩ : 0 = count ∧ [] = kvs := by simpa [Task.walked?] using hwalked
    exact ⟨turns, fun _ => [], walk_enter ht rfl ht' rfl⟩
  | same hsame =>
    have hwalked' := hsame.symm.trans hwalked
    obtain ⟨entered, visited, hwalk⟩ := hbefore _ _ hwalked'
    exact ⟨entered, visited, hwalk.concat ht (Task.stance_of_walked? hwalked') ht' hshared'⟩
  | @visit b seen =>
    obtain ⟨rfl, rfl⟩ : b + 1 = count ∧ _ = kvs := by simpa [Task.walked?] using hwalked
    obtain ⟨entered, visited, hwalk⟩ := hbefore _ _ rfl
    exact ⟨entered, _, (hwalk.take ht rfl).concat ht rfl ht' hshared'⟩
  | @finish b place seen hend =>
    obtain ⟨rfl, rfl⟩ : _ = count ∧ _ = kvs := by
      simpa [Task.walked?, Outcome.walked?] using hwalked
    obtain ⟨entered, visited, hwalk⟩ := hbefore _ _ rfl
    rw [← Nat.le_antisymm hwalk.count_le hend]
    exact ⟨entered, visited, hwalk.concat ht rfl ht' hshared'⟩

/-- A thread that is on a walk entered shared mode at some moment and took down, each at a moment
of its own, the buckets that it has been through. -/
theorem walk_after (ht : (S.after turns).threads[t]? = some c)
    (hwalked : c.task.walked? (S.after turns).shared.table.size = some (count, kvs)) :
    ∃ entered visited, S.Walk turns t entered visited count kvs := by
  refine Machine.busy_invariant (m := machine .layout S.hash) (p := S.idle)
    (fun turns t c => ∀ count kvs,
      c.task.walked? (S.after turns).shared.table.size = some (count, kvs) →
      ∃ entered visited, S.Walk turns t entered visited count kvs)
    ?_ ?_ ?_ ?_ ht (Task.rests_of_walked? hwalked) count kvs hwalked
  · intro i c hi
    rw [eq_of_idle hi]
    rfl
  · intro turns i c call _ _ count kvs hwalked
    cases call <;> cases hwalked
  · intro turns i c luck hi hbusy ih _ count kvs hwalked
    exact walk_step hi hbusy ih hwalked
  · intro turns i c turn _ hi hi' hbusy ih count kvs hwalked
    have hshared := Task.stance_of_walked? hwalked
    rw [size_concat hi hshared] at hwalked
    obtain ⟨entered, visited, hwalk⟩ := ih count kvs hwalked
    exact ⟨entered, visited, hwalk.concat hi hshared hi' hshared⟩

/-! ## What a walk finds -/

/-- What the keys and values that were taken down in the first `count` of `n` buckets are. -/
structure Finds (S : Setup K) (entered : List (Turn (Call K V)))
    (visited : Nat → List (Turn (Call K V))) (n count : Nat) (kvs : List (K × V)) : Prop where
  /-- No key is found twice. -/
  distinct : (kvs.map Prod.fst).Nodup
  /-- A key that was put in before the walk began is found in its bucket. -/
  complete : ∀ k ∈ keysOf (S.visits entered), bucketOf (S.hash k) n < count → k ∈ kvs.map Prod.fst
  /-- A key that is found was put in before its bucket was visited, and had its value then. -/
  sound : ∀ kv ∈ kvs, kv.1 ∈ keysOf (S.visits (visited (bucketOf (S.hash kv.1) n))) ∧
    (tableEntries (S.after (visited (bucketOf (S.hash kv.1) n))).shared.table).filter
      (·.key == kv.1) = [⟨S.hash kv.1, kv.1, kv.2⟩]

/-- What was done stays done. -/
theorem visits_mono {past : List (Turn (Call K V))} (h : past <+: turns) :
    S.visits past <+: S.visits turns :=
  Machine.observe_mono _ _ _ h

omit [DecidableEq K] in
theorem mem_keysOf_mono {es es' : List (Errand K V)} (h : es <+: es') {k : K}
    (hk : k ∈ keysOf es) : k ∈ keysOf es' := by
  obtain ⟨more, rfl⟩ := h
  exact mem_keysOf_append hk more

namespace Walk

theorem pairsAt_eq (h : S.Walk turns t entered visited count kvs) {b : Nat} (hb : b < count) :
    pairsAt (S.after (visited b)).shared.table b =
      (ledgerOf (S.visits (visited b))).filter fun kv =>
        bucketOf (S.hash kv.1) (S.after turns).shared.table.size == b := by
  obtain ⟨hvisited, hlt, -⟩ := h.visits b hb
  have hsize := (h.inside _ hvisited hlt).1
  rw [← hsize]
  refine (S.spread_after (visited b)).pairsAt ?_
  rw [hsize]
  exact Nat.lt_of_lt_of_le hb h.count_le

theorem mem_iff (h : S.Walk turns t entered visited count kvs) (kv : K × V) :
    kv ∈ kvs ↔ bucketOf (S.hash kv.1) (S.after turns).shared.table.size < count ∧
      kv ∈ ledgerOf (S.visits
        (visited (bucketOf (S.hash kv.1) (S.after turns).shared.table.size))) := by
  rw [h.yields, List.mem_flatMap]
  constructor
  · rintro ⟨b, hb, hmem⟩
    have hb := List.mem_range.mp hb
    rw [h.pairsAt_eq hb, List.mem_filter, beq_iff_eq] at hmem
    obtain ⟨hmem, rfl⟩ := hmem
    exact ⟨hb, hmem⟩
  · rintro ⟨hb, hmem⟩
    refine ⟨_, List.mem_range.mpr hb, ?_⟩
    rw [h.pairsAt_eq hb]
    exact List.mem_filter.mpr ⟨hmem, beq_self_eq_true _⟩

theorem distinct (h : S.Walk turns t entered visited count kvs) : (kvs.map Prod.fst).Nodup := by
  have hyields : kvs = (List.range count).flatMap fun b =>
      (ledgerOf (S.visits (visited b))).filter fun kv =>
        bucketOf (S.hash kv.1) (S.after turns).shared.table.size == b := by
    rw [h.yields]
    exact List.flatMap_congr fun b hb => h.pairsAt_eq (List.mem_range.mp hb)
  rw [hyields]
  refine nodup_keys_flatMap S.hash _ count fun b _ => ?_
  obtain ⟨map, hlists, -⟩ := exists_lists_ledgerOf (S.visits (visited b))
  exact hlists.distinct

theorem complete (h : S.Walk turns t entered visited count kvs) {k : K}
    (hk : k ∈ keysOf (S.visits entered))
    (hlt : bucketOf (S.hash k) (S.after turns).shared.table.size < count) :
    k ∈ kvs.map Prod.fst := by
  obtain ⟨luck, -, -, -, hentered⟩ := h.enters
  obtain ⟨hvisited, hlater, -⟩ := h.visits _ hlt
  have hprefix := List.prefix_of_prefix_length_le ((List.prefix_append ..).trans hentered) hvisited
    (Nat.le_of_lt hlater)
  have hkey := mem_keys_ledgerOf_iff.mpr (mem_keysOf_mono (visits_mono hprefix) hk)
  obtain ⟨kv, hkv, rfl⟩ := List.mem_map.mp hkey
  exact List.mem_map.mpr ⟨kv, (h.mem_iff kv).mpr ⟨hlt, hkv⟩, rfl⟩

theorem finds (h : S.Walk turns t entered visited count kvs) :
    S.Finds entered visited (S.after turns).shared.table.size count kvs := by
  refine ⟨h.distinct, fun k hk => h.complete hk, fun kv hkv => ?_⟩
  obtain ⟨-, hmem⟩ := (h.mem_iff kv).mp hkv
  obtain ⟨map, hlists, -⟩ := exists_lists_ledgerOf
    (S.visits (visited (bucketOf (S.hash kv.1) (S.after turns).shared.table.size)))
  exact ⟨mem_keys_ledgerOf_iff.mp (List.mem_map.mpr ⟨kv, hmem, rfl⟩),
    ((S.spread_after _).held hlists hmem).1⟩

end Walk

/-- What is promised to threads that walk through a map while others insert into it. -/
structure Walks (S : Setup K) (turns : List (Turn (Call K V))) : Prop where
  /-- While a thread takes down a bucket no other is in it. -/
  alone : ∀ {t u b : Nat} {c d : Client .layout K V} {seen : Array (K × V)}, t ≠ u →
    (S.after turns).threads[t]? = some c → (S.after turns).threads[u]? = some d →
    c.task = .walkVisit b seen →
    d.task.bucket? S.hash (S.after turns).shared.table.size ≠ some b
  /-- On its way a walk has found every key in the buckets behind it once, -/
  midway : ∀ {t count : Nat} {c : Client .layout K V} {kvs : List (K × V)},
    (S.after turns).threads[t]? = some c →
    c.task.walked? (S.after turns).shared.table.size = some (count, kvs) →
    ∃ entered visited, S.Walk turns t entered visited count kvs ∧
      S.Finds entered visited (S.after turns).shared.table.size count kvs
  /-- and when it is answered, every key that was put in before it began. -/
  answered : ∀ {turn : Turn (Call K V)} {t : Nat} {kvs : List (K × V)},
    (machine .layout S.hash).event? (S.after turns) turn = some (.answered t (.entries kvs)) →
    ∃ entered visited,
      S.Walk turns t entered visited (S.after turns).shared.table.size kvs ∧
      S.Finds entered visited (S.after turns).shared.table.size
        (S.after turns).shared.table.size kvs ∧
      ∀ k ∈ keysOf (S.visits entered), k ∈ kvs.map Prod.fst

/-- However walks and insertions fall into each other, a walk yields no key twice and misses none
that was there before it, and each key that it yields was there, with its value, when its bucket was
visited. -/
theorem walks_after (S : Setup K) (turns : List (Turn (Call K V))) : S.Walks turns := by
  constructor
  · intro t u b c d seen htu ht hu hvisit
    refine (S.locked_after turns).apart htu ht hu ?_
    rw [hvisit]
    rfl
  · intro t count c kvs ht hwalked
    obtain ⟨entered, visited, hwalk⟩ := walk_after ht hwalked
    exact ⟨entered, visited, hwalk, hwalk.finds⟩
  · intro turn t kvs hevent
    obtain ⟨luck, c, -, ht, hbusy, -, hreply⟩ := Machine.step_of_answered hevent
    obtain ⟨entered, visited, hwalk⟩ := walk_after ht (walked?_of_reply? hbusy hreply _)
    refine ⟨entered, visited, hwalk, hwalk.finds, fun k hk => ?_⟩
    exact hwalk.finds.complete k hk (bucketOf_lt _ (S.spread_after turns).pos)

/-- Thread 0 inserts a key and is left alone meanwhile. -/
def insertion (k v : Nat) : List (Turn (Call Nat Nat)) :=
  .call 0 (.errand (.insert k v)) :: List.replicate 16 (.step 0 true)

/-- Thread 1 is at bucket 3 when thread 0 inserts 2 behind it and 9 before it, and gives 5 another
value. -/
def overtaken : List (Turn (Call Nat Nat)) :=
  insertion 1 10 ++ insertion 5 50 ++ .call 1 .entries :: List.replicate 15 (.step 1 true) ++
    insertion 2 20 ++ insertion 9 90 ++ insertion 5 55 ++ List.replicate 53 (.step 1 true)

theorem walks_after_overtaken :
    (machine .layout small.hash).event? (small.after overtaken) (.step 1 true) =
      some (.answered 1 (.entries [(1, 10), (5, 55), (9, 90)])) ∧ small.Walks overtaken :=
  ⟨by decide +kernel, walks_after small overtaken⟩

end Setup

end Growable.SharedMap
