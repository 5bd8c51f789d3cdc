import Growable.Proofs.SharedMap.Buckets
import Growable.Proofs.SharedMap.Winners

/-!
# No insertion is lost

Any number of threads look keys up and insert them at once, and whichever way their steps fall, the
map keeps every key once, in the bucket of its hash; one call for each key is told that it was new;
and once all calls are answered, the number of entries and the number of buckets are what the keys
alone make them.
-/

namespace Growable.SharedMap

open Machine (calls lastCall?)

/-! ## Entries of a table -/

section

variable {K V : Type} {hash : K → UInt64} {kvs : Ledger K V} {n : Nat}

/-- A bucket has the lines of the ledger whose hashes select it. -/
theorem mem_entriesAt_tableOf {k : K} {v : V} (hn : 0 < n) (h : (k, v) ∈ kvs) :
    ⟨hash k, k, v⟩ ∈ entriesAt (tableOf hash kvs n) (bucketOf (hash k) n) := by
  rw [entriesAt_tableOf hash kvs (bucketOf_lt _ hn), inBucket]
  exact List.mem_map.mpr ⟨(k, v), List.mem_filter.mpr ⟨h, beq_self_eq_true _⟩, rfl⟩

theorem mem_tableEntries_tableOf {k : K} {v : V} (hn : 0 < n) (h : (k, v) ∈ kvs) :
    ⟨hash k, k, v⟩ ∈ tableEntries (tableOf hash kvs n) := by
  rw [tableEntries_tableOf, List.mem_flatMap]
  refine ⟨bucketOf (hash k) n, List.mem_range.mpr (bucketOf_lt _ hn), ?_⟩
  rw [← entriesAt_tableOf hash kvs (bucketOf_lt _ hn)]
  exact mem_entriesAt_tableOf hn h

variable [DecidableEq K]

theorem filter_key_of_mem {es : List (Entry K V)} {e : Entry K V}
    (hdistinct : (es.map Entry.key).Nodup) (he : e ∈ es) :
    es.filter (·.key == e.key) = [e] := by
  induction es with
  | nil => cases he
  | cons x es ih =>
    rw [List.map_cons, List.nodup_cons] at hdistinct
    rcases List.mem_cons.mp he with rfl | hmem
    · have hnone : es.filter (·.key == e.key) = [] := by
        rw [List.filter_eq_nil_iff]
        intro y hy hkey
        exact hdistinct.1 (List.mem_map.mpr ⟨y, hy, beq_iff_eq.mp hkey⟩)
      rw [List.filter_cons, if_pos (beq_self_eq_true _), hnone]
    · have hne : x.key ≠ e.key := fun hkey =>
        hdistinct.1 (List.mem_map.mpr ⟨e, hmem, hkey.symm⟩)
      rw [List.filter_cons, if_neg (mt beq_iff_eq.mp hne), ih hdistinct.2 hmem]

/-- A table has the lines of its ledger and no others, each once. -/
theorem Lists.perm_tablePairs {map : Finmap fun _ : K => V} (h : Lists kvs map)
    (hash : K → UInt64) (hn : 0 < n) : (tablePairs (tableOf hash kvs n)).Perm kvs :=
  (lists_tablePairs hn h).perm h

theorem Lists.distinct_tableEntries {map : Finmap fun _ : K => V} (h : Lists kvs map)
    (hash : K → UInt64) (hn : 0 < n) :
    ((tableEntries (tableOf hash kvs n)).map Entry.key).Nodup := by
  have hlists : Lists (tablePairs (tableOf hash kvs n)) map := lists_tablePairs hn h
  have hdistinct := hlists.distinct
  rw [tablePairs, List.map_map] at hdistinct
  exact hdistinct

/-- Every line of the ledger is one entry of the table, and the only one of its key. -/
theorem Spread.held {map : Finmap fun _ : K => V} {t : Table K V} (h : Spread hash kvs t)
    (hlists : Lists kvs map) {k : K} {v : V} (hkv : (k, v) ∈ kvs) :
    (tableEntries t).filter (·.key == k) = [⟨hash k, k, v⟩] ∧
      ⟨hash k, k, v⟩ ∈ entriesAt t (bucketOf (hash k) t.size) := by
  constructor
  · rw [h.tableEntries_eq]
    exact filter_key_of_mem (hlists.distinct_tableEntries hash h.pos)
      (mem_tableEntries_tableOf h.pos hkv)
  · rw [← entriesAt_bare, h.table]
    exact mem_entriesAt_tableOf h.pos hkv

theorem Lists.length_tableEntries {map : Finmap fun _ : K => V} (h : Lists kvs map)
    (hash : K → UInt64) (hn : 0 < n) :
    (tableEntries (tableOf hash kvs n)).length = kvs.length := by
  rw [← (h.perm_tablePairs hash hn).length_eq, tablePairs, List.length_map]

end

/-! ## The keys that were asked for -/

/-- A thread in this stage is to put the key in. -/
def Stage.Awaits {K V : Type} (k : K) : Stage K V → Prop
  | before e => (Call.errand e).inserted? = some k
  | _ => False

namespace Setup

variable {K V : Type} [DecidableEq K] {S : Setup K} {turns : List (Turn (Call K V))}
  {turn : Turn (Call K V)} {t : Nat} {c : Client .layout K V}

/-- The keys that calls were to put in. -/
def askedKeys (S : Setup K) (turns : List (Turn (Call K V))) : List K :=
  insertedKeys (calls (S.history turns))

omit [DecidableEq K] in
theorem calls_answered? (es : List (Machine.Event (Call K V) (Answer K V))) (t : Nat)
    (k : Task K V) : calls (es ++ (answered? t k).toList) = calls es := by
  unfold answered?
  split
  · cases k.reply? with
    | none => exact congrArg calls (List.append_nil es)
    | some a => exact Machine.calls_answered ..
  · exact congrArg calls (List.append_nil es)

/-- A key that is put in was asked for. -/
theorem asked_of_mem_keysOf {k : K} (h : k ∈ keysOf (S.visits turns)) : k ∈ S.askedKeys turns := by
  induction turns using List.reverseRecOn with
  | nil => cases h
  | append_singleton turns turn ih =>
    rw [askedKeys]
    have hadvance := S.advance turns turn
    generalize S.after (turns ++ [turn]) = p', S.history (turns ++ [turn]) = es,
      S.visits (turns ++ [turn]) = vs at hadvance h
    cases hadvance with
    | idle => exact ih h
    | call call =>
      rw [Machine.calls_concat, insertedKeys_concat]
      exact List.mem_append_left _ (ih h)
    | @step t c luck ht hbusy =>
      rw [calls_answered?]
      cases hvisit : c.task.errand? with
      | none =>
        rw [hvisit, Option.toList_none, List.append_nil] at h
        exact ih h
      | some e =>
        rw [hvisit, Option.toList_some, keysOf_concat, List.mem_append] at h
        rcases h with hold | hnew
        · exact ih hold
        · obtain ⟨call, hcall, hserves⟩ := serves_after ht hbusy
          rw [Task.stage_of_errand? hvisit] at hserves
          obtain rfl : call = .errand e := hserves
          rw [insertedKeys_eq_filterMap]
          exact List.mem_filterMap.mpr
            ⟨_, Machine.mem_calls_of_lastCall? hcall, Option.mem_toList.mp hnew⟩

/-- An errand goes on until it is done. -/
theorem awaits_step {luck : Bool} {s : Shared .layout K V} {k : K} (hbusy : c.task.rests = false)
    (hno : c.task.errand? = none) (h : c.task.stage.Awaits k) :
    (step S.hash luck s c).2.task.stage.Awaits k := by
  have hworking := working S.hash luck s c hbusy
  generalize step S.hash luck s c = r at hworking
  rcases r with ⟨s', ⟨place, task⟩⟩
  rcases c with ⟨place', task'⟩
  cases hworking with
  | pass _ _ _ hstage => exact hstage ▸ h
  | look _ _ hlooking =>
    rw [show Task.stage _ = .looking from hlooking] at h
    cases h
  | answer _ _ hstage =>
    rcases hstage with hdecided | ⟨hlooking, -⟩
    · rw [show Task.stage _ = .decided _ from hdecided] at h
      cases h
    · rw [show Task.stage _ = .looking from hlooking] at h
      cases h
  | visit => cases hno
  | count | countLoaded | grow => cases h

/-- A key that was asked for is put in, or a thread is still on its way to the bucket. -/
theorem awaited_of_mem_askedKeys {k : K} (h : k ∈ S.askedKeys turns) :
    k ∈ keysOf (S.visits turns) ∨ ∃ (t : Nat) (c : Client .layout K V),
      (S.after turns).threads[t]? = some c ∧ c.task.stage.Awaits k := by
  induction turns using List.reverseRecOn with
  | nil => cases h
  | append_singleton turns turn ih =>
    rw [askedKeys] at h
    have hadvance := S.advance turns turn
    generalize S.after (turns ++ [turn]) = p', S.history (turns ++ [turn]) = es,
      S.visits (turns ++ [turn]) = vs at hadvance h
    cases hadvance with
    | idle => exact ih h
    | @call t c call ht hrest =>
      rw [Machine.calls_concat, insertedKeys_concat, List.mem_append] at h
      rcases h with hold | hnew
      · refine (ih hold).imp_right (Pool.exists_getElem?_put ht ?_)
        intro hawaits
        rw [(Task.rests_iff_stage _).mp hrest] at hawaits
        cases hawaits
      · have hinserts : call.inserted? = some k := Option.mem_toList.mp hnew
        cases call with
        | errand e => exact .inr ⟨t, _, (Pool.getElem?_put_iff ht).mpr (.inl ⟨rfl, rfl⟩), hinserts⟩
        | _ => cases hinserts
    | @step t c luck ht hbusy =>
      rw [calls_answered?] at h
      rcases ih h with hmem | hawaited
      · exact .inl (mem_keysOf_append hmem _)
      · cases hvisit : c.task.errand? with
        | none =>
          exact .inr (Pool.exists_getElem?_put ht (awaits_step hbusy hvisit) hawaited)
        | some e =>
          obtain ⟨u, x, hu, hx⟩ := hawaited
          by_cases hut : u = t
          · subst hut
            obtain rfl := Option.some.inj (ht.symm.trans hu)
            rw [Task.stage_of_errand? hvisit] at hx
            left
            rw [Option.toList_some, keysOf_concat, show (Call.errand e).inserted? = some k from hx]
            exact List.mem_append_right _ (List.mem_singleton_self k)
          · exact .inr ⟨u, x, (Pool.getElem?_put_iff ht).mpr (.inr ⟨hut, hu⟩), hx⟩

/-! ## The promise -/

/-- No call is under way. -/
def AtRest (S : Setup K) (turns : List (Turn (Call K V))) : Prop :=
  ∀ {t : Nat} {c : Client .layout K V}, (S.after turns).threads[t]? = some c → c.task.rests = true

/-- What a map that threads insert into at once promises, after some turns. -/
structure Keeps (S : Setup K) (turns : List (Turn (Call K V))) : Prop where
  /-- No two threads are in one bucket, -/
  apart : ∀ {t u b : Nat} {c d : Client .layout K V}, t ≠ u →
    (S.after turns).threads[t]? = some c → (S.after turns).threads[u]? = some d →
    c.task.bucket? S.hash (S.after turns).shared.table.size = some b →
    d.task.bucket? S.hash (S.after turns).shared.table.size ≠ some b
  /-- and nobody is in a bucket while another thread replaces the table. -/
  alone : ∀ {t u : Nat} {c d : Client .layout K V}, t ≠ u →
    (S.after turns).threads[t]? = some c → (S.after turns).threads[u]? = some d →
    c.task = .grow → d.task.bucket? S.hash (S.after turns).shared.table.size = none
  /-- Every key that was put in is held by one entry, with its hash, in the bucket that its hash
  selects; -/
  held : ∀ k ∈ keysOf (S.visits turns), ∃ v,
    (tableEntries (S.after turns).shared.table).filter (·.key == k) = [⟨S.hash k, k, v⟩] ∧
    ⟨S.hash k, k, v⟩ ∈ entriesAt (S.after turns).shared.table
      (bucketOf (S.hash k) (S.after turns).shared.table.size)
  /-- and no other key is. -/
  holds : ∀ e ∈ tableEntries (S.after turns).shared.table, e.key ∈ keysOf (S.visits turns)
  asked : ∀ k ∈ keysOf (S.visits turns), k ∈ S.askedKeys turns
  /-- When a call that inserts a key is answered, the key was put in. -/
  kept : ∀ {turn : Turn (Call K V)} {t : Nat} {a : Answer K V} {call : Call K V} {k : K},
    (machine .layout S.hash).event? (S.after turns) turn = some (.answered t a) →
    lastCall? (S.history turns) t = some call → call.inserted? = some k →
    k ∈ keysOf (S.visits turns)
  /-- For each key that was put in, one call was or will be answered that there was no value, and
  for the others none; -/
  won : ∀ k, (winners (S.history turns) (S.after turns)).count (some k) +
    told (S.history turns) k = if k ∈ keysOf (S.visits turns) then 1 else 0
  /-- for it is the winners that are answered so. -/
  faithful : ∀ {turn : Turn (Call K V)} {t : Nat} {a : Answer K V} {call : Call K V} {k : K},
    (machine .layout S.hash).event? (S.after turns) turn = some (.answered t a) →
    lastCall? (S.history turns) t = some call → call.inserted? = some k →
    (a = .found none ↔ (winners (S.history turns) (S.after turns))[t]? = some (some k))
  /-- Every entry is counted, or is to be counted. -/
  counted : (S.after turns).shared.length + uncounted (S.after turns) =
    (tableEntries (S.after turns).shared.table).length
  /-- If there are too few buckets, a thread is on its way to add some. -/
  watched : 3 * (S.after turns).shared.table.size < 4 * (S.after turns).shared.length →
    ∃ (t : Nat) (c : Client .layout K V), (S.after turns).threads[t]? = some c ∧
      (c.task = .growEnter ∨ c.task = .grow)
  /-- There are never more buckets than were needed. -/
  grown : Grown (bucketsFor S.capacity) (S.after turns).shared.length
    (S.after turns).shared.table.size
  /-- With no call under way, every key that was asked for is counted once, and the buckets were
  doubled as often as so many keys need. -/
  settled : S.AtRest turns →
    (S.after turns).shared.length = (S.askedKeys turns).toFinset.card ∧
    ∃ e, (S.after turns).shared.table.size = 2 ^ e * bucketsFor S.capacity ∧
      IsLeast {e | 4 * (S.after turns).shared.length ≤ 3 * (2 ^ e * bucketsFor S.capacity)} e

/-- What does not depend on how the threads take turns: with the same keys asked for and no call
under way, two maps of the same capacity have equally many entries and equally many buckets. -/
def Settles (S : Setup K) (turns : List (Turn (Call K V))) : Prop :=
  ∀ (S' : Setup K) (turns' : List (Turn (Call K V))), S'.capacity = S.capacity →
    (S'.askedKeys turns').toFinset = (S.askedKeys turns).toFinset → S.AtRest turns →
    S'.AtRest turns' →
    (S'.after turns').shared.length = (S.after turns).shared.length ∧
      (S'.after turns').shared.table.size = (S.after turns).shared.table.size

theorem length_ledgerOf_le_card (S : Setup K) (turns : List (Turn (Call K V))) :
    (ledgerOf (S.visits turns)).length ≤ (S.askedKeys turns).toFinset.card := by
  rw [length_ledgerOf]
  apply Finset.card_le_card
  intro k hk
  rw [List.mem_toFinset] at hk ⊢
  exact asked_of_mem_keysOf hk

theorem length_ledgerOf_lt (hfew : (S.askedKeys turns).toFinset.card < 2 ^ 62) :
    (ledgerOf (S.visits turns)).length < 2 ^ 62 :=
  Nat.lt_of_le_of_lt (length_ledgerOf_le_card S turns) hfew

/-- How a call that inserts a key is answered, and by which sort of thread. -/
theorem inserted_of_answered {a : Answer K V} {call : Call K V} {k : K}
    (h : (machine .layout S.hash).event? (S.after turns) turn = some (.answered t a))
    (hcall : lastCall? (S.history turns) t = some call) (hinserts : call.inserted? = some k) :
    k ∈ keysOf (S.visits turns) ∧
      (a = .found none ↔ (winners (S.history turns) (S.after turns))[t]? = some (some k)) := by
  obtain ⟨luck, c, -, ht, hbusy, hrest, hreply⟩ := Machine.step_of_answered h
  obtain ⟨call', hcall', hserves⟩ := serves_after ht hbusy
  obtain rfl := Option.some.inj (hcall.symm.trans hcall')
  rw [getElem?_winners ht, winner?_of_call hcall]
  have hworking := working S.hash luck (S.after turns).shared c hbusy
  change (step S.hash luck (S.after turns).shared c).2.task.rests = true at hrest
  change (step S.hash luck (S.after turns).shared c).2.task.reply? = some a at hreply
  generalize step S.hash luck (S.after turns).shared c = r at hworking hrest hreply
  rcases r with ⟨s', ⟨place, task⟩⟩
  rcases c with ⟨place', task'⟩
  cases hworking with
  | pass _ _ _ hstage =>
    have hidle : task'.rests = true :=
      task'.rests_iff_stage.mpr (hstage.symm.trans (task.rests_iff_stage.mp hrest))
    cases hidle.symm.trans hbusy
  | look _ _ _ _ hdecided =>
    rw [Task.rests_of_stage hdecided (by rintro ⟨⟩)] at hrest
    cases hrest
  | @answer _ _ b _ _ hstage =>
    obtain rfl : b = a := Option.some.inj hreply
    rcases hstage with hdecided | ⟨hlooking, -⟩
    · rw [show Task.stage _ = .decided b from hdecided] at hserves ⊢
      refine ⟨hserves k hinserts, ?_⟩
      rw [b.eq_found_none_iff, hinserts]
      cases hnew : b.isNew <;> simp [Stage.isNew, hnew]
    · rw [show Task.stage _ = .looking from hlooking] at hserves
      cases hserves.symm.trans hinserts
  | count =>
    obtain rfl : .found none = a := Option.some.inj hreply
    obtain ⟨k', hk', hcall''⟩ := hserves
    obtain rfl : k = k' := Option.some.inj (hinserts.symm.trans hcall'')
    exact ⟨hk', by simp [Task.stage, Stage.isNew, hinserts]⟩
  | visit | countLoaded | grow => cases hrest

theorem held_after {k : K} (hk : k ∈ keysOf (S.visits turns)) : ∃ v,
    (tableEntries (S.after turns).shared.table).filter (·.key == k) = [⟨S.hash k, k, v⟩] ∧
    ⟨S.hash k, k, v⟩ ∈ entriesAt (S.after turns).shared.table
      (bucketOf (S.hash k) (S.after turns).shared.table.size) := by
  obtain ⟨map, hlists, -⟩ := exists_lists_ledgerOf (S.visits turns)
  obtain ⟨⟨k, v⟩, hmem, rfl⟩ := List.mem_map.mp (mem_keys_ledgerOf_iff.mpr hk)
  exact ⟨v, (S.spread_after turns).held hlists hmem⟩

theorem mem_keysOf_of_mem_tableEntries {e : Entry K V}
    (he : e ∈ tableEntries (S.after turns).shared.table) : e.key ∈ keysOf (S.visits turns) := by
  have hspread := S.spread_after turns
  obtain ⟨map, hlists, -⟩ := exists_lists_ledgerOf (S.visits turns)
  rw [hspread.tableEntries_eq] at he
  have hpair :=
    (hlists.perm_tablePairs S.hash hspread.pos).mem_iff.mp (List.mem_map.mpr ⟨e, he, rfl⟩)
  exact mem_keys_ledgerOf_iff.mp (List.mem_map.mpr ⟨_, hpair, rfl⟩)

theorem counted_after (h : Accounted S.hash (bucketsFor S.capacity) (ledgerOf (S.visits turns))
    (S.after turns)) : (S.after turns).shared.length + uncounted (S.after turns) =
      (tableEntries (S.after turns).shared.table).length := by
  obtain ⟨map, hlists, -⟩ := exists_lists_ledgerOf (S.visits turns)
  rw [h.count, h.spread.tableEntries_eq, hlists.length_tableEntries S.hash h.pos]

omit [DecidableEq K] in
theorem Stage.eq_resizing_iff {k : Task K V} : k.stage = .resizing ↔ k = .growEnter ∨ k = .grow := by
  cases k with
  | unlock b o | leave o => cases o <;> simp [Task.stage, Outcome.stage]
  | _ => simp [Task.stage]

/-- With no call under way, every key that was asked for was put in. -/
theorem mem_keysOf_iff_of_rest (hrest : S.AtRest turns) (k : K) :
    k ∈ keysOf (S.visits turns) ↔ k ∈ S.askedKeys turns := by
  refine ⟨asked_of_mem_keysOf, fun hk => ?_⟩
  rcases awaited_of_mem_askedKeys hk with hmem | ⟨t, c, ht, hawaits⟩
  · exact hmem
  · rw [(Task.rests_iff_stage _).mp (hrest ht)] at hawaits
    cases hawaits

theorem uncounted_of_rest (hrest : S.AtRest turns) : uncounted (S.after turns) = 0 := by
  refine Pool.countP_eq_zero fun ht => ?_
  rw [(Task.rests_iff_stage _).mp (hrest ht)]
  rfl

theorem settled_of_rest (h : Accounted S.hash (bucketsFor S.capacity) (ledgerOf (S.visits turns))
    (S.after turns)) (hrest : S.AtRest turns) :
    (S.after turns).shared.length = (S.askedKeys turns).toFinset.card ∧
    ∃ e, (S.after turns).shared.table.size = 2 ^ e * bucketsFor S.capacity ∧
      IsLeast {e | 4 * (S.after turns).shared.length ≤ 3 * (2 ^ e * bucketsFor S.capacity)} e := by
  constructor
  · have hcount := h.count
    have hkeys : (keysOf (S.visits turns)).toFinset = (S.askedKeys turns).toFinset := by
      ext k
      rw [List.mem_toFinset, List.mem_toFinset]
      exact mem_keysOf_iff_of_rest hrest k
    rw [uncounted_of_rest hrest, length_ledgerOf, hkeys] at hcount
    exact hcount
  · refine h.grown.isLeast (Nat.le_of_not_lt fun hload => ?_)
    obtain ⟨t, c, ht, hresizing⟩ := h.watched hload
    rw [(Task.rests_iff_stage _).mp (hrest ht)] at hresizing
    cases hresizing

theorem keeps_of_lt (hfew : (S.askedKeys turns).toFinset.card < 2 ^ 62) : S.Keeps turns := by
  have hlen := length_ledgerOf_lt hfew
  have h := accounted_after hlen
  constructor
  · exact fun htu ht hu hc => (S.locked_after turns).apart htu ht hu hc
  · exact fun htu ht hu hgrow =>
      Task.bucket?_of_not_isInside (alone_of_grow htu ht hu hgrow) S.hash _
  · exact fun k hk => held_after hk
  · exact fun e he => mem_keysOf_of_mem_tableEntries he
  · exact fun k hk => asked_of_mem_keysOf hk
  · exact fun hevent hcall hinserts => (inserted_of_answered hevent hcall hinserts).1
  · exact winners_after hlen
  · exact fun hevent hcall hinserts => (inserted_of_answered hevent hcall hinserts).2
  · exact counted_after h
  · intro hload
    obtain ⟨t, c, ht, hresizing⟩ := h.watched hload
    exact ⟨t, c, ht, Stage.eq_resizing_iff.mp hresizing⟩
  · exact h.grown
  · exact settled_of_rest h

/-- Whatever threads insert into a map at once, whichever the hash function is and however their
steps fall, no insertion is lost, and what the map comes to depends on the keys alone. -/
theorem keeps_after (S : Setup K) (turns : List (Turn (Call K V)))
    (hfew : (S.askedKeys turns).toFinset.card < 2 ^ 62) : S.Keeps turns ∧ S.Settles turns := by
  have hkeeps := keeps_of_lt hfew
  refine ⟨hkeeps, ?_⟩
  intro S' turns' hcapacity hkeys hrest hrest'
  have hkeeps' : S'.Keeps turns' := keeps_of_lt (hkeys ▸ hfew)
  obtain ⟨hlength, e, hsize, hleast⟩ := hkeeps.settled hrest
  obtain ⟨hlength', e', hsize', hleast'⟩ := hkeeps'.settled hrest'
  have hsame : (S'.after turns').shared.length = (S.after turns).shared.length := by
    rw [hlength, hlength', hkeys]
  rw [hsame, hcapacity] at hleast'
  refine ⟨hsame, ?_⟩
  rw [hsize, hsize', hcapacity, hleast.unique hleast']

/-- A map of sixteen buckets whose hashes are the keys themselves, and two threads. -/
def small : Setup Nat := ⟨fun k => k.toUInt64, 0, 2⟩

/-- Both threads are after the same thirteen keys, one more than sixteen buckets are enough for. -/
def race : List (Turn (Call Nat Nat)) :=
  (List.range 13).flatMap fun k =>
    [.call 0 (.errand (.insert k 0)), .call 1 (.errand (.insertIfAbsent k 1))] ++
      (List.replicate 16 [.step 0 true, .step 1 true]).flatten

theorem keeps_after_race :
    (small.askedKeys race).toFinset.card < 2 ^ 62 ∧ (small.after race).shared.length = 13 ∧
    (small.after race).shared.table.size = 32 ∧ small.Keeps race ∧ small.Settles race :=
  ⟨by decide +kernel, by decide +kernel, by decide +kernel,
    keeps_after small race (by decide +kernel)⟩

end Setup

end Growable.SharedMap
