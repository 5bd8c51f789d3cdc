import Growable.Proofs.SharedMap.Stages

/-!
# Errands in the order in which they are done

Threads that share a map do their errands one after the other, each in a single step, and whatever
order that is, the map is the ledger of these errands. What the threads do later lags behind: an
entry is counted after its bucket was left, and the table is looked at after that. `Accounted` says
how far behind they may be.
-/

namespace Growable.SharedMap

open Lock (Gate)

/-! ## The keys that are put in -/

section

variable {K V : Type}

/-- The key that a call puts in unless it is there. -/
def Call.inserted? : Call K V → Option K
  | errand (.insert k _) | errand (.insertIfAbsent k _) => some k
  | _ => none

theorem insertedKeys_eq_filterMap (calls : List (Call K V)) :
    insertedKeys calls = calls.filterMap Call.inserted? := by
  refine congrArg (fun f => calls.filterMap f) (funext fun call => ?_)
  cases call with
  | errand e => cases e <;> rfl
  | _ => rfl

theorem insertedKeys_concat (calls : List (Call K V)) (call : Call K V) :
    insertedKeys (calls ++ [call]) = insertedKeys calls ++ call.inserted?.toList := by
  rw [insertedKeys_eq_filterMap, insertedKeys_eq_filterMap, List.filterMap_append]
  cases h : call.inserted? with
  | none => simp [h]
  | some k => simp [h]

/-- The keys that errands put in, or found when they were to put them in. -/
def keysOf (es : List (Errand K V)) : List K := insertedKeys (es.map .errand)

theorem keysOf_concat (es : List (Errand K V)) (e : Errand K V) :
    keysOf (es ++ [e]) = keysOf es ++ (Call.errand e).inserted?.toList := by
  rw [keysOf, List.map_append]
  exact insertedKeys_concat ..

theorem mem_keysOf_append {es : List (Errand K V)} {k : K} (h : k ∈ keysOf es)
    (es' : List (Errand K V)) : k ∈ keysOf (es ++ es') := by
  rw [keysOf, insertedKeys_eq_filterMap, List.map_append, List.filterMap_append]
  exact List.mem_append_left _ (insertedKeys_eq_filterMap (es.map .errand) ▸ h)

theorem Errand.inserted?_of_adds {e : Errand K V} {v? : Option V} (h : e.adds v? = true) :
    (Call.errand e).inserted? = some e.key := by
  cases e with
  | insert | insertIfAbsent => rfl
  | get | contains => cases h

theorem Errand.eq_none_of_adds {e : Errand K V} {v? : Option V} (h : e.adds v? = true) :
    v? = none := by
  cases e with
  | insert | insertIfAbsent => exact Option.isNone_iff_eq_none.mp h
  | get | contains => cases h

theorem Errand.of_inserted? {e : Errand K V} {k : K} (h : (Call.errand e).inserted? = some k) :
    e.key = k ∧ e.adds none = true := by
  cases e with
  | insert | insertIfAbsent => exact ⟨Option.some.inj h, rfl⟩
  | get | contains => cases h

/-- A call that puts a key in is told that there was no value if and only if it puts it in. -/
theorem Errand.isNew_answerTo {e : Errand K V} {k : K}
    (h : (Call.errand e).inserted? = some k) (v? : Option V) :
    (e.answerTo v?).isNew = e.adds v? := by
  cases e with
  | insert | insertIfAbsent => cases v? <;> rfl
  | get | contains => cases h

end

/-! ## Tables and ledgers -/

/-- The table has the lines of a ledger in its buckets, whichever of them are taken. -/
structure Spread {K V : Type} (hash : K → UInt64) (kvs : Ledger K V) (t : Table K V) : Prop where
  pos : 0 < t.size
  table : bare t = tableOf hash kvs t.size

theorem size_grow {G : Gate} {K V : Type} (s : Shared G K V) :
    (grow s).table.size = roomFor s.length s.table.size := by
  unfold grow roomFor
  split
  · exact size_rehash ..
  · rfl

namespace Spread

variable {G : Gate} {K V : Type} {hash : K → UInt64} {kvs : Ledger K V} {t t' : Table K V}

theorem emptyTable (hash : K → UInt64) {n : Nat} (hn : 0 < n) :
    Spread hash [] (emptyTable n : Table K V) := by
  have hsize : (SharedMap.emptyTable n : Table K V).size = n := by simp [SharedMap.emptyTable]
  refine ⟨?_, ?_⟩
  · rw [hsize]
    exact hn
  · rw [hsize]
    exact (congrArg bare (emptyTable_eq_tableOf hash n)).trans (bare_tableOf ..)

/-- Locks do not matter. -/
theorem same (h : Spread hash kvs t) (hbare : bare t' = bare t) : Spread hash kvs t' := by
  refine ⟨?_, ?_⟩
  · rw [size_eq_of_bare hbare]
    exact h.pos
  · rw [hbare, size_eq_of_bare hbare]
    exact h.table

/-- What an errand does in the bucket of its key, it does to the ledger. -/
theorem visit [DecidableEq K] (h : Spread hash kvs t) (e : Errand K V) :
    Spread hash (e.applyTo kvs) (setEntries t (bucketOf (hash e.key) t.size)
      (e.perform (hash e.key) (entriesAt t (bucketOf (hash e.key) t.size))).1) := by
  have hset := setEntries_tableOf hash e kvs h.pos
  rw [← h.table, entriesAt_bare, ← bare_setEntries] at hset
  refine ⟨?_, ?_⟩
  · rw [size_setEntries]
    exact h.pos
  · rw [size_setEntries]
    exact hset

/-- What an errand finds in the bucket of its key, it finds in the ledger. -/
theorem answer_perform [DecidableEq K] (h : Spread hash kvs t) (e : Errand K V) :
    (e.perform (hash e.key) (entriesAt t (bucketOf (hash e.key) t.size))).2 =
      if e.adds (kvs.lookup e.key) then none else some (e.answerTo (kvs.lookup e.key)) := by
  rw [← answer_perform_tableOf hash e kvs h.pos, ← h.table, entriesAt_bare]

/-- In more buckets there are the same lines. -/
theorem grow {s : Shared G K V} (h : Spread hash kvs s.table) :
    Spread hash kvs (grow s).table := by
  obtain ⟨i, hi⟩ := roomFor_eq s.length s.table.size
  have hroom : rehash s.table (roomFor s.length s.table.size) =
      tableOf hash kvs (roomFor s.length s.table.size) := by
    rw [← rehash_bare, h.table, rehash_tableOf hash kvs h.pos ⟨2 ^ i, by rw [hi, Nat.mul_comm]⟩]
  refine ⟨?_, ?_⟩
  · rw [size_grow]
    exact Nat.lt_of_lt_of_le h.pos (le_roomFor _ _)
  · rw [size_grow]
    cases hload : isOverLoaded s.length s.table.size with
    | true =>
      rw [roomFor, if_pos hload] at hroom ⊢
      rw [grow_of_isOverLoaded hload]
      exact (congrArg bare hroom).trans (bare_tableOf ..)
    | false =>
      rw [roomFor, if_neg (by simp [hload]), grow_of_not_isOverLoaded hload]
      exact h.table

theorem tableEntries_eq (h : Spread hash kvs t) :
    tableEntries t = tableEntries (tableOf hash kvs t.size) := by
  rw [← h.table, tableEntries_bare]

end Spread

theorem Working.spread {G : Gate} {K V : Type} [DecidableEq K] {hash : K → UInt64}
    {kvs : Ledger K V} {s s' : Shared G K V} {k k' : Task K V} (h : Working hash s k s' k')
    (hs : Spread hash kvs s.table) :
    Spread hash (k.errand?.elim kvs fun e => e.applyTo kvs) s'.table := by
  cases h with
  | pass hnone hbare =>
    rw [hnone]
    exact hs.same hbare
  | look hbare _ hlooking =>
    rw [Task.errand?_of_stage hlooking (by rintro e ⟨⟩)]
    exact hs.same hbare
  | answer hbare _ hstage =>
    rcases hstage with hdecided | ⟨hlooking, -⟩
    · rw [Task.errand?_of_stage hdecided (by rintro e ⟨⟩)]
      exact hs.same hbare
    · rw [Task.errand?_of_stage hlooking (by rintro e ⟨⟩)]
      exact hs.same hbare
  | visit e => exact hs.visit e
  | count | countLoaded => exact hs
  | grow => exact hs.grow

/-! ## One thread after the other -/

section

variable {G : Gate} {K V : Type}

/-- The errand that is done in a turn. -/
def visited? (p : Pool (Shared G K V) (Client G K V)) : Turn (Call K V) → Option (Errand K V) :=
  Machine.seenOfStep? (fun _ _ c => c.task.errand?) p

/-- How many entries are to be counted. -/
def uncounted (p : Pool (Shared G K V) (Client G K V)) : Nat :=
  p.threads.toList.countP (·.task.stage.isPushed)

/-- What a table of `initial` buckets has become and what its threads still have to do, when the
errands done so far come to a ledger. -/
structure Accounted (hash : K → UInt64) (initial : Nat) (kvs : Ledger K V)
    (p : Pool (Shared G K V) (Client G K V)) : Prop where
  pos : 0 < p.shared.table.size
  table : bare p.shared.table = tableOf hash kvs p.shared.table.size
  /-- Every entry is counted or is to be counted. -/
  count : p.shared.length + uncounted p = kvs.length
  seen : ∀ {t n : Nat} {c : Client G K V}, p.threads[t]? = some c → c.task.stage = .pushed n →
    n ≤ p.shared.table.size
  grown : Grown initial p.shared.length p.shared.table.size
  /-- A table with too few buckets is to be looked at again. -/
  watched : 3 * p.shared.table.size < 4 * p.shared.length →
    ∃ (t : Nat) (c : Client G K V), p.threads[t]? = some c ∧ c.task.stage = .resizing

variable {hash : K → UInt64} {initial : Nat} {kvs : Ledger K V}
  {p : Pool (Shared G K V) (Client G K V)} {t : Nat} {c d : Client G K V} {s : Shared G K V}

theorem uncounted_put (ht : p.threads[t]? = some c) :
    uncounted (p.put t s d) + (if c.task.stage.isPushed then 1 else 0) =
      uncounted p + (if d.task.stage.isPushed then 1 else 0) :=
  Pool.countP_put (fun x : Client G K V => x.task.stage.isPushed) s ht

namespace Accounted

theorem spread (h : Accounted hash initial kvs p) : Spread hash kvs p.shared.table :=
  ⟨h.pos, h.table⟩

/-- A thread moves while the map stays as it is. -/
theorem same (h : Accounted hash initial kvs p) (ht : p.threads[t]? = some c)
    (htable : bare s.table = bare p.shared.table) (hlength : s.length = p.shared.length)
    (hstage : d.task.stage = c.task.stage ∨
      c.task.stage.isQuiet = true ∧ d.task.stage.isQuiet = true) :
    Accounted hash initial kvs (p.put t s d) := by
  have hsize : s.table.size = p.shared.table.size := size_eq_of_bare htable
  have hspread := h.spread.same htable
  have hpushed : d.task.stage.isPushed = c.task.stage.isPushed := by
    rcases hstage with hsame | ⟨hc, hd⟩
    · rw [hsame]
    · rw [Stage.isPushed_of_isQuiet hc, Stage.isPushed_of_isQuiet hd]
  refine ⟨hspread.pos, hspread.table, ?_, ?_, ?_, ?_⟩
  · have hput := uncounted_put (s := s) (d := d) ht
    have hcount := h.count
    rw [hpushed] at hput
    rw [Pool.shared_put, hlength]
    omega
  · intro u n x hu hx
    rw [Pool.shared_put, hsize]
    rcases (Pool.getElem?_put_iff ht).mp hu with ⟨-, rfl⟩ | ⟨-, hu'⟩
    · rcases hstage with hsame | ⟨-, hd⟩
      · exact h.seen ht (hsame ▸ hx)
      · rw [hx] at hd
        cases hd
    · exact h.seen hu' hx
  · rw [Pool.shared_put, hlength, hsize]
    exact h.grown
  · rw [Pool.shared_put, hlength, hsize]
    intro hload
    refine Pool.exists_getElem?_put ht ?_ (h.watched hload)
    intro hresizing
    rcases hstage with hsame | ⟨hc, -⟩
    · exact hsame.trans hresizing
    · rw [hresizing] at hc
      cases hc

/-- A thread counts its entry, and looks at the table again if it was too small for so many. -/
theorem counted (h : Accounted hash initial kvs p) (hkeys : kvs.length < 2 ^ 62)
    (ht : p.threads[t]? = some c) {n : Nat} (htable : s.table = p.shared.table)
    (hlength : s.length = p.shared.length + 1) (hbefore : c.task.stage = .pushed n)
    (hafter : isOverLoaded (p.shared.length + 1) n = false ∧ d.task.stage = .rest ∨
      isOverLoaded (p.shared.length + 1) n = true ∧ d.task.stage = .resizing) :
    Accounted hash initial kvs (p.put t s d) := by
  have hput := uncounted_put (s := s) (d := d) ht
  have hcount := h.count
  have hseen := h.seen ht hbefore
  have hnot : d.task.stage.isPushed = false := by
    rcases hafter with ⟨-, hrest⟩ | ⟨-, hresizing⟩
    · rw [hrest]
      rfl
    · rw [hresizing]
      rfl
  rw [hbefore, hnot, Stage.isPushed, if_pos rfl, if_neg Bool.false_ne_true] at hput
  have hspread := h.spread.same (congrArg bare htable)
  refine ⟨hspread.pos, hspread.table, ?_, ?_, ?_, ?_⟩
  · rw [Pool.shared_put, hlength]
    omega
  · intro u m x hu hx
    rw [Pool.shared_put, htable]
    rcases (Pool.getElem?_put_iff ht).mp hu with ⟨-, rfl⟩ | ⟨-, hu'⟩
    · rw [hx] at hnot
      cases hnot
    · exact h.seen hu' hx
  · rw [Pool.shared_put, hlength, htable]
    exact h.grown.mono (Nat.le_succ _)
  · rw [Pool.shared_put, hlength, htable]
    intro hload
    -- the table is no smaller now than when the entry went in, so the check was not missed
    have hnow := (isOverLoaded_iff (by omega) _).mpr hload
    rcases hafter with ⟨hnotLoaded, -⟩ | ⟨-, hresizing⟩
    · rw [isOverLoaded_of_le hnow hseen] at hnotLoaded
      cases hnotLoaded
    · exact ⟨t, d, (Pool.getElem?_put_iff ht).mpr (.inl ⟨rfl, rfl⟩), hresizing⟩

/-- A thread looks at the table. -/
theorem resized (h : Accounted hash initial kvs p) (hkeys : kvs.length < 2 ^ 62)
    (ht : p.threads[t]? = some c) (hbefore : c.task.stage = .resizing)
    {a : Answer K V} (hafter : d.task.stage = .decided a) :
    Accounted hash initial kvs (p.put t (grow p.shared) d) := by
  have hcount := h.count
  have hlen : p.shared.length < 2 ^ 62 := by omega
  have hlength : (grow p.shared).length = p.shared.length := by
    unfold grow
    split <;> rfl
  have hsize := size_grow p.shared
  have hspread := h.spread.grow
  have hput := uncounted_put (s := grow p.shared) (d := d) ht
  rw [hbefore, hafter] at hput
  simp only [Stage.isPushed, Bool.false_eq_true, if_false] at hput
  refine ⟨hspread.pos, hspread.table, ?_, ?_, ?_, ?_⟩
  · rw [Pool.shared_put, hlength]
    omega
  · intro u n x hu hx
    rw [Pool.shared_put, hsize]
    rcases (Pool.getElem?_put_iff ht).mp hu with ⟨-, rfl⟩ | ⟨-, hu'⟩
    · rw [hafter] at hx
      cases hx
    · exact Nat.le_trans (h.seen hu' hx) (le_roomFor _ _)
  · rw [Pool.shared_put, hlength, hsize]
    exact h.grown.roomFor hlen
  · rw [Pool.shared_put, hlength, hsize]
    intro hload
    have hfits := fits_roomFor hlen h.pos
    omega

variable [DecidableEq K]

/-- What an errand comes to in its bucket, it comes to in the ledger. -/
theorem outcome_visit (h : Accounted hash initial kvs p) (e : Errand K V) :
    e.outcome (hash e.key) (entriesAt p.shared.table (bucketOf (hash e.key) p.shared.table.size))
        p.shared.table.size =
      if e.adds (kvs.lookup e.key) then .pushed p.shared.table.size
      else .answer (e.answerTo (kvs.lookup e.key)) := by
  rw [Errand.outcome, h.spread.answer_perform e]
  cases e.adds (kvs.lookup e.key) <;> rfl

/-- A thread does its errand. -/
theorem visit (h : Accounted hash initial kvs p) (ht : p.threads[t]? = some c) {e : Errand K V}
    (htable : s.table = setEntries p.shared.table (bucketOf (hash e.key) p.shared.table.size)
      (e.perform (hash e.key)
        (entriesAt p.shared.table (bucketOf (hash e.key) p.shared.table.size))).1)
    (hlength : s.length = p.shared.length) (hbefore : c.task.stage = .before e)
    (hafter : d.task.stage = (if e.adds (kvs.lookup e.key) then .pushed p.shared.table.size
      else .decided (e.answerTo (kvs.lookup e.key)))) :
    Accounted hash initial (e.applyTo kvs) (p.put t s d) := by
  have hspread := h.spread.visit e
  rw [← htable] at hspread
  have hsize : s.table.size = p.shared.table.size := by
    rw [htable, size_setEntries]
  refine ⟨hspread.pos, hspread.table, ?_, ?_, ?_, ?_⟩
  · have hput := uncounted_put (s := s) (d := d) ht
    have hcount := h.count
    rw [hbefore, hafter] at hput
    rw [length_applyTo, Pool.shared_put, hlength]
    cases hadds : e.adds (kvs.lookup e.key) with
    | true =>
      simp only [hadds, Stage.isPushed, Bool.false_eq_true, if_true, if_false] at hput ⊢
      omega
    | false =>
      simp only [hadds, Stage.isPushed, Bool.false_eq_true, if_false] at hput ⊢
      omega
  · intro u n x hu hx
    rw [Pool.shared_put, hsize]
    rcases (Pool.getElem?_put_iff ht).mp hu with ⟨-, rfl⟩ | ⟨-, hu'⟩
    · rw [hafter] at hx
      split at hx
      · cases hx
        exact Nat.le_refl _
      · cases hx
    · exact h.seen hu' hx
  · rw [Pool.shared_put, hlength, hsize]
    exact h.grown
  · rw [Pool.shared_put, hlength, hsize]
    intro hload
    refine Pool.exists_getElem?_put ht ?_ (h.watched hload)
    intro hresizing
    rw [hbefore] at hresizing
    cases hresizing

/-- A thread takes a step. -/
theorem step (h : Accounted hash initial kvs p) (hkeys : kvs.length < 2 ^ 62)
    (ht : p.threads[t]? = some c) (hbusy : c.task.rests = false) (luck : Bool) :
    Accounted hash initial (c.task.errand?.elim kvs fun e => e.applyTo kvs)
      (p.put t (SharedMap.step hash luck p.shared c).1 (SharedMap.step hash luck p.shared c).2) := by
  have hworking := working hash luck p.shared c hbusy
  generalize SharedMap.step hash luck p.shared c = r at hworking
  rcases r with ⟨s, ⟨place, task⟩⟩
  rcases c with ⟨place', task'⟩
  cases hworking with
  | pass hnone htable hlength hstage =>
    rw [hnone]
    exact h.same ht htable hlength (.inl hstage)
  | look htable hlength hlooking _ hdecided =>
    rw [Task.errand?_of_stage hlooking (by rintro e ⟨⟩)]
    refine h.same ht htable hlength (.inr ⟨?_, ?_⟩)
    · rw [hlooking]
      rfl
    · rw [hdecided]
      rfl
  | answer htable hlength hstage =>
    rcases hstage with hdecided | ⟨hlooking, -⟩
    · rw [Task.errand?_of_stage hdecided (by rintro e ⟨⟩)]
      refine h.same ht htable hlength (.inr ⟨?_, rfl⟩)
      rw [hdecided]
      rfl
    · rw [Task.errand?_of_stage hlooking (by rintro e ⟨⟩)]
      refine h.same ht htable hlength (.inr ⟨?_, rfl⟩)
      rw [hlooking]
      rfl
  | visit e =>
    refine h.visit ht rfl rfl rfl ?_
    rw [h.outcome_visit e, Task.stage]
    split <;> rfl
  | count hload => exact h.counted hkeys ht rfl rfl rfl (.inl ⟨hload, rfl⟩)
  | countLoaded hload => exact h.counted hkeys ht rfl rfl rfl (.inr ⟨hload, rfl⟩)
  | grow => exact h.resized hkeys ht rfl rfl

end Accounted

end

/-! ## The ledger of errands -/

section

variable {K V : Type} [DecidableEq K]

/-- What errands come to, one after the other. -/
def ledgerOf (es : List (Errand K V)) : Ledger K V := es.foldl (fun kvs e => e.applyTo kvs) []

theorem ledgerOf_concat (es : List (Errand K V)) (e : Errand K V) :
    ledgerOf (es ++ [e]) = e.applyTo (ledgerOf es) := List.foldl_concat ..

/-- The ledger lists a finite map with the keys that were put in. -/
theorem exists_lists_ledgerOf (es : List (Errand K V)) :
    ∃ map : Finmap fun _ : K => V, Lists (ledgerOf es) map ∧
      map.keys = (keysOf es).toFinset := by
  refine ⟨((Reference.ofCapacity 0).after (es.map .errand)).map, ?_, Reference.keys_after 0 _⟩
  induction es using List.reverseRecOn with
  | nil => exact lists_of_lookup List.nodup_nil fun _ => rfl
  | append_singleton es e ih =>
    rw [ledgerOf_concat, List.map_append, Reference.after, List.foldl_append]
    exact ih.applyTo e

theorem mem_keys_ledgerOf_iff {es : List (Errand K V)} {k : K} :
    k ∈ (ledgerOf es).map Prod.fst ↔ k ∈ keysOf es := by
  obtain ⟨map, hlists, hkeys⟩ := exists_lists_ledgerOf es
  rw [hlists.mem_keys_iff, ← Finmap.mem_keys, hkeys, List.mem_toFinset]

theorem length_ledgerOf (es : List (Errand K V)) :
    (ledgerOf es).length = (keysOf es).toFinset.card := by
  obtain ⟨map, hlists, hkeys⟩ := exists_lists_ledgerOf es
  rw [← hlists.card_keys, hkeys]

end

/-! ## In every run -/

/-- A map as it is set up, and the number of threads that use it. -/
structure Setup (K : Type) where
  hash : K → UInt64
  /-- The number of entries that there is room for. -/
  capacity : Nat
  threads : Nat

namespace Setup

variable {K V : Type} [DecidableEq K]

/-- The map and its threads before the first turn. -/
def idle (S : Setup K) : Pool (Shared .layout K V) (Client .layout K V) :=
  ⟨(ofCapacity S.hash S.capacity).shared, Array.replicate S.threads {}⟩

/-- The map and its threads after some turns. -/
def after (S : Setup K) (turns : List (Turn (Call K V))) :
    Pool (Shared .layout K V) (Client .layout K V) :=
  (machine .layout S.hash).run S.idle turns

/-- What was seen of the calls in these turns. -/
def history (S : Setup K) (turns : List (Turn (Call K V))) :
    List (Machine.Event (Call K V) (Answer K V)) :=
  (machine .layout S.hash).history S.idle turns

/-- The errands that were done in these turns, in their order. -/
def visits (S : Setup K) (turns : List (Turn (Call K V))) : List (Errand K V) :=
  (machine .layout S.hash).observe visited? S.idle turns

/-- What is seen of a step of thread `t` that leads to this task. -/
def answered? (t : Nat) (k : Task K V) : Option (Machine.Event (Call K V) (Answer K V)) :=
  if k.rests then k.reply?.map (.answered t) else none

/-- What one more turn adds to a run: nothing, or a call handed to a thread at rest, or a step of a
thread under way. -/
inductive Advance (S : Setup K) (turns : List (Turn (Call K V))) :
    Turn (Call K V) → Pool (Shared .layout K V) (Client .layout K V) →
      List (Machine.Event (Call K V) (Answer K V)) → List (Errand K V) → Prop
  | idle {turn : Turn (Call K V)} :
    Advance S turns turn (S.after turns) (S.history turns) (S.visits turns)
  | call {t : Nat} {c : Client .layout K V} (call : Call K V) :
    (S.after turns).threads[t]? = some c → c.task.rests = true →
    Advance S turns (.call t call)
      ((S.after turns).put t (S.after turns).shared { c with task := .ofCall call })
      (S.history turns ++ [.called t call]) (S.visits turns)
  | step {t : Nat} {c : Client .layout K V} (luck : Bool) :
    (S.after turns).threads[t]? = some c → c.task.rests = false →
    Advance S turns (.step t luck)
      ((S.after turns).put t (step S.hash luck (S.after turns).shared c).1
        (step S.hash luck (S.after turns).shared c).2)
      (S.history turns ++ (answered? t (step S.hash luck (S.after turns).shared c).2.task).toList)
      (S.visits turns ++ c.task.errand?.toList)

theorem advance (S : Setup K) (turns : List (Turn (Call K V))) (turn : Turn (Call K V)) :
    S.Advance turns turn (S.after (turns ++ [turn])) (S.history (turns ++ [turn]))
      (S.visits (turns ++ [turn])) := by
  have hvisits := Machine.observe_concat (machine .layout S.hash) visited? S.idle turns turn
  have hhistory := Machine.history_concat (machine .layout S.hash) S.idle turns turn
  have hafter := Machine.run_concat (machine .layout S.hash) S.idle turns turn
  have hmoves := Machine.moves_act (machine .layout S.hash) (S.after turns) turn
  rw [after, history, visits, hafter, hhistory, hvisits]
  change S.Advance turns turn ((machine .layout S.hash).act (S.after turns) turn)
    (S.history turns ++ ((machine .layout S.hash).event? (S.after turns) turn).toList)
    (S.visits turns ++ (visited? (S.after turns) turn).toList)
  generalize (machine .layout S.hash).event? (S.after turns) turn = e,
    (machine .layout S.hash).act (S.after turns) turn = p' at hmoves
  cases hmoves with
  | idle hidle =>
    have hnone : visited? (S.after turns) turn = none := by
      refine Machine.seenOfStep?_of_idle (m := machine .layout S.hash) ?_ hidle
      rintro - - ⟨place, task⟩ hrest
      cases task with
      | visit => cases hrest
      | _ => rfl
    rw [hnone, Option.toList_none, List.append_nil, Option.toList_none, List.append_nil]
    exact .idle
  | @call t call c ht hrest =>
    have hstart : (machine .layout S.hash).rests ((machine .layout S.hash).start call c) = false := by
      cases call <;> rfl
    have hnone : visited? (S.after turns) (.call t call) = none := rfl
    rw [hstart, if_neg Bool.false_ne_true, hnone, Option.toList_none, List.append_nil]
    exact .call call ht hrest
  | @step t luck c ht hbusy =>
    have hvisited : visited? (S.after turns) (.step t luck) = c.task.errand? :=
      Machine.seenOfStep?_of_step ht
    rw [hvisited]
    exact .step luck ht hbusy

variable {S : Setup K} {turns : List (Turn (Call K V))} {turn : Turn (Call K V)}

theorem length_ledgerOf_le (S : Setup K) (turns : List (Turn (Call K V))) (turn : Turn (Call K V)) :
    (ledgerOf (S.visits turns)).length ≤ (ledgerOf (S.visits (turns ++ [turn]))).length := by
  have hadvance := S.advance turns turn
  generalize S.after (turns ++ [turn]) = p', S.history (turns ++ [turn]) = es,
    S.visits (turns ++ [turn]) = vs at hadvance
  cases hadvance with
  | idle => exact Nat.le_refl _
  | call => exact Nat.le_refl _
  | @step t c luck =>
    cases c.task.errand? with
    | none =>
      rw [Option.toList_none, List.append_nil]
    | some e =>
      rw [Option.toList_some, ledgerOf_concat, length_applyTo]
      exact Nat.le_add_right _ _

omit [DecidableEq K] in
theorem eq_of_idle {S : Setup K} {t : Nat} {c : Client .layout K V}
    (ht : S.idle.threads[t]? = some c) : c = {} := by
  obtain ⟨-, rfl⟩ := Array.getElem?_eq_some_iff.mp ht
  simp [idle]

omit [DecidableEq K] in
theorem spread_idle (S : Setup K) : Spread S.hash ([] : Ledger K V) S.idle.shared.table := by
  obtain ⟨i, hi⟩ := bucketsFor_eq S.capacity
  refine .emptyTable S.hash ?_
  rw [hi]
  exact Nat.two_pow_pos i

/-- After any turns the table has the lines that the errands done so far come to. -/
theorem spread_after (S : Setup K) (turns : List (Turn (Call K V))) :
    Spread S.hash (ledgerOf (S.visits turns)) (S.after turns).shared.table := by
  induction turns using List.reverseRecOn with
  | nil => exact S.spread_idle
  | append_singleton turns turn ih =>
    have hadvance := S.advance turns turn
    generalize S.after (turns ++ [turn]) = p', S.history (turns ++ [turn]) = es,
      S.visits (turns ++ [turn]) = vs at hadvance
    cases hadvance with
    | idle => exact ih
    | call => exact ih
    | @step t c luck ht hbusy =>
      have hstep := (working S.hash luck (S.after turns).shared c hbusy).spread ih
      cases hvisited : c.task.errand? with
      | none =>
        rw [hvisited] at hstep
        rw [Option.toList_none, List.append_nil]
        exact hstep
      | some e =>
        rw [hvisited] at hstep
        rw [Option.toList_some, ledgerOf_concat]
        exact hstep

omit [DecidableEq K] in
theorem accounted_idle (S : Setup K) :
    Accounted S.hash (bucketsFor S.capacity) ([] : Ledger K V) S.idle := by
  have hsize : (S.idle : Pool (Shared .layout K V) (Client .layout K V)).shared.table.size =
      bucketsFor S.capacity := by
    simp [idle, ofCapacity, emptyTable]
  have hspread := S.spread_idle (V := V)
  refine ⟨hspread.pos, hspread.table, ?_, ?_, ?_, ?_⟩
  · simp [idle, ofCapacity, uncounted, List.countP_replicate, Task.stage, Stage.isPushed]
  · intro t n c ht hc
    rw [eq_of_idle ht] at hc
    cases hc
  · rw [hsize]
    exact grown_initial ..
  · intro hload
    cases Nat.not_lt_zero _ hload

/-- After any turns, with less than 2⁶² entries, everything is accounted for. -/
theorem accounted_after (hkeys : (ledgerOf (S.visits turns)).length < 2 ^ 62) :
    Accounted S.hash (bucketsFor S.capacity) (ledgerOf (S.visits turns)) (S.after turns) := by
  induction turns using List.reverseRecOn with
  | nil => exact S.accounted_idle
  | append_singleton turns turn ih =>
    have hle := S.length_ledgerOf_le turns turn
    have hfew : (ledgerOf (S.visits turns)).length < 2 ^ 62 := Nat.lt_of_le_of_lt hle hkeys
    have h := ih hfew
    have hadvance := S.advance turns turn
    generalize S.after (turns ++ [turn]) = p', S.history (turns ++ [turn]) = es,
      S.visits (turns ++ [turn]) = vs at hadvance
    cases hadvance with
    | idle => exact h
    | @call t c call ht hrest =>
      refine h.same ht rfl rfl (.inr ⟨?_, ?_⟩)
      · rw [(Task.rests_iff_stage _).mp hrest]
        rfl
      · rw [Task.stage_ofCall]
        cases call <;> rfl
    | @step t c luck ht hbusy =>
      have hstep := h.step hfew ht hbusy luck
      cases hvisited : c.task.errand? with
      | none =>
        rw [hvisited] at hstep
        rw [Option.toList_none, List.append_nil]
        exact hstep
      | some e =>
        rw [hvisited] at hstep
        rw [Option.toList_some, ledgerOf_concat]
        exact hstep

end Setup

end Growable.SharedMap
