import Growable.Proofs.Runs
import Growable.Proofs.SharedMap.Room

/-!
# How far a call has got

On its way through a call a thread waits at the gate and at the lock of a bucket, and between that it
takes three steps that matter: it does its errand in a bucket, it counts a new entry, and it looks
whether the table is too small. A stage is what a thread is at with the waiting left out, and
`Working` lists what a step can do to the stage and to the map.
-/

namespace Growable.SharedMap

open Lock (Gate Mode)

/-! ## Tables without their locks -/

section

variable {K V : Type}

/-- The table with no bucket taken. -/
def bare (t : Table K V) : Table K V := t.map fun b => { b with taken := false }

@[simp] theorem size_bare (t : Table K V) : (bare t).size = t.size := by
  simp [bare]

theorem size_eq_of_bare {t t' : Table K V} (h : bare t' = bare t) : t'.size = t.size := by
  rw [← size_bare, h, size_bare]

theorem getElem?_bare (t : Table K V) (b : Nat) :
    (bare t)[b]? = t[b]?.map fun bucket => { bucket with taken := false } := by
  rw [bare, Array.getElem?_map]

@[simp] theorem bare_setTaken (t : Table K V) (b : Nat) (taken : Bool) :
    bare (setTaken t b taken) = bare t := by
  apply Array.ext_getElem?
  intro i
  rw [getElem?_bare, getElem?_bare, setTaken, Array.getElem?_modify]
  split
  · rw [Option.map_map]
    rfl
  · rfl

theorem bare_setEntries (t : Table K V) (b : Nat) (es : List (Entry K V)) :
    bare (setEntries t b es) = setEntries (bare t) b es := by
  apply Array.ext_getElem?
  intro i
  rw [getElem?_bare, setEntries, setEntries, Array.getElem?_modify, Array.getElem?_modify,
    getElem?_bare]
  split
  · rw [Option.map_map, Option.map_map]
    rfl
  · rfl

theorem entriesAt_bare (t : Table K V) (b : Nat) : entriesAt (bare t) b = entriesAt t b := by
  rw [entriesAt, entriesAt, getElem?_bare, Option.map_map]
  rfl

theorem tableEntries_bare (t : Table K V) : tableEntries (bare t) = tableEntries t := by
  rw [tableEntries, tableEntries, bare, Array.toList_map, List.flatMap_map]

theorem rehash_bare (t : Table K V) (buckets : Nat) : rehash (bare t) buckets = rehash t buckets := by
  rw [rehash, rehash, tableEntries_bare]

theorem bare_tableOf (hash : K → UInt64) (kvs : Ledger K V) (n : Nat) :
    bare (tableOf hash kvs n) = tableOf hash kvs n := by
  apply Array.ext_getElem?
  intro b
  rw [getElem?_bare, getElem?_tableOf]
  split
  · rfl
  · rfl

end

/-! ## Stages -/

/-- How far a thread has got with a call. -/
inductive Stage (K V : Type) where
  /-- There is no call. -/
  | rest
  /-- The errand is to be done in its bucket. -/
  | before (e : Errand K V)
  /-- A new entry is in a table of this many buckets, and is to be counted. -/
  | pushed (buckets : Nat)
  /-- The entry is counted, and the table is to be looked at again. -/
  | resizing
  /-- The answer is certain. -/
  | decided (a : Answer K V)
  /-- The call only looks at the map. -/
  | looking

section

variable {K V : Type}

/-- There was no value. -/
def Answer.isNew : Answer K V → Bool
  | found none => true
  | _ => false

theorem Answer.eq_found_none_iff (a : Answer K V) : a = .found none ↔ a.isNew = true := by
  cases a with
  | found v? => cases v? <;> simp [isNew]
  | _ => simp [isNew]

/-- The stage of a thread that has done its errand. -/
def Outcome.stage : Outcome K V → Stage K V
  | answer a => .decided a
  | pushed buckets => .pushed buckets

/-- The stage of a task. -/
def Task.stage : Task K V → Stage K V
  | rest _ => .rest
  | enter e | lock e _ | visit e => .before e
  | unlock _ o | leave o => o.stage
  | count buckets => .pushed buckets
  | growEnter | grow => .resizing
  | growLeave => .decided (.found none)
  | length | sizeEnter | size | walkEnter | walkLock .. | walkVisit .. | walkUnlock .. => .looking

/-- The errand that the task does in its bucket now. -/
def Task.errand? : Task K V → Option (Errand K V)
  | visit e => some e
  | _ => none

theorem Task.rests_iff_stage (k : Task K V) : k.rests = true ↔ k.stage = .rest := by
  cases k with
  | rest => simp [rests, stage]
  | unlock b o | leave o => cases o <;> simp [rests, stage, Outcome.stage]
  | _ => simp [rests, stage]

theorem Task.rests_of_stage {k : Task K V} {a : Stage K V} (h : k.stage = a) (ha : a ≠ .rest) :
    k.rests = false := by
  rw [Bool.eq_false_iff]
  exact fun hrest => ha (h.symm.trans (k.rests_iff_stage.mp hrest))

theorem Task.errand?_of_stage {k : Task K V} {a : Stage K V} (h : k.stage = a)
    (ha : ∀ e, a ≠ .before e) : k.errand? = none := by
  cases k with
  | visit e => exact absurd h.symm (ha e)
  | _ => rfl

theorem Task.stage_of_errand? {k : Task K V} {e : Errand K V} (h : k.errand? = some e) :
    k.stage = .before e := by
  cases k with
  | visit e' => exact congrArg Stage.before (Option.some.inj h)
  | _ => cases h

/-- The entry of a thread in this stage is to be counted. -/
def Stage.isPushed : Stage K V → Bool
  | pushed _ => true
  | _ => false

/-- The entry of a thread in this stage is counted and the table was looked at, or there is none. -/
def Stage.isQuiet : Stage K V → Bool
  | pushed _ | resizing => false
  | _ => true

theorem Stage.isPushed_of_isQuiet {k : Stage K V} (h : k.isQuiet = true) : k.isPushed = false := by
  cases k with
  | pushed => cases h
  | _ => rfl

/-- A thread in this stage has been, or will be, told that there was no value. -/
def Stage.isNew : Stage K V → Bool
  | pushed _ | resizing => true
  | decided a => a.isNew
  | _ => false

theorem Task.stage_ofCall (call : Call K V) : (Task.ofCall call).stage =
    match call with
    | .errand e => .before e
    | _ => .looking := by
  cases call <;> rfl

end

/-! ## Steps -/

/-- What a step does to the map and to the stage of its thread. -/
inductive Working {G : Gate} {K V : Type} [DecidableEq K] (hash : K → UInt64) (s : Shared G K V) :
    Task K V → Shared G K V → Task K V → Prop
  /-- Waits, or goes on. -/
  | pass {task task' : Task K V} {s' : Shared G K V} : task.errand? = none →
      bare s'.table = bare s.table → s'.length = s.length → task'.stage = task.stage →
      Working hash s task s' task'
  /-- Has seen what was to be looked at. -/
  | look {task task' : Task K V} {s' : Shared G K V} {a : Answer K V} :
      bare s'.table = bare s.table → s'.length = s.length → task.stage = .looking →
      a.isNew = false → task'.stage = .decided a → Working hash s task s' task'
  /-- Comes to rest. -/
  | answer {task : Task K V} {s' : Shared G K V} {a : Answer K V} :
      bare s'.table = bare s.table → s'.length = s.length →
      task.stage = .decided a ∨ task.stage = .looking ∧ a.isNew = false →
      Working hash s task s' (.answer a)
  | visit (e : Errand K V) : Working hash s (.visit e)
      { s with
        table := setEntries s.table (bucketOf (hash e.key) s.table.size)
          (e.perform (hash e.key) (entriesAt s.table (bucketOf (hash e.key) s.table.size))).1 }
      (.unlock (bucketOf (hash e.key) s.table.size)
        (e.outcome (hash e.key) (entriesAt s.table (bucketOf (hash e.key) s.table.size))
          s.table.size))
  | count {buckets : Nat} : isOverLoaded (s.length + 1) buckets = false →
      Working hash s (.count buckets) { s with length := s.length + 1 } (.answer (.found none))
  | countLoaded {buckets : Nat} : isOverLoaded (s.length + 1) buckets = true →
      Working hash s (.count buckets) { s with length := s.length + 1 } .growEnter
  | grow : Working hash s .grow (grow s) .growLeave

section

variable {G : Gate} {K V : Type} [DecidableEq K] {hash : K → UInt64}

omit [DecidableEq K] in
/-- On the way into a mode a thread stays at its task, or gets to the next one. -/
theorem enter_task {P : Task K V → Prop} {m : Mode} {luck : Bool} {next : Task K V}
    {s : Shared G K V} {c : Client G K V} (hnext : P next) (hstay : P c.task) :
    P (enter m luck next s c).2.task := by
  simp only [enter]
  split
  · exact hnext
  · exact hstay

theorem working_enter (m : Mode) (luck : Bool) (s : Shared G K V) (c : Client G K V)
    {next : Task K V} (hnone : c.task.errand? = none) (h : next.stage = c.task.stage) :
    Working hash s c.task (enter m luck next s c).1 (enter m luck next s c).2.task := by
  refine .pass hnone rfl rfl ?_
  exact enter_task (P := fun k => k.stage = c.task.stage) h rfl

theorem working (hash : K → UInt64) (luck : Bool) (s : Shared G K V) (c : Client G K V)
    (hbusy : c.task.rests = false) :
    Working hash s c.task (step hash luck s c).1 (step hash luck s c).2.task := by
  rcases c with ⟨place, task⟩
  cases task with
  | rest => cases hbusy
  | length => exact .answer rfl rfl (.inr ⟨rfl, rfl⟩)
  | sizeEnter => exact working_enter .shared luck s ⟨place, .sizeEnter⟩ rfl rfl
  | size => exact .look rfl rfl rfl rfl rfl
  | enter e => exact working_enter .shared luck s ⟨place, .enter e⟩ rfl rfl
  | lock e at' =>
    refine .pass rfl (bare_setTaken ..) rfl ?_
    simp only [step]
    split <;> rfl
  | visit e => exact .visit e
  | unlock b o => exact .pass rfl (bare_setTaken ..) rfl rfl
  | leave o =>
    cases o with
    | answer a => exact .answer rfl rfl (.inl rfl)
    | pushed buckets => exact .pass rfl rfl rfl rfl
  | count buckets =>
    simp only [step]
    split
    · rename_i hload
      exact .countLoaded hload
    · rename_i hload
      exact .count (Bool.eq_false_iff.mpr hload)
  | growEnter => exact working_enter .exclusive luck s ⟨place, .growEnter⟩ rfl rfl
  | grow => exact .grow
  | growLeave => exact .answer rfl rfl (.inl rfl)
  | walkEnter => exact working_enter .shared luck s ⟨place, .walkEnter⟩ rfl rfl
  | walkLock b at' seen =>
    simp only [step]
    split
    · refine .pass rfl (bare_setTaken ..) rfl ?_
      dsimp only
      split <;> rfl
    · exact .look rfl rfl rfl rfl rfl
  | walkVisit b seen => exact .pass rfl rfl rfl rfl
  | walkUnlock b seen => exact .pass rfl (bare_setTaken ..) rfl rfl

end

end Growable.SharedMap
