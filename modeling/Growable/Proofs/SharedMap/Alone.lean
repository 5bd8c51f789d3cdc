import Growable.Proofs.Lock.Solo
import Growable.Proofs.SharedMap.Table
import Growable.SharedMap.Basic

/-!
# A map that one thread uses by itself

A thread that finds the gate free and no bucket taken gets every call done within the steps it is
granted, and leaves the gate free and no bucket taken. `Shared.perform` says what the call comes to,
without steps and locks.
-/

namespace Growable.SharedMap

open Lock (Gate Layout Mode)

section

variable {K V : Type} {t : Table K V} {b : Nat}

/-! ## The lock of a bucket -/

@[simp] theorem size_setTaken (t : Table K V) (b : Nat) (taken : Bool) :
    (setTaken t b taken).size = t.size := by
  rw [setTaken, Array.size_modify]

@[simp] theorem size_setEntries (t : Table K V) (b : Nat) (es : List (Entry K V)) :
    (setEntries t b es).size = t.size := by
  rw [setEntries, Array.size_modify]

theorem setTaken_of_isTaken {taken : Bool} (h : isTaken t b = taken) : setTaken t b taken = t := by
  apply Array.ext_getElem?
  intro i
  rw [setTaken, Array.getElem?_modify]
  by_cases hi : b = i
  · subst hi
    rw [if_pos rfl]
    rw [isTaken] at h
    cases hb : t[b]? with
    | none => rfl
    | some bucket =>
      rw [hb] at h
      subst h
      rfl
  · rw [if_neg hi]

theorem entriesAt_setTaken (t : Table K V) (b i : Nat) (taken : Bool) :
    entriesAt (setTaken t b taken) i = entriesAt t i := by
  rw [entriesAt, entriesAt, setTaken, Array.getElem?_modify]
  split
  · rw [Option.map_map]
    rfl
  · rfl

theorem setTaken_setTaken (t : Table K V) (b : Nat) (taken taken' : Bool) :
    setTaken (setTaken t b taken) b taken' = setTaken t b taken' := by
  apply Array.ext_getElem?
  intro i
  simp only [setTaken, Array.getElem?_modify]
  split
  · rw [Option.map_map]
    rfl
  · rfl

theorem setTaken_setEntries (t : Table K V) (b : Nat) (es : List (Entry K V)) (taken : Bool) :
    setTaken (setEntries t b es) b taken = setEntries (setTaken t b taken) b es := by
  apply Array.ext_getElem?
  intro i
  simp only [setTaken, setEntries, Array.getElem?_modify]
  split
  · rw [Option.map_map, Option.map_map]
    rfl
  · rfl

/-! ## Calls without steps -/

theorem grow_of_isOverLoaded (hload : isOverLoaded len t.size = true) :
    grow (⟨w, t, len, journal⟩ : Shared G K V) =
      ⟨w, rehash t (grownBuckets len (2 * t.size)), len,
        .resizing t.size (grownBuckets len (2 * t.size)) len :: journal⟩ := by
  simp [grow, hload]

theorem grow_of_not_isOverLoaded (hload : isOverLoaded len t.size = false) :
    grow (⟨w, t, len, journal⟩ : Shared G K V) = ⟨w, t, len, journal⟩ := by
  simp [grow, hload]

section

variable {G : Gate} [DecidableEq K]

/-- What a visit of the bucket that an errand's key selects comes to. -/
def Shared.visit (hash : K → UInt64) (s : Shared G K V) (e : Errand K V) :
    Shared G K V × Answer K V :=
  let b := bucketOf (hash e.key) s.table.size
  let r := e.perform (hash e.key) (entriesAt s.table b)
  match r.2 with
  | some a => ({ s with table := setEntries s.table b r.1 }, a)
  | none => (grow { s with table := setEntries s.table b r.1, length := s.length + 1 }, .found none)

/-- What a call comes to. -/
def Shared.perform (hash : K → UInt64) (s : Shared G K V) : Call K V → Shared G K V × Answer K V
  | .errand e => s.visit hash e
  | .entries => (s, .entries (tablePairs s.table))
  | .length => (s, .count s.length)
  | .capacity => (s, .count s.table.size)

end

end

/-! ## Calls step by step -/

section

variable {K V : Type} [DecidableEq K] {hash : K → UInt64} {w : Layout} {place : Layout.Place}
  {t : Table K V} {len : Nat} {journal : List Record}

/-- A thread gets into a free gate; what it holds then, it gives back by leaving. -/
theorem goes_enter (hash : K → UInt64) (t : Table K V) (len : Nat) (journal : List Record)
    (m : Mode) (task next : Task K V) (hrest : task.rests = false)
    (hstep : ∀ (s : Shared .layout K V) (p : Layout.Place),
      step hash true s ⟨p, task⟩ = enter m true next s ⟨p, task⟩) :
    ∃ w place, (machine .layout hash).Goes 0 8 (⟨{}, t, len, journal⟩, ⟨.out, task⟩)
        (⟨w, t, len, journal⟩, ⟨place, next⟩) ∧ Layout.leave w place = ({}, .out) := by
  obtain ⟨w, place, hseeks, hgate, hplace⟩ := Gate.solo_layout.enter m {} .out ⟨rfl, rfl⟩
  let stand (task : Task K V) (a : Layout × Layout.Place) :
      Shared .layout K V × Client .layout K V := (⟨a.1, t, len, journal⟩, ⟨a.2, task⟩)
  have hgoes : (machine .layout hash).Goes 0 8 (stand task ({}, .out)) (stand next (w, place)) := by
    refine hseeks.goes (stand task) (stand next) ?_ ?_
    · intro _
      exact hrest
    · rintro ⟨w, p⟩
      simp only [machine, hstep, enter, stand]
      split <;> rfl
  exact ⟨w, place, hgoes, Prod.ext hgate hplace⟩

/-- A thread inside leaves. -/
theorem goes_leave {task next : Task K V} (hrest : task.rests = false)
    (hstep : ∀ (s : Shared .layout K V) (p : Layout.Place),
      step hash true s ⟨p, task⟩ = leave next s ⟨p, task⟩)
    (hleave : Layout.leave w place = ({}, .out)) :
    (machine .layout hash).Goes 0 1 (⟨w, t, len, journal⟩, ⟨place, task⟩)
      (⟨{}, t, len, journal⟩, ⟨.out, next⟩) := by
  refine .one hrest ?_
  simp only [machine, hstep, leave, hleave]

theorem goes_lock (e : Errand K V) (hopen : ∀ b, isTaken t b = false) :
    (machine .layout hash).Goes 0 2 (⟨w, t, len, journal⟩, ⟨place, .lock e .out⟩)
      (⟨w, setTaken t (bucketOf (hash e.key) t.size) true, len, journal⟩, ⟨place, .visit e⟩) := by
  have hout : step hash true (⟨w, t, len, journal⟩ : Shared .layout K V) ⟨place, .lock e .out⟩ =
      (⟨w, t, len, journal⟩, ⟨place, .lock e .swap⟩) := by
    simp [step, Lock.Spin.seek, hopen, setTaken_of_isTaken]
  refine .next rfl hout (.one rfl ?_)
  simp [machine, step, Lock.Spin.seek, hopen]

/-- How an errand ends in its bucket. -/
def Errand.outcome (e : Errand K V) (h : UInt64) (es : List (Entry K V)) (buckets : Nat) :
    Outcome K V :=
  match (e.perform h es).2 with
  | some a => .answer a
  | none => .pushed buckets

theorem step_visit (hash : K → UInt64) (s : Shared .layout K V) (e : Errand K V) :
    step hash true s ⟨place, .visit e⟩ =
      ({ s with
          table := setEntries s.table (bucketOf (hash e.key) s.table.size)
            (e.perform (hash e.key) (entriesAt s.table (bucketOf (hash e.key) s.table.size))).1 },
        ⟨place, .unlock (bucketOf (hash e.key) s.table.size)
          (e.outcome (hash e.key) (entriesAt s.table (bucketOf (hash e.key) s.table.size))
            s.table.size)⟩) := rfl

theorem goes_visit (e : Errand K V) (hopen : ∀ b, isTaken t b = false) :
    (machine .layout hash).Goes 0 4 (⟨w, t, len, journal⟩, ⟨place, .lock e .out⟩)
      (⟨w, setEntries t (bucketOf (hash e.key) t.size) (e.perform (hash e.key)
          (entriesAt t (bucketOf (hash e.key) t.size))).1, len, journal⟩,
        ⟨place, .leave (e.outcome (hash e.key) (entriesAt t (bucketOf (hash e.key) t.size))
          t.size)⟩) := by
  refine (goes_lock e hopen).trans (.next rfl (step_visit hash _ e) (.one rfl ?_))
  simp only [machine, step, size_setTaken, entriesAt_setTaken, setTaken_setEntries,
    setTaken_setTaken, setTaken_of_isTaken (hopen _)]

/-- A new entry is counted, and the table grows if that is one entry too many. -/
theorem goes_count (hash : K → UInt64) (t : Table K V) (len : Nat) (journal : List Record) :
    (machine .layout hash).Goes 0 11 (⟨{}, t, len, journal⟩, ⟨.out, .count t.size⟩)
      (grow ⟨{}, t, len + 1, journal⟩, ⟨.out, .answer (.found none)⟩) := by
  cases hload : isOverLoaded (len + 1) t.size with
  | true =>
    obtain ⟨w, place, henter, hleave⟩ :=
      goes_enter hash t (len + 1) journal .exclusive .growEnter .grow rfl (fun _ _ => rfl)
    have hcount : (machine .layout hash).Goes 0 1 (⟨{}, t, len, journal⟩, ⟨.out, .count t.size⟩)
        (⟨{}, t, len + 1, journal⟩, ⟨.out, .growEnter⟩) := by
      refine .one rfl ?_
      simp [machine, step, hload]
    have hgrow : (machine .layout hash).Goes 0 1 (⟨w, t, len + 1, journal⟩, ⟨place, .grow⟩)
        (grow ⟨w, t, len + 1, journal⟩, ⟨place, .growLeave⟩) := .one rfl rfl
    rw [grow_of_isOverLoaded hload] at hgrow ⊢
    exact ((hcount.trans henter).trans hgrow).trans (goes_leave rfl (fun _ _ => rfl) hleave)
  | false =>
    rw [grow_of_not_isOverLoaded hload]
    refine (Machine.Goes.one rfl ?_).mono (by omega)
    simp [machine, step, hload]

/-- The thread gets an errand done. -/
theorem goes_errand (s : Shared .layout K V) (hgate : s.gate = {})
    (hopen : ∀ b, isTaken s.table b = false) (e : Errand K V) :
    (machine .layout hash).Goes 0 24 (s, ⟨.out, .enter e⟩)
      ((s.visit hash e).1, ⟨.out, .answer (s.visit hash e).2⟩) := by
  rcases s with ⟨gate, t, len, journal⟩
  obtain rfl : gate = {} := hgate
  obtain ⟨w, place, henter, hleave⟩ :=
    goes_enter hash t len journal .shared (.enter e) (.lock e .out) rfl (fun _ _ => rfl)
  have hvisit := (henter.trans (goes_visit e hopen)).trans
    (goes_leave rfl (fun _ _ => rfl) hleave)
  simp only [Shared.visit]
  cases hanswer : (e.perform (hash e.key)
      (entriesAt t (bucketOf (hash e.key) t.size))).2 with
  | some a =>
    simp only [Errand.outcome, hanswer, Task.ofOutcome] at hvisit
    exact hvisit.mono (by omega)
  | none =>
    simp only [Errand.outcome, hanswer, Task.ofOutcome] at hvisit
    have hcount := goes_count hash (setEntries t (bucketOf (hash e.key) t.size)
      (e.perform (hash e.key) (entriesAt t (bucketOf (hash e.key) t.size))).1) len journal
    rw [size_setEntries] at hcount
    exact hvisit.trans hcount

/-! ## Walks -/

theorem goes_walk_bucket (hopen : ∀ b, isTaken t b = false) {b : Nat} (hb : b < t.size)
    (seen : Array (K × V)) :
    (machine .layout hash).Goes 0 4 (⟨w, t, len, journal⟩, ⟨place, .walkLock b .out seen⟩)
      (⟨w, t, len, journal⟩, ⟨place, .walkLock (b + 1) .out
        (seen ++ (entriesAt t b).map fun e => (e.key, e.value))⟩) := by
  have hout : (machine .layout hash).step 0 true ⟨w, t, len, journal⟩
      ⟨place, .walkLock b .out seen⟩ = (⟨w, t, len, journal⟩, ⟨place, .walkLock b .swap seen⟩) := by
    simp [machine, step, hb, Lock.Spin.seek, hopen, setTaken_of_isTaken]
  have hswap : (machine .layout hash).step 0 true ⟨w, t, len, journal⟩
      ⟨place, .walkLock b .swap seen⟩ =
        (⟨w, setTaken t b true, len, journal⟩, ⟨place, .walkVisit b seen⟩) := by
    simp [machine, step, hb, Lock.Spin.seek, hopen]
  refine .next rfl hout (.next rfl hswap (.next rfl rfl (.one rfl ?_)))
  simp only [machine, step, entriesAt_setTaken, setTaken_setTaken, setTaken_of_isTaken (hopen b)]

theorem goes_walk (hash : K → UInt64) (w : Layout) (place : Layout.Place) (len : Nat)
    (journal : List Record) (hopen : ∀ b, isTaken t b = false) (left b : Nat)
    (hb : b + left = t.size) (seen : Array (K × V)) :
    (machine .layout hash).Goes 0 (4 * left + 1)
      (⟨w, t, len, journal⟩, ⟨place, .walkLock b .out seen⟩)
      (⟨w, t, len, journal⟩, ⟨place, .leave (.answer (.entries (seen.toList ++
        ((t.toList.drop b).flatMap (·.entries)).map fun e => (e.key, e.value))))⟩) := by
  induction left generalizing b seen with
  | zero =>
    have hdrop : t.toList.drop b = [] := List.drop_eq_nil_of_le (by simp; omega)
    refine .one rfl ?_
    have hend : ¬ b < t.size := by omega
    simp [machine, step, hend, hdrop]
  | succ left ih =>
    have hlt : b < t.size := by omega
    have hentries : entriesAt t b = t[b].entries := by
      rw [entriesAt, Array.getElem?_eq_getElem hlt]
      rfl
    have hdrop : t.toList.drop b = t[b] :: t.toList.drop (b + 1) := by
      rw [List.drop_eq_getElem_cons (by simpa using hlt), Array.getElem_toList]
    have hrest := ih (b + 1) (by omega) (seen ++ (entriesAt t b).map fun e => (e.key, e.value))
    rw [Array.toList_appendList, hentries, List.append_assoc, ← List.map_append,
      ← List.flatMap_cons, ← hdrop, ← hentries] at hrest
    exact ((goes_walk_bucket hopen hlt seen).trans hrest).mono (by omega)

/-! ## Calls -/

theorem goes_perform (hash : K → UInt64) (s : Shared .layout K V) (hgate : s.gate = {})
    (hopen : ∀ b, isTaken s.table b = false) (c : Call K V) :
    (machine .layout hash).Goes 0 (fuel s) (s, ⟨.out, .ofCall c⟩)
      ((s.perform hash c).1, ⟨.out, .answer (s.perform hash c).2⟩) := by
  cases c with
  | errand e =>
    apply (goes_errand s hgate hopen e).mono
    change 24 ≤ 2 * 8 + 4 * s.table.size + 16
    omega
  | entries =>
    rcases s with ⟨gate, t, len, journal⟩
    obtain rfl : gate = {} := hgate
    have hopen : ∀ b, isTaken t b = false := hopen
    obtain ⟨w, place, henter, hleave⟩ :=
      goes_enter hash t len journal .shared .walkEnter (.walkLock 0 .out #[]) rfl (fun _ _ => rfl)
    have hwalk := goes_walk hash w place len journal hopen t.size 0 (Nat.zero_add _) #[]
    apply ((henter.trans hwalk).trans (goes_leave rfl (fun _ _ => rfl) hleave)).mono
    change 8 + (4 * t.size + 1) + 1 ≤ 2 * 8 + 4 * t.size + 16
    omega
  | length => exact (Machine.Goes.one rfl rfl).mono (by simp [fuel])
  | capacity =>
    rcases s with ⟨gate, t, len, journal⟩
    obtain rfl : gate = {} := hgate
    obtain ⟨w, place, henter, hleave⟩ :=
      goes_enter hash t len journal .shared .sizeEnter .size rfl (fun _ _ => rfl)
    have hsize : (machine .layout hash).Goes 0 1 (⟨w, t, len, journal⟩, ⟨place, .size⟩)
        (⟨w, t, len, journal⟩, ⟨place, .leave (.answer (.count t.size))⟩) := .one rfl rfl
    apply ((henter.trans hsize).trans (goes_leave rfl (fun _ _ => rfl) hleave)).mono
    change 8 + 1 + 1 ≤ 2 * 8 + 4 * t.size + 16
    omega

end

/-- A map that no thread is in performs every call. -/
theorem perform_eq {K V : Type} [DecidableEq K] (m : SharedMap K V) (hgate : m.shared.gate = {})
    (hopen : ∀ b, isTaken m.shared.table b = false) (c : Call K V) :
    m.perform c =
      (⟨m.hash, (m.shared.perform m.hash c).1⟩, some (m.shared.perform m.hash c).2) := by
  rcases m with ⟨hash, s⟩
  have hgoes := goes_perform hash s hgate hopen c
  have hrun : (machine .layout hash).perform 0 (fuel s) c s {} = _ :=
    Machine.perform_of_goes hgoes rfl (Nat.le_refl _)
  simp only [SharedMap.perform]
  rw [hrun]
  rfl

end Growable.SharedMap
