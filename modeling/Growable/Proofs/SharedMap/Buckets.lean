import Growable.Proofs.Lock.Stance
import Growable.Proofs.SharedMap.Visits

/-!
# One thread in a bucket

A thread is in a bucket from the swap that locks it to the store that unlocks it, and in shared mode
all that time. The bit of a bucket therefore tells how many threads are in it, which is never two;
and a thread that replaces the table, which it does in exclusive mode, finds nobody in any bucket.
That is what lets an errand and a growth each pass for a single step.
-/

namespace Growable.SharedMap

open Lock (Gate Gating Mode Stance)

/-! ## Tables and their locks -/

section

variable {K V : Type}

theorem isTaken_setTaken (t : Table K V) (b i : Nat) (taken : Bool) :
    isTaken (setTaken t b taken) i = if i = b ∧ b < t.size then taken else isTaken t i := by
  rw [isTaken, isTaken, setTaken, Array.getElem?_modify]
  by_cases hi : b = i
  · subst hi
    by_cases hb : b < t.size
    · simp [hb]
    · simp [hb]
  · simp [hi, Ne.symm hi]

theorem isTaken_setEntries (t : Table K V) (b i : Nat) (es : List (Entry K V)) :
    isTaken (setEntries t b es) i = isTaken t i := by
  rw [isTaken, isTaken, setEntries, Array.getElem?_modify]
  split
  · rw [Option.map_map]
    rfl
  · rfl

theorem lt_size_of_isTaken {t : Table K V} {b : Nat} (h : isTaken t b = true) : b < t.size := by
  refine Nat.lt_of_not_le fun hle => ?_
  rw [isTaken, Array.getElem?_eq_none hle] at h
  cases h

theorem isTaken_rehash (t : Table K V) (n b : Nat) : isTaken (rehash t n) b = false := by
  rw [isTaken, rehash, getElem?_foldl_pushEntry, emptyTable, Array.getElem?_replicate]
  split
  · rfl
  · rfl

variable {G : Gate}

theorem gate_grow (s : Shared G K V) : (grow s).gate = s.gate := by
  unfold grow
  split <;> rfl

/-- In the table that a growth leaves, no more buckets are taken than before. -/
theorem isTaken_of_grow {s : Shared G K V} {b : Nat} (h : isTaken (grow s).table b = true) :
    isTaken s.table b = true := by
  unfold grow at h
  split at h
  · rw [isTaken_rehash] at h
    cases h
  · exact h

end

/-! ## At the gate -/

section

variable {K V : Type}

/-- The stance of a task. -/
def Task.stance : Task K V → Stance
  | rest _ | length | count _ => .outside
  | sizeEnter | enter _ | walkEnter => .toward .shared
  | growEnter => .toward .exclusive
  | size | lock .. | visit _ | unlock .. | leave _ | walkLock .. | walkVisit .. | walkUnlock .. =>
    .holding .shared
  | grow | growLeave => .holding .exclusive

/-- What of a map and its threads concerns the gate. -/
def view (G : Gate) (K V : Type) : Lock.View G (Shared G K V) (Client G K V) where
  word := Shared.gate
  place := Client.place
  stance c := c.task.stance

variable {G : Gate}

theorem gating_enter (m : Mode) (luck : Bool) (s : Shared G K V) {c : Client G K V}
    {next : Task K V} (hstance : c.task.stance = .toward m) (hnext : next.stance = .holding m) :
    Gating luck s.gate c.place c.task.stance (enter m luck next s c).1.gate
      (enter m luck next s c).2.place (enter m luck next s c).2.task.stance := by
  have hentered : (enter m luck next s c).2.task.stance =
      if G.holds m (G.seek m luck s.gate c.place).2 then .holding m else .toward m := by
    simp only [enter]
    split
    · exact hnext
    · exact hstance
  rw [hentered]
  exact .enter m hstance

variable [DecidableEq K]

/-- Every step goes through the gate. -/
theorem gating (hash : K → UInt64) (luck : Bool) (s : Shared G K V) (c : Client G K V)
    (hbusy : c.task.rests = false) :
    Gating luck s.gate c.place c.task.stance (step hash luck s c).1.gate
      (step hash luck s c).2.place (step hash luck s c).2.task.stance := by
  rcases c with ⟨place, task⟩
  cases task with
  | rest => cases hbusy
  | sizeEnter | enter e | walkEnter => exact gating_enter .shared luck s rfl rfl
  | growEnter => exact gating_enter .exclusive luck s rfl rfl
  | lock e at' =>
    simp only [step]
    refine .go ?_
    split <;> exact rfl
  | leave o =>
    refine .leave rfl ?_
    cases o <;> exact trivial
  | count buckets =>
    simp only [step]
    refine .go ?_
    split <;> exact trivial
  | growLeave => exact .leave rfl trivial
  | walkLock b at' seen =>
    simp only [step]
    split
    · refine .go ?_
      dsimp only
      split <;> exact rfl
    · exact .go rfl
  | length => exact .go trivial
  | grow =>
    simp only [step, gate_grow]
    refine .go ?_
    exact rfl
  | size | visit | unlock | walkVisit | walkUnlock =>
    refine .go ?_
    exact rfl

theorem follows (hash : K → UInt64) : (view G K V).Follows (machine G hash) where
  start := by
    rintro call ⟨place, task⟩ hrest
    cases task with
    | rest last? =>
      refine ⟨rfl, ?_⟩
      cases call <;> exact trivial
    | _ => cases hrest
  step _ luck s c hbusy := gating hash luck s c hbusy

end

/-! ## In a bucket -/

section

variable {K V : Type}

/-- The bucket that a thread is in, of a table of `n` buckets. -/
def Task.bucket? (hash : K → UInt64) (n : Nat) : Task K V → Option Nat
  | visit e => some (bucketOf (hash e.key) n)
  | unlock b _ | walkVisit b _ | walkUnlock b _ => some b
  | _ => none

/-- Where a thread stands that is to lock a bucket. -/
def Task.knocking? : Task K V → Option Lock.Spin.Place
  | lock _ place | walkLock _ place _ => some place
  | _ => none

theorem Task.isInside_of_bucket? {hash : K → UInt64} {n b : Nat} {k : Task K V}
    (h : k.bucket? hash n = some b) : k.stance.isInside = true := by
  cases k with
  | visit | unlock | walkVisit | walkUnlock => rfl
  | _ => cases h

theorem Task.bucket?_of_not_isInside {k : Task K V} (h : k.stance.isInside = false)
    (hash : K → UInt64) (n : Nat) : k.bucket? hash n = none := by
  cases hbucket : k.bucket? hash n with
  | none => rfl
  | some b =>
    rw [Task.isInside_of_bucket? hbucket] at h
    cases h

/-- A thread that waits for a bucket is not inside it. -/
def Task.Knocks (k : Task K V) : Prop := k.knocking? ≠ some .inside

variable {G : Gate}

/-- What a step does to the locks of the buckets. -/
inductive Locking (hash : K → UInt64) (s : Shared G K V) (k : Task K V) :
    Shared G K V → Task K V → Prop
  | pass {s' : Shared G K V} {k' : Task K V} : s'.table.size = s.table.size →
      (∀ b, isTaken s'.table b = isTaken s.table b) →
      k'.bucket? hash s.table.size = k.bucket? hash s.table.size → Locking hash s k s' k'
  | take {s' : Shared G K V} {k' : Task K V} {b : Nat} : s'.table = setTaken s.table b true →
      b < s.table.size → isTaken s.table b = false → k.bucket? hash s.table.size = none →
      k'.bucket? hash s.table.size = some b → Locking hash s k s' k'
  | give {s' : Shared G K V} {k' : Task K V} {b : Nat} : s'.table = setTaken s.table b false →
      k.bucket? hash s.table.size = some b → k'.bucket? hash s.table.size = none →
      Locking hash s k s' k'
  | grow : k = .grow → Locking hash s k (grow s) .growLeave

/-- One step at the lock of a bucket, with `next` once it is taken and `again` while it is not. -/
theorem locking_seek (hash : K → UInt64) {s s' : Shared G K V} {k k' : Task K V} {b : Nat}
    {place : Lock.Spin.Place} (hb : b < s.table.size) (hplace : place ≠ .inside)
    (htable : s'.table = setTaken s.table b (Lock.Spin.seek (isTaken s.table b) place).1)
    (hk : k.bucket? hash s.table.size = none)
    (hin : (Lock.Spin.seek (isTaken s.table b) place).2 = .inside →
      k'.bucket? hash s.table.size = some b)
    (hout : (Lock.Spin.seek (isTaken s.table b) place).2 ≠ .inside →
      k'.bucket? hash s.table.size = none) : Locking hash s k s' k' := by
  have hstay (h : (Lock.Spin.seek (isTaken s.table b) place).1 = isTaken s.table b)
      (hnot : (Lock.Spin.seek (isTaken s.table b) place).2 ≠ .inside) : Locking hash s k s' k' := by
    rw [setTaken_of_isTaken h.symm] at htable
    refine .pass (by rw [htable]) (fun i => by rw [htable]) ?_
    rw [hk, hout hnot]
  cases htaken : isTaken s.table b with
  | true =>
    cases place with
    | out => exact hstay (by rw [htaken]; rfl) (by rw [htaken]; rintro ⟨⟩)
    | swap => exact hstay (by rw [htaken]; rfl) (by rw [htaken]; rintro ⟨⟩)
    | inside => exact absurd rfl hplace
  | false =>
    cases place with
    | out => exact hstay (by rw [htaken]; rfl) (by rw [htaken]; rintro ⟨⟩)
    | swap =>
      rw [htaken] at htable hin
      exact .take htable hb htaken hk (hin rfl)
    | inside => exact absurd rfl hplace

variable [DecidableEq K]

theorem locking (hash : K → UInt64) (luck : Bool) (s : Shared G K V) {c : Client G K V}
    (hpos : 0 < s.table.size) (hknocks : c.task.Knocks) :
    Locking hash s c.task (step hash luck s c).1 (step hash luck s c).2.task := by
  have hpass {s' : Shared G K V} {k k' : Task K V} (htable : s'.table = s.table)
      (hk : k.bucket? hash s.table.size = none) (hk' : k'.bucket? hash s.table.size = none) :
      Locking hash s k s' k' := by
    refine .pass (by rw [htable]) (fun b => by rw [htable]) ?_
    rw [hk, hk']
  rcases c with ⟨place, task⟩
  cases task with
  | sizeEnter | enter e | growEnter | walkEnter =>
    refine hpass rfl rfl ?_
    exact enter_task (P := fun k => k.bucket? hash s.table.size = none) rfl rfl
  | lock e at' =>
    refine locking_seek hash (bucketOf_lt _ hpos) (fun hin => hknocks (congrArg some hin)) rfl rfl
      ?_ ?_
    · intro hin
      simp only [step, if_pos hin]
      rfl
    · intro hnot
      simp only [step, if_neg hnot]
      rfl
  | visit e => exact .pass (size_setEntries ..) (isTaken_setEntries _ _ · _) rfl
  | unlock b o => exact .give rfl rfl rfl
  | leave o =>
    refine hpass rfl rfl ?_
    cases o <;> rfl
  | count buckets =>
    refine hpass rfl rfl ?_
    simp only [step]
    split <;> rfl
  | grow => exact .grow rfl
  | walkLock b at' seen =>
    simp only [step]
    split
    · rename_i hb
      refine locking_seek hash hb (fun hin => hknocks (congrArg some hin)) rfl rfl ?_ ?_
      · intro hin
        simp only [if_pos hin]
        rfl
      · intro hnot
        simp only [if_neg hnot]
        rfl
    · exact hpass rfl rfl rfl
  | walkVisit b seen => exact .pass rfl (fun _ => rfl) rfl
  | walkUnlock b seen => exact .give rfl rfl rfl
  | rest | length | size | growLeave => exact hpass rfl rfl rfl

theorem knocks_step (hash : K → UInt64) (luck : Bool) (s : Shared G K V) {c : Client G K V}
    (hknocks : c.task.Knocks) : (step hash luck s c).2.task.Knocks := by
  rcases c with ⟨place, task⟩
  cases task with
  | sizeEnter | enter e | growEnter | walkEnter =>
    refine enter_task (P := Task.Knocks) ?_ ?_ <;> rintro ⟨⟩
  | lock e at' =>
    simp only [step]
    split
    · rintro ⟨⟩
    · rename_i hnot
      exact fun hin => hnot (Option.some.inj hin)
  | leave o => cases o <;> rintro ⟨⟩
  | count buckets =>
    simp only [step]
    split <;> rintro ⟨⟩
  | walkLock b at' seen =>
    simp only [step]
    split
    · dsimp only
      split
      · rintro ⟨⟩
      · rename_i hnot
        exact fun hin => hnot (Option.some.inj hin)
    · rintro ⟨⟩
  | _ => rintro ⟨⟩

end

/-! ## All threads -/

section

variable {G : Gate} {K V : Type}

/-- How many threads are in a bucket. -/
def occupants (hash : K → UInt64) (p : Pool (Shared G K V) (Client G K V)) (b : Nat) : Nat :=
  p.threads.toList.countP fun c => c.task.bucket? hash p.shared.table.size == some b

/-- The bit of a bucket tells how many threads are in it. -/
structure Locked (hash : K → UInt64) (p : Pool (Shared G K V) (Client G K V)) : Prop where
  pos : 0 < p.shared.table.size
  occupied : ∀ b, occupants hash p b = if isTaken p.shared.table b then 1 else 0
  knocks : ∀ {t : Nat} {c : Client G K V}, p.threads[t]? = some c → c.task.Knocks

variable {hash : K → UInt64} {p : Pool (Shared G K V) (Client G K V)} {t u : Nat}
  {c d x : Client G K V} {s : Shared G K V}

theorem occupants_put (hash : K → UInt64) (ht : p.threads[t]? = some c)
    (hsize : s.table.size = p.shared.table.size) (b : Nat) :
    occupants hash (p.put t s d) b +
        (if c.task.bucket? hash p.shared.table.size = some b then 1 else 0) =
      occupants hash p b + if d.task.bucket? hash p.shared.table.size = some b then 1 else 0 := by
  have hput := Pool.countP_put (u := d)
    (fun x : Client G K V => x.task.bucket? hash p.shared.table.size == some b) s ht
  simp only [beq_iff_eq] at hput
  rw [occupants, Pool.shared_put, hsize]
  exact hput

theorem occupants_eq_zero {b : Nat} (h : ∀ {u : Nat} {x : Client G K V}, p.threads[u]? = some x →
    x.task.bucket? hash p.shared.table.size = none) : occupants hash p b = 0 := by
  refine Pool.countP_eq_zero fun hu => ?_
  rw [h hu]
  rfl

namespace Locked

theorem isTaken_of_bucket? (h : Locked hash p) (ht : p.threads[t]? = some c) {b : Nat}
    (hc : c.task.bucket? hash p.shared.table.size = some b) :
    isTaken p.shared.table b = true := by
  have hoccupied := h.occupied b
  have hpos : 0 < occupants hash p b := Pool.countP_pos_iff.mpr ⟨t, c, ht, beq_iff_eq.mpr hc⟩
  cases htaken : isTaken p.shared.table b with
  | true => rfl
  | false =>
    rw [htaken, if_neg Bool.false_ne_true] at hoccupied
    omega

/-- No two threads are in one bucket. -/
theorem apart (h : Locked hash p) (htu : t ≠ u) (ht : p.threads[t]? = some c)
    (hu : p.threads[u]? = some d) {b : Nat}
    (hc : c.task.bucket? hash p.shared.table.size = some b) :
    d.task.bucket? hash p.shared.table.size ≠ some b := by
  intro hd
  have hone : occupants hash p b ≤ 1 := by
    rw [h.occupied]
    split
    · exact Nat.le_refl 1
    · exact Nat.zero_le 1
  exact htu (Pool.eq_of_countP_le_one hone ht hu (beq_iff_eq.mpr hc) (beq_iff_eq.mpr hd))

/-- A thread moves in a table of as many buckets. -/
theorem move (h : Locked hash p) (ht : p.threads[t]? = some c)
    (hsize : s.table.size = p.shared.table.size) (hknocks : d.task.Knocks)
    (hoccupied : ∀ b, (if isTaken s.table b then 1 else 0) +
        (if c.task.bucket? hash p.shared.table.size = some b then 1 else 0) =
      (if isTaken p.shared.table b then 1 else 0) +
        if d.task.bucket? hash p.shared.table.size = some b then 1 else 0) :
    Locked hash (p.put t s d) := by
  refine ⟨?_, fun b => ?_, ?_⟩
  · rw [Pool.shared_put, hsize]
    exact h.pos
  · have hput := occupants_put (d := d) hash ht hsize b
    rw [h.occupied] at hput
    have hmoved := hoccupied b
    rw [Pool.shared_put]
    omega
  · intro u x hu
    rcases (Pool.getElem?_put_iff ht).mp hu with ⟨-, rfl⟩ | ⟨-, hu'⟩
    · exact hknocks
    · exact h.knocks hu'

/-- A thread replaces the table while no other is in a bucket. -/
theorem replace (h : Locked hash p) (ht : p.threads[t]? = some c) (hgrow : c.task = .grow)
    (hd : d.task = .growLeave)
    (halone : ∀ {u : Nat} {x : Client G K V}, u ≠ t → p.threads[u]? = some x →
      x.task.stance.isInside = false) : Locked hash (p.put t (grow p.shared) d) := by
  have hnobody {u : Nat} {x : Client G K V} (hu : p.threads[u]? = some x) (n : Nat) :
      x.task.bucket? hash n = none := by
    by_cases hut : u = t
    · subst hut
      obtain rfl := Option.some.inj (ht.symm.trans hu)
      rw [hgrow]
      rfl
    · exact Task.bucket?_of_not_isInside (halone hut hu) hash n
  refine ⟨?_, fun b => ?_, ?_⟩
  · rw [Pool.shared_put, size_grow]
    exact Nat.lt_of_lt_of_le h.pos (le_roomFor _ _)
  · have hopen : isTaken p.shared.table b = false := by
      have hoccupied := h.occupied b
      rw [occupants_eq_zero fun hu => hnobody hu _] at hoccupied
      cases htaken : isTaken p.shared.table b with
      | false => rfl
      | true =>
        rw [htaken, if_pos rfl] at hoccupied
        cases hoccupied
    have hopen' : isTaken (grow p.shared).table b = false := by
      rw [Bool.eq_false_iff]
      exact fun htaken => Bool.eq_false_iff.mp hopen (isTaken_of_grow htaken)
    rw [Pool.shared_put, hopen', if_neg Bool.false_ne_true]
    refine occupants_eq_zero fun hu => ?_
    rcases (Pool.getElem?_put_iff ht).mp hu with ⟨-, rfl⟩ | ⟨-, hu'⟩
    · rw [hd]
      rfl
    · exact hnobody hu' _
  · intro u x hu
    rcases (Pool.getElem?_put_iff ht).mp hu with ⟨-, rfl⟩ | ⟨-, hu'⟩
    · rw [hd]
      rintro ⟨⟩
    · exact h.knocks hu'

/-- A thread takes a step; if it is to replace the table, no other is in a bucket. -/
theorem step (h : Locked hash p) (ht : p.threads[t]? = some c)
    (halone : c.task = .grow → ∀ {u : Nat} {x : Client G K V}, u ≠ t → p.threads[u]? = some x →
      x.task.stance.isInside = false)
    (hlocking : Locking hash p.shared c.task s d.task) (hknocks : d.task.Knocks) :
    Locked hash (p.put t s d) := by
  generalize hd : d.task = k at hlocking
  cases hlocking with
  | pass hsize htaken hsame =>
    refine h.move ht hsize hknocks fun b => ?_
    rw [htaken, hd, hsame]
  | @take _ _ b htable hlt hfree hbefore hafter =>
    refine h.move ht (by rw [htable, size_setTaken]) hknocks fun i => ?_
    rw [htable, isTaken_setTaken, hd, hbefore, hafter]
    by_cases hi : i = b
    · subst hi
      simp [hlt, hfree]
    · simp [hi, Ne.symm hi]
  | @give _ _ b htable hbefore hafter =>
    refine h.move ht (by rw [htable, size_setTaken]) hknocks fun i => ?_
    have htaken := h.isTaken_of_bucket? ht hbefore
    rw [htable, isTaken_setTaken, hd, hbefore, hafter]
    by_cases hi : i = b
    · subst hi
      simp [lt_size_of_isTaken htaken, htaken]
    · simp [hi, Ne.symm hi]
  | grow hgrow => exact h.replace ht hgrow hd (halone hgrow)

end Locked

end

/-! ## In every run -/

namespace Setup

variable {K V : Type} [DecidableEq K] {S : Setup K} {turns : List (Turn (Call K V))} {t u : Nat}
  {c d : Client .layout K V}

/-- Every thread stands at the gate where its task says. -/
theorem orderly_after (S : Setup K) (turns : List (Turn (Call K V))) :
    (view .layout K V).Orderly Lock.Layout.Fits Lock.Layout.Toward (S.after turns) := by
  induction turns using List.reverseRecOn with
  | nil => exact Lock.View.orderly_idle Gate.excludes_layout rfl rfl rfl S.threads
  | append_singleton turns turn ih =>
    rw [after, Machine.run_concat]
    exact ih.act Gate.excludes_layout (follows S.hash) turn

/-- While a thread looks whether the table is too small, no other is in shared mode. -/
theorem alone_of_grow (htu : t ≠ u) (ht : (S.after turns).threads[t]? = some c)
    (hu : (S.after turns).threads[u]? = some d) (hgrow : c.task = .grow) :
    d.task.stance.isInside = false := by
  refine (S.orderly_after turns).apart Gate.excludes_layout htu ht hu ?_
  change c.task.stance = _
  rw [hgrow]
  rfl

omit [DecidableEq K] in
theorem locked_idle (S : Setup K) :
    Locked S.hash (S.idle : Pool (Shared .layout K V) (Client .layout K V)) := by
  refine ⟨?_, fun b => ?_, ?_⟩
  · exact S.accounted_idle.pos
  · have hopen : isTaken (emptyTable (bucketsFor S.capacity) : Table K V) b = false := by
      rw [emptyTable_eq_tableOf S.hash, isTaken_tableOf]
    rw [show S.idle.shared.table = emptyTable (bucketsFor S.capacity) from rfl, hopen,
      if_neg Bool.false_ne_true]
    refine occupants_eq_zero fun hu => ?_
    rw [eq_of_idle hu]
    rfl
  · intro t c ht
    rw [eq_of_idle ht]
    rintro ⟨⟩

/-- The bits of the buckets tell who is in them, whatever the turns were. -/
theorem locked_after (S : Setup K) (turns : List (Turn (Call K V))) :
    Locked S.hash (S.after turns) := by
  induction turns using List.reverseRecOn with
  | nil => exact S.locked_idle
  | append_singleton turns turn ih =>
    have hadvance := S.advance turns turn
    generalize S.after (turns ++ [turn]) = p', S.history (turns ++ [turn]) = es,
      S.visits (turns ++ [turn]) = vs at hadvance
    cases hadvance with
    | idle => exact ih
    | @call t c call ht hrest =>
      have hnone : c.task.bucket? S.hash (S.after turns).shared.table.size = none := by
        cases htask : c.task with
        | rest => rfl
        | _ =>
          rw [htask] at hrest
          cases hrest
      refine ih.step ht ?_ (.pass rfl (fun _ => rfl) ?_) ?_
      · intro hgrow
        rw [hgrow] at hrest
        cases hrest
      · rw [hnone]
        cases call <;> rfl
      · cases call <;> rintro ⟨⟩
    | @step t c luck ht hbusy =>
      refine ih.step ht ?_ (locking S.hash luck _ ih.pos (ih.knocks ht))
        (knocks_step S.hash luck _ (ih.knocks ht))
      exact fun hgrow _ _ hut hu => alone_of_grow (Ne.symm hut) ht hu hgrow

end Setup

end Growable.SharedMap
