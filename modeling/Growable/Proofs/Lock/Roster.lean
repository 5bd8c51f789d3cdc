import Growable.Lock.Roster
import Growable.Proofs.Runs

/-!
# Who has which index

Every index below the next new one is accounted for once: a thread has it, or it was given back. The
whole of it is one equation for each index, the number of threads that have it and the number of
times it was given back adding up to one, and it is kept by the look at the indices given back, by
the later draw of a new one and by the return at a thread's end, however they are mixed.
-/

namespace Growable.Lock.Roster

/-- Threads that have not asked for an index yet. -/
def idle (threads : Nat) : Pool Roster Client := ⟨{}, .replicate threads {}⟩

/-- Thread `t` has index `i`. -/
def Has (p : Pool Roster Client) (t i : Nat) : Prop :=
  ∃ c, p.threads[t]? = some c ∧ c.index? = some i

/-- The client has index `i`. -/
def Client.has (i : Nat) (c : Client) : Bool := c.index? == some i

/-- What a thread is doing fits what it has: only a thread without an index looks for one. -/
def Client.Sound (c : Client) : Prop :=
  match c.task with
  | .rest => True
  | .scanning | .drawing => c.index? = none
  | .releasing => c.index?.isSome = true

/-- Every index below the next new one is accounted for exactly once, and no other is at all. -/
structure Accounted (p : Pool Roster Client) : Prop where
  once : ∀ i, p.threads.toList.countP (Client.has i) + p.shared.free.count i =
    if i < p.shared.next then 1 else 0
  sound : ∀ {t : Nat} {c : Client}, p.threads[t]? = some c → c.Sound

variable {p : Pool Roster Client} {r : Roster} {t u i j : Nat} {c d : Client}

theorem accounted_idle (threads : Nat) : Accounted (idle threads) := by
  constructor
  · intro i
    simp [idle, List.countP_replicate, Client.has]
  · intro t c ht
    obtain ⟨-, rfl⟩ := Array.getElem?_eq_some_iff.mp ht
    simp [idle, Client.Sound]

theorem Client.sound_start (q : Request) (h : c.task = .rest) : (c.start q).Sound := by
  have hrest : c.Sound := by
    rw [Client.Sound, h]
    exact trivial
  cases q with
  | acquire =>
    simp only [Client.start]
    split
    · rename_i hnone
      exact Option.isNone_iff_eq_none.mp hnone
    · exact hrest
  | release =>
    simp only [Client.start]
    split
    · rename_i hsome
      exact hsome
    · exact hrest

theorem Client.index?_start (q : Request) (c : Client) : (c.start q).index? = c.index? := by
  cases q <;> simp only [Client.start] <;> split <;> rfl

/-- One thread has moved. -/
theorem Accounted.put (h : Accounted p) (ht : p.threads[t]? = some c) (hd : d.Sound)
    (hcount : ∀ i, r.free.count i + (if d.has i then 1 else 0) + (if i < p.shared.next then 1 else 0) =
      p.shared.free.count i + (if c.has i then 1 else 0) + (if i < r.next then 1 else 0)) :
    Accounted (p.put t r d) := by
  constructor
  · intro i
    have hput := Pool.countP_put (u := d) (Client.has i) r ht
    have hone := h.once i
    have hmove := hcount i
    rw [Pool.shared_put]
    omega
  · intro u x hu
    rcases (Pool.getElem?_put_iff ht).mp hu with ⟨-, rfl⟩ | ⟨-, hu'⟩
    · exact hd
    · exact h.sound hu'

theorem count_erase_add (hi : i ∈ r.free) (j : Nat) :
    (r.free.erase i).count j + (if i = j then 1 else 0) = r.free.count j := by
  have hperm := (List.perm_cons_erase hi).count_eq j
  rw [List.count_cons] at hperm
  simpa [beq_iff_eq] using hperm.symm

theorem Accounted.step (h : Accounted p) (ht : p.threads[t]? = some c) :
    Accounted (p.put t (c.step p.shared).1 (c.step p.shared).2) := by
  have hsound := h.sound ht
  rcases c with ⟨index?, task⟩
  cases task with
  | rest => exact h.put ht trivial fun j => rfl
  | scanning =>
    obtain rfl : index? = none := hsound
    simp only [Client.step, scan]
    cases hmin : p.shared.free.min? with
    | none => exact h.put ht rfl fun j => rfl
    | some i =>
      refine h.put ht trivial ?_
      intro j
      have herase := count_erase_add (r := p.shared) (List.min?_mem hmin) j
      simp only [Client.has, beq_iff_eq, Option.some.injEq, reduceCtorEq, if_false]
      omega
  | drawing =>
    obtain rfl : index? = none := hsound
    simp only [Client.step, draw]
    refine h.put ht trivial ?_
    intro j
    simp only [Client.has, beq_iff_eq, Option.some.injEq, reduceCtorEq, if_false]
    split <;> split <;> split <;> omega
  | releasing =>
    obtain ⟨i, rfl⟩ := Option.isSome_iff_exists.mp hsound
    simp only [Client.step, release]
    refine h.put ht trivial ?_
    intro j
    simp only [Client.has, beq_iff_eq, Option.some.injEq, reduceCtorEq, if_false, List.count_cons]
    omega

theorem Accounted.act (h : Accounted p) (turn : Turn Request) : Accounted (client.act p turn) := by
  refine Machine.act_keeps h ?_ ?_ turn
  · intro t c q ht hrest
    refine h.put ht (Client.sound_start q (by simpa [client] using hrest)) ?_
    intro i
    have hindex : (client.start q c).index? = c.index? := Client.index?_start q c
    rw [Client.has, hindex]
    rfl
  · intro t c luck ht _
    exact h.step ht

/-- After any turns every index is accounted for. -/
theorem accounted_after (threads : Nat) (turns : List (Turn Request)) :
    Accounted (client.run (idle threads) turns) := by
  induction turns using List.reverseRecOn with
  | nil => exact accounted_idle threads
  | append_singleton turns turn ih =>
    rw [Machine.run_concat]
    exact ih.act turn

/-! ## What follows -/

/-- Where the list of indices given back is kept in some order, the last member is put in the place
of the `k`-th. -/
def swapRemove (l : List Nat) (k : Nat) : List Nat := (l.set k (l.getLastD 0)).dropLast

theorem perm_swapRemove {l : List Nat} {k : Nat} (h : l[k]? = some i) :
    (i :: swapRemove l k).Perm l := by
  obtain ⟨a, b, rfl, rfl⟩ : ∃ a b, l = a ++ i :: b ∧ a.length = k := by
    obtain ⟨hlt, rfl⟩ := List.getElem?_eq_some_iff.mp h
    exact ⟨l.take k, l.drop (k + 1), by simp, by simp; omega⟩
  rcases b.eq_nil_or_concat with rfl | ⟨b, x, rfl⟩
  · have hremoved : swapRemove (a ++ [i]) a.length = a := by simp [swapRemove]
    rw [hremoved]
    exact (List.perm_append_singleton i a).symm
  · rw [List.concat_eq_append]
    have hlast : (a ++ i :: (b ++ [x])).getLastD 0 = x := by
      rw [show a ++ i :: (b ++ [x]) = (a ++ i :: b) ++ [x] by simp]
      exact List.getLastD_concat ..
    have hremoved : swapRemove (a ++ i :: (b ++ [x])) a.length = a ++ x :: b := by
      rw [swapRemove, hlast, List.set_append_right _ _ (Nat.le_refl _), Nat.sub_self,
        List.set_cons_zero, show a ++ x :: (b ++ [x]) = (a ++ x :: b) ++ [x] by simp,
        List.dropLast_concat]
    rw [hremoved]
    calc (i :: (a ++ x :: b)).Perm (a ++ i :: x :: b) := List.perm_middle.symm
      _ |>.Perm (a ++ i :: (b ++ [x])) :=
        ((List.perm_append_singleton x b).symm.cons i).append_left a

theorem Accounted.eq_of_has (h : Accounted p) (ht : Has p t i) (hu : Has p u i) : t = u := by
  obtain ⟨c, hc, hci⟩ := ht
  obtain ⟨d, hd, hdi⟩ := hu
  have hone := h.once i
  have hle : p.threads.toList.countP (Client.has i) ≤ 1 := by
    split at hone <;> omega
  exact Pool.eq_of_countP_le_one hle hc hd (by simp [Client.has, hci]) (by simp [Client.has, hdi])

theorem has_iff_countP : (∃ t, Has p t i) ↔ 0 < p.threads.toList.countP (Client.has i) := by
  rw [Pool.countP_pos_iff]
  simp only [Has, Client.has, beq_iff_eq]

theorem next_le_act (p : Pool Roster Client) (turn : Turn Request) :
    p.shared.next ≤ (client.act p turn).shared.next := by
  refine Machine.act_keeps (P := fun q : Pool Roster Client => p.shared.next ≤ q.shared.next)
    (Nat.le_refl _) (fun _ _ _ => Nat.le_refl _) ?_ turn
  intro t c luck _ _
  show p.shared.next ≤ (c.step p.shared).1.next
  unfold Client.step
  split
  · exact Nat.le_refl _
  · unfold scan
    cases p.shared.free.min? <;> exact Nat.le_refl _
  · exact Nat.le_succ _
  · cases c.index? <;> exact Nat.le_refl _

theorem next_le_run (p : Pool Roster Client) (turns : List (Turn Request)) :
    p.shared.next ≤ (client.run p turns).shared.next := by
  induction turns generalizing p with
  | nil => exact Nat.le_refl _
  | cons turn turns ih => exact Nat.le_trans (next_le_act p turn) (ih (client.act p turn))

/-- The look at the indices given back finds the least, and takes no other. -/
theorem scan_of_perm {l : List Nat} {k : Nat} (hl : l.Perm r.free) (hk : l[k]? = some i)
    (hleast : ∀ j ∈ l, i ≤ j) :
    r.scan.2 = some i ∧ r.scan.1.next = r.next ∧ (swapRemove l k).Perm r.scan.1.free := by
  have hmin : r.free.min? = some i := by
    rw [List.min?_eq_some_iff]
    exact ⟨hl.mem_iff.mp (List.mem_of_getElem? hk), fun j hj => hleast j (hl.mem_iff.mpr hj)⟩
  have hperm : (swapRemove l k).Perm (r.free.erase i) :=
    ((perm_swapRemove hk).trans (hl.trans (List.perm_cons_erase (List.min?_mem hmin)))).cons_inv
  simp only [scan, hmin]
  exact ⟨trivial, trivial, hperm⟩

/-- Which indices the threads have, and which were given back. -/
structure Allotted (p : Pool Roster Client) : Prop where
  /-- An index drawn so far is with one thread and was not given back, or is with none and was given
  back once. -/
  once : ∀ i < p.shared.next,
    (∃! t, Has p t i) ∧ i ∉ p.shared.free ∨ (∀ t, ¬ Has p t i) ∧ p.shared.free.count i = 1
  /-- No other index is anywhere. -/
  others : ∀ i, p.shared.next ≤ i → (∀ t, ¬ Has p t i) ∧ i ∉ p.shared.free
  /-- No two threads have the same index. -/
  distinct : ∀ t u i, Has p t i → Has p u i → t = u
  /-- A thread that looks at the indices given back, if there are any, gets the least. In whatever
  order they are kept, the others are still there when the last has been put in its place. -/
  least : ∀ (t : Nat) (c : Client) (luck : Bool), p.threads[t]? = some c → c.task = .scanning →
    p.shared.free ≠ [] → ∃ i,
      client.event? p (.step t luck) = some (.answered t (some i)) ∧
      (∀ j ∈ p.shared.free, i ≤ j) ∧
      (client.act p (.step t luck)).shared.next = p.shared.next ∧
      ∀ (l : List Nat) (k : Nat), l.Perm p.shared.free → l[k]? = some i →
        (swapRemove l k).Perm (client.act p (.step t luck)).shared.free
  /-- A thread that found none draws the next new one, whatever was given back since. -/
  draws : ∀ (t : Nat) (c : Client) (luck : Bool), p.threads[t]? = some c → c.task = .drawing →
    client.event? p (.step t luck) = some (.answered t (some p.shared.next)) ∧
      (client.act p (.step t luck)).shared = { p.shared with next := p.shared.next + 1 }
  /-- From the time a thread has an index with a flag on, the high-water mark is above it. -/
  marked : ∀ (t i : Nat) (more : List (Turn Request)), Has p t i → i < flagged →
    i < (client.run p more).shared.highWater ∧ (client.run p more).shared.highWater ≤ flagged

/-- However threads take indices and give them back, each index has its place. -/
theorem allotted_after (threads : Nat) (turns : List (Turn Request)) :
    Allotted (client.run (idle threads) turns) := by
  have h := accounted_after threads turns
  generalize client.run (idle threads) turns = p at h
  have hlt {t i : Nat} (hi : Has p t i) : i < p.shared.next := by
    have hone := h.once i
    have hpos := has_iff_countP.mp ⟨t, hi⟩
    split at hone <;> omega
  refine ⟨?_, ?_, fun t u i ht hu => h.eq_of_has ht hu, ?_, ?_, ?_⟩
  · intro i hi
    have hone := h.once i
    rw [if_pos hi] at hone
    rcases Nat.eq_zero_or_pos (p.threads.toList.countP (Client.has i)) with hzero | hpos
    · right
      refine ⟨fun t ht => ?_, by omega⟩
      have := has_iff_countP.mp ⟨t, ht⟩
      omega
    · left
      obtain ⟨t, ht⟩ := has_iff_countP.mpr hpos
      exact ⟨⟨t, ht, fun u hu => h.eq_of_has hu ht⟩, List.count_eq_zero.mp (by omega)⟩
  · intro i hi
    have hone := h.once i
    rw [if_neg (by omega)] at hone
    refine ⟨fun t ht => ?_, List.count_eq_zero.mp (by omega)⟩
    have := hlt ht
    omega
  · intro t c luck ht htask hfree
    obtain ⟨i, hmin⟩ : ∃ i, p.shared.free.min? = some i := by
      rw [← Option.isSome_iff_exists, List.isSome_min?_iff]
      exact hfree
    have hleast := (List.min?_eq_some_iff.mp hmin).2
    have hact : client.act p (.step t luck) = p.put t p.shared.scan.1 ⟨some i, .rest⟩ := by
      rw [Machine.act_step ht (by simp [client, htask])]
      simp [client, Client.step, htask, scan, hmin]
    refine ⟨i, ?_, hleast, ?_, ?_⟩
    · simp [Machine.event?, ht, client, Client.step, htask, scan, hmin]
    · rw [hact, Pool.shared_put]
      simp only [scan, hmin]
    · intro l k hl hk
      rw [hact, Pool.shared_put]
      exact (scan_of_perm hl hk fun j hj => hleast j (hl.mem_iff.mp hj)).2.2
  · intro t c luck ht htask
    refine ⟨by simp [Machine.event?, ht, client, Client.step, htask, draw], ?_⟩
    rw [Machine.act_step ht (by simp [client, htask])]
    simp [client, Client.step, htask, draw]
  · intro t i more hi hflag
    have hnext := next_le_run p more
    have hi := hlt hi
    simp only [highWater]
    omega

end Growable.Lock.Roster
