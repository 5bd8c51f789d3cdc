import Growable.Proofs.SharedArray.Gated.Cursor

/-!
# Threads that append

Any number of threads append, each as often as it likes, and take their steps in any order. The
indices they are answered with come in order and without gaps, whatever the schedule, each answered
value is in the slot of its index from then on, and an append is refused only once all indices are
reserved. What is kept in such runs is said of the pool together with the history of calls and
answers that led to it.
-/

namespace Growable.SharedArray.Gated

open Lock (Gate Mode)
open Machine (Event lastCall?)

section

variable {G : Gate} {α : Type}

/-- The task is part of the append that the thread was called for. -/
def Task.Appends (call? : Option (Call α)) : Task G α → Prop
  | .rest _ => True
  | .reserve v | .reserveSwap v _ | .placeEnter _ v | .placePointer _ v | .placeSlot _ v _
  | .placeLeave _ v _ | .fitPointer _ v | .fitSlot _ v _ => call? = some (.append v)
  | .growEnter (.fit _ v) | .growPointer (.fit _ v) | .copy (.fit _ v) .. | .publish (.fit _ v) ..
  | .growLeave (.fit _ v) => call? = some (.append v)
  | .await _ | .commit _ => ∃ v, call? = some (.append v)
  | _ => False

/-- The index whose slot an append has written. -/
def Task.placed? : Task G α → Option Nat
  | .placeLeave i _ true | .growLeave (.fit i _) | .await i | .commit i => some i
  | _ => none

theorem Task.owns?_of_placed? {k : Task G α} {i : Nat} (h : k.placed? = some i) :
    k.owns? = some i := by
  cases k with
  | placeLeave j v written =>
    cases written with
    | true => exact h
    | false => cases h
  | growLeave g =>
    cases g with
    | fit j v => exact h
    | reserve n => cases h
  | await | commit => exact h
  | _ => cases h

/-- What a step of an append comes to: it goes on, or writes the slot of its index, or is refused,
or commits its index. -/
inductive Appending (call? : Option (Call α)) (s : Shared G α) (k : Task G α) (s' : Shared G α) :
    Task G α → Prop
  | on {k' : Task G α} : k'.rests = false → k'.Appends call? → k'.placed? = k.placed? →
      s'.committed = s.committed → s.reserved ≤ s'.reserved →
      (∀ j < s.stores.capacity, s'.stores.slot? j = s.stores.slot? j) → Appending call? s k s' k'
  | place {k' : Task G α} {i : Nat} {v : α} : k'.rests = false → k'.Appends call? →
      k.owns? = some i → k'.placed? = some i → call? = some (.append v) →
      s'.committed = s.committed → s.reserved ≤ s'.reserved → s'.stores.slot? i = some v →
      (∀ j, j ≠ i → s'.stores.slot? j = s.stores.slot? j) → Appending call? s k s' k'
  | refuse : s.maxCapacity ≤ s.reserved → s' = s → k.owns? = none →
      Appending call? s k s' (.answer (.refused (.capacityOverflow (s.reserved + 1) s.maxCapacity)))
  | give {i : Nat} : k = .commit i → s' = { s with committed := i + 1 } →
      Appending call? s k s' (.answer (.index i))

/-- A step that leaves the array as it is, or only moves at the gate. -/
theorem Appending.pass {call? : Option (Call α)} {s s' : Shared G α} {k k' : Task G α}
    (hrest : k'.rests = false) (happends : k'.Appends call?) (hplaced : k'.placed? = k.placed?)
    (hcommitted : s'.committed = s.committed) (hreserved : s'.reserved = s.reserved)
    (hstores : s'.stores = s.stores) : Appending call? s k s' k' := by
  refine .on hrest happends hplaced hcommitted (by omega) ?_
  intro j _
  rw [hstores]

theorem Appending.enter {call? : Option (Call α)} {s : Shared G α} {c : Client G α} {m : Mode}
    {luck : Bool} {next : Task G α} (hrest : c.task.rests = false ∧ next.rests = false)
    (happends : c.task.Appends call? ∧ next.Appends call?)
    (hplaced : next.placed? = c.task.placed?) :
    Appending call? s c.task (enter m luck next s c).1 (enter m luck next s c).2.task := by
  refine enter_task (P := Appending call? s c.task (Gated.enter m luck next s c).1) ?_ ?_
  · exact .pass hrest.2 happends.2 hplaced rfl rfl rfl
  · exact .pass hrest.1 happends.1 rfl rfl rfl rfl

theorem appending_ofReserved {s : Shared G α} {k : Task G α} {v : α} {call? : Option (Call α)}
    (hlimits : s.limits.Suffices s.maxCapacity) (hreserved : s.reserved ≤ s.maxCapacity)
    (hcall : call? = some (.append v)) (howns : k.owns? = none) (hplaced : k.placed? = none) :
    Appending call? s k s (.ofReserved s.limits v s.reserved s.maxCapacity) := by
  unfold Task.ofReserved
  split
  · exact .pass rfl hcall hplaced.symm rfl rfl rfl
  · rename_i hroom
    have hfull : s.maxCapacity ≤ s.reserved := Nat.le_of_not_lt hroom
    rw [Answer.full_of_suffices (Nat.le_antisymm hfull hreserved ▸ hlimits)]
    exact .refuse hfull rfl howns

variable [Inhabited α]

/-- Where the machine has room for all that is allowed, an append that has an index goes on to
commit it. -/
theorem appending (luck : Bool) (s : Shared G α) (c : Client G α) {call? : Option (Call α)}
    (hlive : s.stores.Live) (hk : c.task.Knows s.stores s.limits s.maxCapacity)
    (hlimits : s.limits.Suffices s.maxCapacity) (hreserved : s.reserved ≤ s.maxCapacity)
    (howns : ∀ i, c.task.owns? = some i → i < s.maxCapacity) (hbusy : c.task.rests = false)
    (happends : c.task.Appends call?) :
    Appending call? s c.task (step luck s c).1 (step luck s c).2.task := by
  rcases c with ⟨place, task⟩
  cases task with
  | rest last? => cases hbusy
  | reserve v => exact appending_ofReserved hlimits hreserved happends rfl rfl
  | reserveSwap v seen =>
    simp only [step]
    split
    · rename_i hsame
      have hsame : s.reserved = seen := eq_of_beq (Bool.and_eq_true .. ▸ hsame).2
      have hle : s.reserved ≤ seen + 1 := by omega
      exact .on rfl happends rfl rfl hle fun _ _ => rfl
    · exact appending_ofReserved hlimits hreserved happends rfl rfl
  | placeEnter i v => exact .enter ⟨rfl, rfl⟩ ⟨happends, happends⟩ rfl
  | placePointer i v => exact .pass rfl happends rfl rfl rfl rfl
  | placeSlot i v p =>
    obtain rfl : p = s.stores.current := hk
    simp only [step]
    split
    · rename_i hi
      exact .place rfl happends rfl rfl happends rfl (Nat.le_refl _) (hlive.slot?_set_self hi)
        fun j hj => hlive.slot?_set_of_ne (Ne.symm hj)
    · exact .pass rfl happends rfl rfl rfl rfl
  | placeLeave i v written =>
    cases written with
    | true => exact .pass rfl ⟨v, happends⟩ rfl rfl rfl rfl
    | false => exact .pass rfl happends rfl rfl rfl rfl
  | growEnter g =>
    cases g with
    | fit i v => exact .enter ⟨rfl, rfl⟩ ⟨happends, happends⟩ rfl
    | reserve n => cases happends
  | growPointer g =>
    cases g with
    | fit i v =>
      simp only [step]
      split
      · exact .pass rfl happends rfl rfl rfl rfl
      · split
        · rename_i e herror
          have hi : i < s.maxCapacity := howns i rfl
          have hlt : s.maxCapacity < i + 1 := lt_of_capacityFor herror
          omega
        · rename_i new hnew
          have hholds : s.limits.holds new = true :=
            Limits.holds_of_le hlimits.holds (le_of_capacityFor hnew).2
          simp only [hholds, if_true]
          exact .pass rfl happends rfl rfl rfl rfl
    | reserve n => cases happends
  | copy g p target buffer =>
    cases g with
    | fit i v =>
      simp only [step]
      split
      · exact .pass rfl happends rfl rfl rfl rfl
      · exact .pass rfl happends rfl rfl rfl rfl
    | reserve n => cases happends
  | publish g target buffer =>
    cases g with
    | fit i v =>
      refine .on rfl happends rfl rfl (Nat.le_refl _) ?_
      intro j hj
      exact slot?_grow hlive hk.2 hj
    | reserve n => cases happends
  | fitPointer i v => exact .pass rfl happends rfl rfl rfl rfl
  | fitSlot i v p =>
    obtain ⟨rfl, hi⟩ := hk
    simp only [step]
    split
    · exact .place rfl happends rfl rfl happends rfl (Nat.le_refl _) (hlive.slot?_set_self hi)
        fun j hj => hlive.slot?_set_of_ne (Ne.symm hj)
    · rename_i hnot
      exact absurd hi hnot
  | growLeave g =>
    cases g with
    | fit i v => exact .pass rfl ⟨v, happends⟩ rfl rfl rfl rfl
    | reserve n => cases happends
  | await i =>
    simp only [step]
    split
    · exact .pass rfl happends rfl rfl rfl rfl
    · exact .pass rfl happends rfl rfl rfl rfl
  | commit i => exact .give rfl rfl
  | _ => cases happends

end

/-! ## Histories of appends -/

section

variable {α : Type}

/-- The indices that appends were answered with, in the order of the answers. -/
def indices (es : List (Event (Call α) (Answer α))) : List Nat :=
  es.filterMap fun
    | .answered _ (.index i) => some i
    | _ => none

/-- A call that was handed to a thread. -/
def isCall : Event (Call α) (Answer α) → Bool
  | .called .. => true
  | .answered .. => false

/-- An answer that is no index. -/
def isRefusal : Event (Call α) (Answer α) → Bool
  | .answered _ (.index _) => false
  | .answered .. => true
  | .called .. => false

/-- A call is under way. -/
def isBusy {G : Gate} (c : Client G α) : Bool := !c.task.rests

/-- What the history of a run of appends tells of the pool it led to. -/
structure Told {G : Gate} (store : Store α) (len allowed : Nat)
    (es : List (Event (Call α) (Answer α))) (p : Pool (Shared G α) (Client G α)) : Prop where
  limits : p.shared.limits.Suffices allowed
  room : len ≤ p.shared.stores.capacity
  tasks : ∀ {t : Nat} {c : Client G α}, p.threads[t]? = some c → c.task.Appends (lastCall? es t)
  placed : ∀ {t : Nat} {c : Client G α} {i : Nat}, p.threads[t]? = some c →
    c.task.placed? = some i →
    ∃ v, lastCall? es t = some (.append v) ∧ p.shared.stores.slot? i = some v
  first : ∀ i < len, p.shared.stores.slot? i = store.get? i
  answers : ∀ {n t : Nat} {a : Answer α}, es[n]? = some (.answered t a) →
    (∃ i v, a = .index i ∧ i < p.shared.committed ∧
      lastCall? (es.take n) t = some (.append v) ∧ p.shared.stores.slot? i = some v) ∨
    a = .refused (.capacityOverflow (allowed + 1) allowed) ∧ p.shared.reserved = allowed
  ordered : ∀ {m n t u i j : Nat}, m < n → es[m]? = some (.answered t (.index i)) →
    es[n]? = some (.answered u (.index j)) → i < j
  returned : indices es = List.range' len (p.shared.committed - len)
  count : es.countP isCall =
    (indices es).length + es.countP isRefusal + p.threads.toList.countP isBusy

variable {G : Gate} {Fits : G.Word → List G.Place → Prop} {Toward : Mode → G.Place → Prop}
  {store : Store α} {len allowed : Nat} {es : List (Event (Call α) (Answer α))}
  {p : Pool (Shared G α) (Client G α)} {t : Nat} {c d : Client G α} {s : Shared G α}

theorem told_idle {config : Config} {limits : Limits} (hlimits : limits.Suffices config.maxCapacity)
    (hfits : len ≤ store.capacity) (threads : Nat) :
    Told store len config.maxCapacity [] (idle G store len config threads limits) := by
  have hslot (i : Nat) : (Stores.single store).slot? i = store.get? i :=
    Stores.slot?_single store i
  refine ⟨hlimits, ?_, ?_, ?_, fun i _ => hslot i, ?_, ?_, ?_, ?_⟩
  · show len ≤ (Stores.single store).capacity
    rw [(Stores.ends_single store).capacity]
    exact hfits
  · intro t c ht
    obtain rfl := idle_get? ht
    exact trivial
  · intro t c i ht hi
    obtain rfl := idle_get? ht
    cases hi
  · intro n t a h
    simp at h
  · intro m n t u i j _ h
    simp at h
  · simp [indices, idle, ofStore]
  · simp [indices, idle, isBusy, List.countP_replicate, Task.rests]

/-- Once an append was refused, every index stays reserved. -/
theorem Told.reserved_of_refusal (h : Told store len allowed es p)
    (hrefusal : 0 < es.countP isRefusal) : p.shared.reserved = allowed := by
  obtain ⟨e, he, hrefused⟩ := List.countP_pos_iff.mp hrefusal
  obtain ⟨n, hn⟩ := List.mem_iff_getElem?.mp he
  cases e with
  | called => cases hrefused
  | answered t a =>
    rcases h.answers hn with ⟨i, v, rfl, -⟩ | ⟨-, hfull⟩
    · cases hrefused
    · exact hfull

/-- Every index that is reserved and not committed is in the hands of a thread. -/
theorem Told.owned (h : Told store len allowed es p) (hkept : Kept Fits Toward len allowed p)
    {i : Nat} (hi : p.shared.committed ≤ i) (hi' : i < p.shared.reserved) :
    ∃ (t : Nat) (c : Client G α), p.threads[t]? = some c ∧ c.task.owns? = some i :=
  (hkept.counted.owned hi hi').resolve_right
    (Shared.not_lost (hkept.counted.max_eq ▸ h.limits.holds) i)

theorem Told.atRest (h : Told store len allowed es p) (hkept : Kept Fits Toward len allowed p)
    (hrest : ∀ {t : Nat} {c : Client G α}, p.threads[t]? = some c → c.task.rests = true) :
    p.shared.reserved = p.shared.committed ∧ p.shared.committed = len + (indices es).length ∧
      (indices es).length = min (es.countP isCall) (allowed - len) := by
  have hreserved := (hkept.counted.reserved_of_rest hrest).resolve_right
    (Shared.not_lost (hkept.counted.max_eq ▸ h.limits.holds) _)
  have hlen := hkept.counted.len_le
  have hle := hkept.counted.reserved_le
  have hindices : (indices es).length = p.shared.committed - len := by
    rw [h.returned, List.length_range']
  have hidle : p.threads.toList.countP isBusy = 0 :=
    Pool.countP_eq_zero fun ht => by simp [isBusy, hrest ht]
  have hcount := h.count
  refine ⟨hreserved, by omega, ?_⟩
  rcases Nat.eq_zero_or_pos (es.countP isRefusal) with hnone | hsome
  · omega
  · -- some append was refused, so every index is reserved, and with no append under way committed
    have hfull := h.reserved_of_refusal hsome
    omega

/-- A thread is handed a call. -/
theorem Told.call (h : Told store len allowed es p) (ht : p.threads[t]? = some c)
    (hrest : c.task.rests = true) (v : α) :
    Told store len allowed (es ++ [.called t (.append v)])
      (p.put t p.shared { c with task := .reserve v }) := by
  have hset {u : Nat} {x : Client G α} :
      (p.put t p.shared { c with task := .reserve v }).threads[u]? = some x ↔
        (u = t ∧ x = { c with task := .reserve v }) ∨ (u ≠ t ∧ p.threads[u]? = some x) :=
    Pool.getElem?_put_iff ht
  have hother {u : Nat} (hut : u ≠ t) :
      lastCall? (es ++ [.called t (.append v)]) u = lastCall? es u := by
    rw [Machine.lastCall?_called, if_neg (Ne.symm hut)]
  have hself : lastCall? (es ++ [.called t (.append v)]) t = some (.append v) := by
    rw [Machine.lastCall?_called, if_pos rfl]
  refine ⟨h.limits, h.room, ?_, ?_, h.first, ?_, ?_, ?_, ?_⟩
  · intro u x hu
    rcases hset.mp hu with ⟨rfl, rfl⟩ | ⟨hut, hu'⟩
    · exact hself
    · rw [hother hut]
      exact h.tasks hu'
  · intro u x i hu hi
    rcases hset.mp hu with ⟨rfl, rfl⟩ | ⟨hut, hu'⟩
    · cases hi
    · rw [hother hut]
      exact h.placed hu' hi
  · intro n u a hn
    rcases getElem?_concat_iff.mp hn with hn' | ⟨-, hlast⟩
    · rw [take_concat_of_getElem? hn']
      exact h.answers hn'
    · cases hlast
  · intro m n u w i j hmn hm hn
    rcases getElem?_concat_iff.mp hm with hm' | ⟨-, hlast⟩
    · rcases getElem?_concat_iff.mp hn with hn' | ⟨-, hlast⟩
      · exact h.ordered hmn hm' hn'
      · cases hlast
    · cases hlast
  · rw [Pool.shared_put, ← h.returned]
    simp [indices]
  · have hbusy : isBusy c = false := by simp [isBusy, hrest]
    have hbusy' : isBusy ({ c with task := .reserve v } : Client G α) = true := rfl
    have hput := Pool.countP_put (u := { c with task := .reserve v }) isBusy p.shared ht
    rw [hbusy, hbusy', if_neg Bool.false_ne_true, if_pos rfl] at hput
    have hcount := h.count
    have hnone : indices (es ++ [.called t (.append v)]) = indices es := by
      simp [indices]
    rw [hnone, List.countP_append, List.countP_append]
    simp only [List.countP_singleton, isCall, isRefusal, if_true, Bool.false_eq_true, if_false]
    omega

/-- A thread takes a step of which nothing is seen. -/
theorem Told.quiet (h : Told store len allowed es p) (hkept : Kept Fits Toward len allowed p)
    (ht : p.threads[t]? = some c) (hbusy : isBusy d = isBusy c)
    (htask : d.task.Appends (lastCall? es t)) (hlimits : s.limits = p.shared.limits)
    (hcommitted : s.committed = p.shared.committed)
    (hreserved : p.shared.reserved ≤ s.reserved ∧ s.reserved ≤ allowed)
    (hcapacity : p.shared.stores.capacity ≤ s.stores.capacity)
    (hslots : ∀ j < p.shared.stores.capacity, c.task.owns? ≠ some j →
      s.stores.slot? j = p.shared.stores.slot? j)
    (hown : ∀ i, d.task.placed? = some i →
      ∃ v, lastCall? es t = some (.append v) ∧ s.stores.slot? i = some v) :
    Told store len allowed es (p.put t s d) := by
  have hset {u : Nat} {x : Client G α} : (p.put t s d).threads[u]? = some x ↔
      (u = t ∧ x = d) ∨ (u ≠ t ∧ p.threads[u]? = some x) := Pool.getElem?_put_iff ht
  have hlive := hkept.informed.live
  -- a slot that is written and not the thread's own stays as it is
  have hstays {i : Nat} {v : α} (hi : p.shared.stores.slot? i = some v)
      (hne : c.task.owns? ≠ some i) : s.stores.slot? i = some v := by
    have hlt : i < p.shared.stores.capacity := by
      rcases Nat.lt_or_ge i p.shared.stores.capacity with hlt | hge
      · exact hlt
      · rw [hlive.slot?_eq_none_iff.mpr hge] at hi
        cases hi
    rw [hslots i hlt hne]
    exact hi
  refine ⟨hlimits ▸ h.limits, Nat.le_trans h.room hcapacity, ?_, ?_, ?_, ?_, h.ordered, ?_, ?_⟩
  · intro u x hu
    rcases hset.mp hu with ⟨rfl, rfl⟩ | ⟨-, hu'⟩
    · exact htask
    · exact h.tasks hu'
  · intro u x i hu hi
    rcases hset.mp hu with ⟨rfl, rfl⟩ | ⟨hut, hu'⟩
    · exact hown i hi
    · obtain ⟨v, hcall, hv⟩ := h.placed hu' hi
      refine ⟨v, hcall, hstays hv ?_⟩
      intro howns
      exact hut (hkept.counted.unique hu' ht (Task.owns?_of_placed? hi) howns)
  · intro i hi
    have hlen := hkept.counted.len_le
    rw [← h.first i hi]
    apply hslots i (Nat.lt_of_lt_of_le hi h.room)
    intro howns
    have := (hkept.counted.between ht howns).1
    omega
  · intro n u a hn
    rw [Pool.shared_put, hcommitted]
    rcases h.answers hn with ⟨i, v, ha, hi, hcall, hv⟩ | ⟨ha, hfull⟩
    · refine .inl ⟨i, v, ha, hi, hcall, hstays hv ?_⟩
      intro howns
      have := (hkept.counted.between ht howns).1
      omega
    · exact .inr ⟨ha, by omega⟩
  · rw [Pool.shared_put, hcommitted]
    exact h.returned
  · have hput := Pool.countP_put (u := d) isBusy s ht
    have hcount := h.count
    rw [hbusy] at hput
    omega

/-- The answers that an append may get, and what becomes of the committed elements. -/
inductive Answering (len allowed : Nat) (call? : Option (Call α)) (s s' : Shared G α) :
    Answer α → Prop
  | index {v : α} : s'.committed = s.committed + 1 → len ≤ s.committed →
      call? = some (.append v) → s.stores.slot? s.committed = some v →
      Answering len allowed call? s s' (.index s.committed)
  | refused : s'.committed = s.committed → s.reserved = allowed →
      Answering len allowed call? s s' (.refused (.capacityOverflow (allowed + 1) allowed))

section

variable {call? : Option (Call α)} {s₁ s₂ : Shared G α} {a : Answer α}

theorem Answering.committed_le (h : Answering len allowed call? s₁ s₂ a) :
    s₁.committed ≤ s₂.committed := by
  cases h with
  | index hnext => omega
  | refused hsame => omega

theorem indices_index (es : List (Event (Call α) (Answer α))) (t i : Nat) :
    indices (es ++ [.answered t (.index i)]) = indices es ++ [i] := by
  simp [indices]

theorem indices_refused (es : List (Event (Call α) (Answer α))) (t : Nat) (e : Error) :
    indices (es ++ [.answered t (.refused e)]) = indices es := by
  simp [indices]

/-- The indices that were answered still end before the committed number of elements. -/
theorem Answering.indices_eq (h : Answering len allowed call? s₁ s₂ a)
    (hreturned : indices es = List.range' len (s₁.committed - len)) :
    indices (es ++ [.answered t a]) = List.range' len (s₂.committed - len) := by
  cases h with
  | index hnext hlen =>
    have hsucc : s₁.committed + 1 - len = s₁.committed - len + 1 := by omega
    have hlast : len + 1 * (s₁.committed - len) = s₁.committed := by omega
    rw [indices_index, hnext, hsucc, List.range'_concat, hlast, hreturned]
  | refused hsame => rw [indices_refused, hsame, hreturned]

/-- Every answer is an index or a refusal. -/
theorem Answering.count (h : Answering len allowed call? s₁ s₂ a)
    (es : List (Event (Call α) (Answer α))) (t : Nat) :
    (indices (es ++ [.answered t a])).length + (es ++ [Event.answered t a]).countP isRefusal =
      (indices es).length + es.countP isRefusal + 1 := by
  rw [List.countP_append, List.countP_singleton]
  cases h with
  | index =>
    rw [indices_index, List.length_append, List.length_singleton]
    simp only [isRefusal, Bool.false_eq_true, if_false]
    omega
  | refused =>
    rw [indices_refused]
    simp only [isRefusal, if_true]
    omega

end

/-- A thread is answered. -/
theorem Told.answer (h : Told store len allowed es p) (ht : p.threads[t]? = some c)
    (hbusy : c.task.rests = false) {a : Answer α} (hd : d.task = .answer a)
    (hlimits : s.limits = p.shared.limits) (hstores : s.stores = p.shared.stores)
    (hreserved : s.reserved = p.shared.reserved)
    (hanswer : Answering len allowed (lastCall? es t) p.shared s a) :
    Told store len allowed (es ++ [.answered t a]) (p.put t s d) := by
  have hset {u : Nat} {x : Client G α} : (p.put t s d).threads[u]? = some x ↔
      (u = t ∧ x = d) ∨ (u ≠ t ∧ p.threads[u]? = some x) := Pool.getElem?_put_iff ht
  have hcommitted := hanswer.committed_le
  refine ⟨hlimits ▸ h.limits, ?_, ?_, ?_, ?_, ?_, ?_, hanswer.indices_eq h.returned, ?_⟩
  · rw [Pool.shared_put, hstores]
    exact h.room
  · intro u x hu
    rw [Machine.lastCall?_answered]
    rcases hset.mp hu with ⟨rfl, rfl⟩ | ⟨-, hu'⟩
    · rw [hd]
      exact trivial
    · exact h.tasks hu'
  · intro u x i hu hi
    rw [Machine.lastCall?_answered, Pool.shared_put, hstores]
    rcases hset.mp hu with ⟨rfl, rfl⟩ | ⟨-, hu'⟩
    · rw [hd] at hi
      cases hi
    · exact h.placed hu' hi
  · rw [Pool.shared_put, hstores]
    exact h.first
  · intro n u b hn
    rw [Pool.shared_put, hstores, hreserved]
    rcases getElem?_concat_iff.mp hn with hn' | ⟨rfl, hlast⟩
    · rw [take_concat_of_getElem? hn']
      rcases h.answers hn' with ⟨i, v, hb, hi, hcall, hv⟩ | hfull
      · exact .inl ⟨i, v, hb, by omega, hcall, hv⟩
      · exact .inr hfull
    · cases hlast
      rw [List.take_left]
      cases hanswer with
      | index hnext _ hcall hv => exact .inl ⟨_, _, rfl, by omega, hcall, hv⟩
      | refused _ hfull => exact .inr ⟨rfl, hfull⟩
  · intro m n u w i j hmn hm hn
    rcases getElem?_concat_iff.mp hn with hn' | ⟨rfl, hlast⟩
    · rcases getElem?_concat_iff.mp hm with hm' | ⟨rfl, -⟩
      · exact h.ordered hmn hm' hn'
      · obtain ⟨hlt, -⟩ := List.getElem?_eq_some_iff.mp hn'
        omega
    · cases hlast
      rcases getElem?_concat_iff.mp hm with hm' | ⟨rfl, -⟩
      · -- every index answered so far is below the one that is committed now
        rcases h.answers hm' with ⟨i', v, hi', hlt, -⟩ | ⟨hfull, -⟩
        · cases hi'
          cases hanswer
          exact hlt
        · cases hfull
      · omega
  · have hbusy' : isBusy c = true := by simp [isBusy, hbusy]
    have hidle : isBusy d = false := by
      rw [isBusy, hd]
      rfl
    have hput := Pool.countP_put (u := d) isBusy s ht
    rw [hbusy', hidle, if_pos rfl, if_neg Bool.false_ne_true] at hput
    have hbefore := h.count
    have hafter := hanswer.count es t
    rw [List.countP_append, List.countP_singleton]
    simp only [isCall, Bool.false_eq_true, if_false]
    omega

variable [Inhabited α]

/-- What is seen of a step, if the thread has come to rest. -/
def answer? (t : Nat) (k : Task G α) : Option (Event (Call α) (Answer α)) :=
  if k.rests then k.reply?.map (.answered t) else none

theorem Kept.appending (hkept : Kept Fits Toward len allowed p) (h : Told store len allowed es p)
    (ht : p.threads[t]? = some c) (hbusy : c.task.rests = false) (luck : Bool) :
    Appending (lastCall? es t) p.shared c.task (Gated.step luck p.shared c).1
      (Gated.step luck p.shared c).2.task := by
  have hmax := hkept.counted.max_eq
  refine Gated.appending luck p.shared c hkept.informed.live (hkept.informed.knows ht)
    (hmax.symm ▸ h.limits) (hmax.symm ▸ hkept.counted.reserved_le) ?_ hbusy (h.tasks ht)
  intro i hi
  have hlt := (hkept.counted.between ht hi).2
  have hle := hkept.counted.reserved_le
  omega

theorem Told.step (h : Told store len allowed es p) (hkept : Kept Fits Toward len allowed p)
    (ht : p.threads[t]? = some c) (hbusy : c.task.rests = false) (luck : Bool) :
    Told store len allowed (es ++ (answer? t (Gated.step luck p.shared c).2.task).toList)
      (p.put t (Gated.step luck p.shared c).1 (Gated.step luck p.shared c).2) := by
  have happending := hkept.appending h ht hbusy luck
  have hmax := hkept.counted.max_eq
  have hcapacity := (hkept.storing ht luck).1.capacity_le hkept.informed.live
  have hreserved := (hkept.put ht luck).reserved_le
  have hlimits := limits_step luck p.shared c
  rw [Pool.shared_put] at hreserved
  have hsees := hkept.counted.sees ht
  generalize Gated.step luck p.shared c = r at *
  rcases r with ⟨s, ⟨place, task⟩⟩
  have hquiet (hrests : task.rests = false) : es ++ (answer? t task).toList = es := by
    simp [answer?, hrests]
  have hsame (hrests : task.rests = false) :
      isBusy (⟨place, task⟩ : Client G α) = isBusy c := by
    simp [isBusy, hrests, hbusy]
  cases happending with
  | on hrests happends hplaced hcommitted hle hslots =>
    rw [hquiet hrests]
    refine h.quiet hkept ht (hsame hrests) happends hlimits hcommitted ⟨hle, hreserved⟩ hcapacity
      (fun j hj _ => hslots j hj) ?_
    intro i hi
    have hi' : c.task.placed? = some i := hplaced ▸ hi
    obtain ⟨v, hcall, hv⟩ := h.placed ht hi'
    refine ⟨v, hcall, ?_⟩
    rw [hslots i ?_]
    · exact hv
    · rcases Nat.lt_or_ge i p.shared.stores.capacity with hlt | hge
      · exact hlt
      · rw [hkept.informed.live.slot?_eq_none_iff.mpr hge] at hv
        cases hv
  | @place k' i v hrests happends howns' hplaced hcall hcommitted hle hself hslots =>
    rw [hquiet hrests]
    refine h.quiet hkept ht (hsame hrests) happends hlimits hcommitted ⟨hle, hreserved⟩ hcapacity
      ?_ ?_
    · intro j _ hj
      apply hslots j
      rintro rfl
      exact hj howns'
    · intro j hj
      obtain rfl : i = j := Option.some.inj (hplaced.symm.trans hj)
      exact ⟨v, hcall, hself⟩
  | refuse hfull hs _ =>
    subst hs
    have hle := hkept.counted.reserved_le
    have hfull' : p.shared.reserved = allowed := by omega
    rw [hmax, hfull']
    exact h.answer ht hbusy rfl rfl rfl rfl (.refused rfl hfull')
  | @give i htask hs =>
    subst hs
    rw [htask] at hsees
    obtain rfl : p.shared.committed = i := hsees
    obtain ⟨v, hcall, hv⟩ := h.placed ht (by rw [htask]; rfl)
    exact h.answer ht hbusy rfl rfl rfl rfl (.index rfl hkept.counted.len_le hcall hv)

/-- A turn of which every call is an append. -/
def appendTurn : Turn α → Turn (Call α)
  | .call t v => .call t (.append v)
  | .step t luck => .step t luck

theorem Told.act (h : Told store len allowed es p) (hkept : Kept Fits Toward len allowed p)
    (turn : Turn α) :
    Told store len allowed (es ++ ((machine G α).event? p (appendTurn turn)).toList)
      ((machine G α).act p (appendTurn turn)) := by
  have hmoves := Machine.moves_act (machine G α) p (appendTurn turn)
  generalize (machine G α).event? p (appendTurn turn) = e, (machine G α).act p (appendTurn turn) = p'
    at hmoves
  cases turn with
  | call t v =>
    cases hmoves with
    | idle =>
      rw [Option.toList_none, List.append_nil]
      exact h
    | call ht hrest => exact h.call ht hrest v
  | step t luck =>
    cases hmoves with
    | idle =>
      rw [Option.toList_none, List.append_nil]
      exact h
    | step ht hbusy => exact h.step hkept ht hbusy luck

end

end Growable.SharedArray.Gated
