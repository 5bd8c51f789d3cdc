import Growable.Proofs.SharedArray.Gated.Survival

/-!
# The length and the capacity

The length never exceeds the capacity, so an index that was checked against the length is in the
store, whichever store that is by the time its slot is accessed; and what is found there was one of
the first elements or was put there by an append or a write.
-/

namespace Growable.SharedArray

namespace Stores

variable {α : Type} {s : Stores α} {p i : Nat} {v : α}

theorem get?_set_of_get? (h : s.get? p i = some v) (n j : Nat) (u : α) :
    (s.set n j u).get? p i = if n = p ∧ j = i then some u else some v := by
  obtain ⟨st, hst, hv⟩ := Option.bind_eq_some_iff.mp h
  rw [get?, set, Array.getElem?_modify, hst]
  by_cases hn : n = p
  · by_cases hj : j = i
    · have hi : i < st.capacity := (Array.getElem?_eq_some_iff.mp hv).1
      simp [hn, hj, Store.get?_set_self st u hi]
    · simp [hn, hj, Store.get?_set_of_ne st u hj, hv]
  · simp [hn, hv]

theorem get?_publish_of_get? (h : s.get? p i = some v) (st : Store α) :
    (s.publish st).get? p i = some v := by
  obtain ⟨old, hold, hv⟩ := Option.bind_eq_some_iff.mp h
  obtain ⟨hlt, hget⟩ := Array.getElem?_eq_some_iff.mp hold
  rw [get?, publish, Array.getElem?_push_lt hlt, hget]
  exact hv

end Stores

namespace Gated

open Lock (Gate)
open Machine (lastCall?)

variable {α : Type}

/-- The value was in slot `i` from the first, or was put there. -/
def Setup.Written (S : Setup α) (ds : List (Deposit α)) (i : Nat) (v : α) : Prop :=
  (i < S.len ∧ S.store.get? i = some v) ∨ ∃ d ∈ ds, d.slot = i ∧ d.value = v

variable [Inhabited α]

/-- What the length and the capacity of an array promise after some turns. -/
structure Published (S : Setup α) (k : GateKind) (turns : List (Turn (Call α))) : Prop where
  committed_le : (S.after k.gate turns).shared.committed ≤
    (S.after k.gate turns).shared.stores.capacity
  capacity_le : (S.after k.gate turns).shared.stores.capacity ≤ S.config.maxCapacity
  /-- The current store never gets smaller. -/
  grows : ∀ more, (S.after k.gate turns).shared.stores.capacity ≤
    (S.after k.gate (turns ++ more)).shared.stores.capacity
  /-- Every slot below the length is one of the first or was written by one append, -/
  covered : ∀ i < (S.after k.gate turns).shared.committed,
    i < S.len ∨ ∃ d, (S.deposits k.gate turns).filter (Deposit.appends i) = [d]
  /-- and an append writes the slot of the index that it alone owns. -/
  owned : ∀ {turn : Turn (Call α)} {d : Deposit α},
    deposited? (S.after k.gate turns) turn = some d → d.appended = true →
    (∃ c, (S.after k.gate turns).threads[d.thread]? = some c ∧ c.task.owns? = some d.slot) ∧
      ∀ {t : Nat} {c : Client k.gate α}, (S.after k.gate turns).threads[t]? = some c →
        c.task.owns? = some d.slot → t = d.thread
  /-- A thread never accesses a slot past the end of its store, -/
  inside : ∀ {t p i : Nat} {c : Client k.gate α}, (S.after k.gate turns).threads[t]? = some c →
    c.task.touches? = some (p, i) → i < (S.after k.gate turns).shared.stores.capacityOf p
  /-- so no call is broken off. -/
  unbroken : ∀ (turn : Turn (Call α)) (t : Nat),
    (machine k.gate α).event? (S.after k.gate turns) turn ≠ some (.answered t .brokenOff)
  /-- What is read, with or without the gate, was in its slot from the first or was put there. -/
  read : ∀ {turn : Turn (Call α)} {t i : Nat} {v : α},
    (machine k.gate α).event? (S.after k.gate turns) turn = some (.answered t (.value v)) →
    lastCall? (S.history k.gate turns) t = some (.read i) →
    S.Written (S.deposits k.gate turns) i v
  copied : ∀ {turn : Turn (Call α)} {t i : Nat} {v : α} {vs : Array α},
    (machine k.gate α).event? (S.after k.gate turns) turn = some (.answered t (.values vs)) →
    vs[i]? = some v → S.Written (S.deposits k.gate turns) i v
  /-- A length that was answered before a capacity was asked for is not greater than it. -/
  ordered : ∀ {l m n t u a b : Nat}, l < m → m < n →
    (S.history k.gate turns)[l]? = some (.answered t (.count a)) →
    lastCall? ((S.history k.gate turns).take l) t = some .length →
    (S.history k.gate turns)[m]? = some (.called u .capacity) →
    (S.history k.gate turns)[n]? = some (.answered u (.count b)) →
    lastCall? ((S.history k.gate turns).take n) u = some .capacity → a ≤ b

namespace Setup

variable {S : Setup α} {k : GateKind} {turns : List (Turn (Call α))} {turn : Turn (Call α)}
  {t i p : Nat} {v : α} {c : Client k.gate α}

/-! ## Inside the store -/

theorem committed_le_capacity (hlen : S.len ≤ S.store.capacity) (k : GateKind)
    (turns : List (Turn (Call α))) : (S.after k.gate turns).shared.committed ≤
      (S.after k.gate turns).shared.stores.capacity := by
  have htraced := S.traced_after k turns
  have hroom := htraced.room
  rcases Nat.lt_or_ge S.len (S.after k.gate turns).shared.committed with hlt | hge
  · obtain ⟨d, hd, happends⟩ := S.covers_after k turns
      ((S.after k.gate turns).shared.committed - 1) (by omega) (by omega)
    have hslot := (Deposit.appends_iff.mp happends).2
    have hwithin := htraced.within d hd
    omega
  · omega

theorem capacity_le_max (hmax : S.store.capacity ≤ S.config.maxCapacity) (k : GateKind)
    (turns : List (Turn (Call α))) :
    (S.after k.gate turns).shared.stores.capacity ≤ S.config.maxCapacity := by
  induction turns using List.reverseRecOn with
  | nil =>
    show (Stores.single S.store).capacity ≤ _
    rw [(Stores.ends_single S.store).capacity]
    exact hmax
  | append_singleton turns turn ih =>
    have hallowed := S.max_eq_after k turns
    have hle := (S.filing_after k turns turn).capacity_le_max
      (S.sound_after k turns).informed.live (hallowed ▸ ih)
    rw [hallowed] at hle
    exact hle

theorem inside_after (hlen : S.len ≤ S.store.capacity)
    (ht : (S.after k.gate turns).threads[t]? = some c) (h : c.task.touches? = some (p, i)) :
    i < (S.after k.gate turns).shared.stores.capacityOf p := by
  have hknows := (S.sound_after k turns).informed.knows ht
  have hle := committed_le_capacity hlen k turns
  rcases c with ⟨place, task⟩
  cases task with
  | fitSlot j v q =>
    obtain ⟨rfl, rfl⟩ := Prod.mk.inj (Option.some.inj h)
    obtain ⟨rfl, hlt⟩ := hknows
    exact hlt
  | accessSlot j a q =>
    obtain ⟨rfl, rfl⟩ := Prod.mk.inj (Option.some.inj h)
    have hlt : j < (S.after k.gate turns).shared.committed := S.found_after ht rfl
    obtain rfl : q = _ := hknows
    exact Nat.lt_of_lt_of_le hlt hle
  | collect q n buffer =>
    obtain ⟨hlt, hslot⟩ := Option.ite_none_right_eq_some.mp h
    obtain ⟨rfl, rfl⟩ := Prod.mk.inj (Option.some.inj hslot)
    obtain ⟨rfl, hn⟩ := hknows
    exact Nat.lt_of_lt_of_le hlt hn
  | _ => cases h

theorem element_of_lt (hlen : S.len ≤ S.store.capacity)
    (hi : i < (S.after k.gate turns).shared.committed) : ∃ v, S.Element k.gate i v turns :=
  ⟨_, hi, (S.traced_after k turns).holds i
    (Nat.lt_of_lt_of_le hi (committed_le_capacity hlen k turns))⟩

/-! ## Values that were written -/

theorem Written.concat {G : Gate} (h : S.Written (S.deposits G turns) i v)
    (turn : Turn (Call α)) : S.Written (S.deposits G (turns ++ [turn])) i v := by
  rcases h with hfirst | ⟨d, hd, hslot⟩
  · exact .inl hfirst
  · exact .inr ⟨d, S.mem_deposits_concat.mpr (.inl hd), hslot⟩

theorem written_of_element (hlen : S.len ≤ S.store.capacity) (h : S.Element k.gate i v turns) :
    S.Written (S.deposits k.gate turns) i v := by
  have hcontent := S.content_of_element h
  rw [content] at hcontent
  cases hlatest : latest? (S.deposits k.gate turns) i with
  | some u =>
    rw [hlatest] at hcontent
    obtain rfl : u = v := hcontent
    exact .inr (exists_of_latest? hlatest)
  | none =>
    have hlt : i < S.len := by
      refine Nat.lt_of_not_le fun hle => ?_
      rw [S.latest?_of_element h hle] at hlatest
      cases hlatest
    have hi : i < S.store.slots.size := Nat.lt_of_lt_of_le hlt hlen
    have hget : S.store.get? i = some S.store.slots[i] := Array.getElem?_eq_getElem hi
    rw [hlatest, hget] at hcontent
    exact .inl ⟨hlt, hget.trans (congrArg some hcontent)⟩

/-- A slot whose value was written, in whichever store, holds one that was written from then on. -/
theorem written_concat (hget : (S.after k.gate turns).shared.stores.get? p i = some v)
    (hwritten : S.Written (S.deposits k.gate turns) i v) (turn : Turn (Call α)) :
    ∃ u, (S.after k.gate (turns ++ [turn])).shared.stores.get? p i = some u ∧
      S.Written (S.deposits k.gate (turns ++ [turn])) i u := by
  have hfiling := S.filing_after k turns turn
  have hkeep := Written.concat hwritten turn
  generalize (S.after k.gate (turns ++ [turn])).shared.stores = s' at hfiling
  cases hfiling with
  | same => exact ⟨v, hget, hkeep⟩
  | @deposit d hd =>
    rw [Stores.get?_set_of_get? hget]
    split
    · rename_i hhere
      exact ⟨d.value, rfl, .inr ⟨d, S.mem_deposits_concat.mpr (.inr hd), hhere.2, rfl⟩⟩
    · exact ⟨v, rfl, hkeep⟩
  | grow => exact ⟨v, Stores.get?_publish_of_get? hget _, hkeep⟩

/-- What a thread has loaded was written, unless it lies beyond the length that the thread saw. -/
def Loaded (S : Setup α) (G : Gate) (turns : List (Turn (Call α))) : Task G α → Prop
  | .trySlot i _ _ len p => i < len → ∃ v,
    (S.after G turns).shared.stores.get? p i = some v ∧ S.Written (S.deposits G turns) i v
  | .tryValid i _ _ len v? => i < len → ∃ v, v? = some v ∧ S.Written (S.deposits G turns) i v
  | .collect _ _ buffer | .leave (.values buffer) => ∀ (j : Nat) (v : α), buffer[j]? = some v →
    S.Written (S.deposits G turns) j v
  | .leave .brokenOff => False
  | _ => True

theorem loaded_of_finds {G : Gate} {task : Task G α} (h : task.finds = false) :
    S.Loaded G turns task := by
  cases task with
  | trySlot | tryValid | collect | leave => cases h
  | _ => exact trivial

theorem Loaded.pass {task : Task k.gate α} (h : S.Loaded k.gate turns task)
    (turn : Turn (Call α)) : S.Loaded k.gate (turns ++ [turn]) task := by
  cases task with
  | trySlot i left stamp len p =>
    intro hi
    obtain ⟨v, hget, hwritten⟩ := h hi
    exact written_concat hget hwritten turn
  | tryValid i left stamp len v? =>
    intro hi
    obtain ⟨v, hv, hwritten⟩ := h hi
    exact ⟨v, hv, hwritten.concat turn⟩
  | collect p n buffer => exact fun j v hj => (h j v hj).concat turn
  | leave a =>
    cases a with
    | values vs => exact fun j v hj => (h j v hj).concat turn
    | brokenOff => exact h
    | _ => exact trivial
  | _ => exact trivial

theorem loaded_after (hlen : S.len ≤ S.store.capacity)
    (ht : (S.after k.gate turns).threads[t]? = some c) (hbusy : c.task.rests = false) :
    S.Loaded k.gate turns c.task := by
  refine Machine.busy_invariant (m := machine k.gate α)
    (fun turns _ c => S.Loaded k.gate turns c.task) rests_idle ?_ ?_ ?_ ht hbusy
  · intro turns t c call _ _
    exact loaded_of_finds (finds_ofCall call)
  · intro turns t c luck ht hbusy hloaded _
    have hfound := S.found_after ht hbusy
    have hknows := (S.sound_after k turns).informed.knows ht
    have htouches {p i : Nat} := inside_after (p := p) (i := i) hlen ht
    have hfinding := finding luck (S.after k.gate turns).shared c hbusy
    change S.Loaded k.gate _ (step luck (S.after k.gate turns).shared c).2.task
    generalize (step luck (S.after k.gate turns).shared c).2.task = next at hfinding
    rcases c with ⟨place, task⟩
    cases hfinding with
    | nothing hfinds => exact loaded_of_finds hfinds
    | broken htouch hbeyond => exact absurd (htouches htouch) (Nat.not_lt.mpr hbeyond)
    | @tryName i left len stamp =>
      -- the store was named after the length was seen, so it has the element
      intro hi
      obtain ⟨v, helement⟩ := element_of_lt hlen (Nat.lt_of_lt_of_le hi hfound.1)
      exact written_concat helement.2 (written_of_element hlen helement) _
    | trySlot =>
      intro hi
      obtain ⟨v, hget, hwritten⟩ := hloaded hi
      exact ⟨v, hget, hwritten.concat _⟩
    | bound =>
      intro j v hj
      cases hj
    | @collect p n buffer v hlt hv =>
      obtain rfl : p = _ := hknows.1
      have helement : S.Element k.gate buffer.size v turns :=
        ⟨Nat.lt_of_lt_of_le hlt hfound, hv⟩
      intro j u hj
      rw [Array.getElem?_push] at hj
      split at hj
      · rename_i hlast
        rw [hlast, ← Option.some.inj hj]
        exact (written_of_element hlen helement).concat _
      · exact (hloaded j u hj).concat _
    | copied => exact fun j v hj => (hloaded j v hj).concat _
    | _ => exact trivial
  · intro turns t c turn _ _ _ _ hloaded
    exact hloaded.pass turn

theorem written_of_value (hlen : S.len ≤ S.store.capacity)
    (h : (machine k.gate α).event? (S.after k.gate turns) turn = some (.answered t (.value v)))
    (hcall : lastCall? (S.history k.gate turns) t = some (.read i)) :
    S.Written (S.deposits k.gate turns) i v := by
  obtain ⟨luck, c, -, ht, hbusy, hending⟩ := ending_of_answered h
  obtain ⟨call, hlast, hserves⟩ := S.serves_after ht hbusy
  have hfound := S.found_after ht hbusy
  have hloaded := loaded_after hlen ht hbusy
  rw [hcall] at hlast
  generalize c.task = task at hending hserves hfound hloaded
  cases hending with
  | leave =>
    have hduring : S.During k.gate t (fun past => S.Written (S.deposits k.gate past) i v) turns :=
      (hfound i hcall).mono fun past hin => written_of_element hlen hin.2
    exact hduring.lasting fun past turn hwritten => hwritten.concat turn
  | @valid j left len stamp v? a _ ha =>
    obtain rfl : call = .read j := hserves
    cases hlast
    rcases answer_of_afterValid ha with ⟨u, ⟨⟩, rfl, hlt⟩ | ⟨⟨⟩, -⟩
    obtain ⟨v, ⟨⟩, hwritten⟩ := hloaded hlt
    exact hwritten

theorem written_of_values (hlen : S.len ≤ S.store.capacity) {vs : Array α}
    (h : (machine k.gate α).event? (S.after k.gate turns) turn = some (.answered t (.values vs)))
    (hi : vs[i]? = some v) : S.Written (S.deposits k.gate turns) i v := by
  obtain ⟨luck, c, -, ht, hbusy, hending⟩ := ending_of_answered h
  have hloaded := loaded_after hlen ht hbusy
  generalize c.task = task at hending hloaded
  cases hending with
  | leave => exact hloaded i v hi
  | valid _ ha => rcases answer_of_afterValid ha with ⟨v, ⟨⟩, -⟩ | ⟨⟨⟩, -⟩

theorem unbroken_after (hlen : S.len ≤ S.store.capacity) (turn : Turn (Call α)) (t : Nat) :
    (machine k.gate α).event? (S.after k.gate turns) turn ≠ some (.answered t .brokenOff) := by
  intro h
  obtain ⟨luck, c, -, ht, hbusy, hending⟩ := ending_of_answered h
  have hloaded := loaded_after hlen ht hbusy
  generalize c.task = task at hending hloaded
  cases hending with
  | leave => exact hloaded
  | valid _ ha => rcases answer_of_afterValid ha with ⟨v, ⟨⟩, -⟩ | ⟨⟨⟩, -⟩

/-! ## A length and a later capacity -/

/-- A length that was answered is not greater than the length. -/
theorem length_le_committed {l a : Nat}
    (hl : (S.history k.gate turns)[l]? = some (.answered t (.count a)))
    (hcall : lastCall? ((S.history k.gate turns).take l) t = some .length) :
    a ≤ (S.after k.gate turns).shared.committed := by
  induction turns using List.reverseRecOn with
  | nil => cases hl
  | append_singleton turns turn ih =>
    have hle := S.committed_le_concat k turns turn
    rw [history_concat] at hl hcall
    cases hevent : (machine k.gate α).event? (S.after k.gate turns) turn with
    | none =>
      rw [hevent, Option.toList_none, List.append_nil] at hl hcall
      exact Nat.le_trans (ih hl hcall) hle
    | some e =>
      rw [hevent, Option.toList_some] at hl hcall
      rcases getElem?_concat_iff.mp hl with hold | ⟨rfl, rfl⟩
      · rw [take_concat_of_getElem? hold] at hcall
        exact Nat.le_trans (ih hold hcall) hle
      · rw [List.take_left] at hcall
        obtain ⟨luck, c, -, ht, hbusy, hending⟩ := ending_of_answered hevent
        obtain ⟨call, hserved, hserves⟩ := S.serves_after ht hbusy
        obtain rfl := Option.some.inj (hcall.symm.trans hserved)
        generalize c.task = task at hending hserves
        cases hending with
        | length => exact hle
        | leave | measure | measureLeave => cases hserves
        | valid _ ha => rcases answer_of_afterValid ha with ⟨v, ⟨⟩, -⟩ | ⟨⟨⟩, -⟩

/-- A capacity that is answered now is not less than a length that was answered before the capacity
was asked for. -/
theorem length_le_capacity (hlen : S.len ≤ S.store.capacity) {l m u a b : Nat} (hlm : l < m)
    (hl : (S.history k.gate turns)[l]? = some (.answered t (.count a)))
    (hlength : lastCall? ((S.history k.gate turns).take l) t = some .length)
    (hm : (S.history k.gate turns)[m]? = some (.called u .capacity))
    (hevent : (machine k.gate α).event? (S.after k.gate turns) turn = some (.answered u (.count b)))
    (hcall : lastCall? (S.history k.gate turns) u = some .capacity) : a ≤ b := by
  obtain ⟨luck, c, -, ht, hbusy, hending⟩ := ending_of_answered hevent
  obtain ⟨call, hserved, hserves⟩ := S.serves_after ht hbusy
  have hfound := S.found_after ht hbusy
  obtain rfl := Option.some.inj (hcall.symm.trans hserved)
  generalize c.task = task at hending hserves hfound
  cases hending with
  | length | leave => cases hserves
  | measure =>
    exact Nat.le_trans (length_le_committed hl hlength) (committed_le_capacity hlen k turns)
  | measureLeave =>
    -- the capacity was found during the call, when the length had been answered
    obtain ⟨before, es, hcapacity, hhistory, hnot⟩ := Machine.During.moment hfound
    have hhistory : S.history k.gate turns = S.history k.gate before ++ es := hhistory
    have hlt : m < (S.history k.gate before).length := by
      refine Nat.lt_of_not_le fun hge => ?_
      rw [hhistory, List.getElem?_append_right hge] at hm
      exact hnot .capacity (List.mem_of_getElem? hm)
    rw [hhistory, List.getElem?_append_left (Nat.lt_trans hlm hlt)] at hl
    rw [hhistory, List.take_append_of_le_length (Nat.le_of_lt (Nat.lt_trans hlm hlt))] at hlength
    have hle := committed_le_capacity hlen k before
    rw [show (S.after k.gate before).shared.stores.capacity = b from hcapacity] at hle
    exact Nat.le_trans (length_le_committed hl hlength) hle
  | valid _ ha => rcases answer_of_afterValid ha with ⟨v, ⟨⟩, -⟩ | ⟨⟨⟩, -⟩

theorem ordered_after (hlen : S.len ≤ S.store.capacity) {l m n u a b : Nat} (hlm : l < m)
    (hmn : m < n) (hl : (S.history k.gate turns)[l]? = some (.answered t (.count a)))
    (hlength : lastCall? ((S.history k.gate turns).take l) t = some .length)
    (hm : (S.history k.gate turns)[m]? = some (.called u .capacity))
    (hn : (S.history k.gate turns)[n]? = some (.answered u (.count b)))
    (hcapacity : lastCall? ((S.history k.gate turns).take n) u = some .capacity) : a ≤ b := by
  induction turns using List.reverseRecOn with
  | nil => cases hl
  | append_singleton turns turn ih =>
    rw [history_concat] at hl hlength hm hn hcapacity
    cases hevent : (machine k.gate α).event? (S.after k.gate turns) turn with
    | none =>
      rw [hevent, Option.toList_none, List.append_nil] at hl hlength hm hn hcapacity
      exact ih hl hlength hm hn hcapacity
    | some e =>
      rw [hevent, Option.toList_some] at hl hlength hm hn hcapacity
      have hbound := (List.getElem?_eq_some_iff.mp hn).1
      rw [List.length_append, List.length_singleton] at hbound
      rw [List.getElem?_append_left (by omega)] at hl hm
      rw [List.take_append_of_le_length (by omega)] at hlength
      rcases getElem?_concat_iff.mp hn with hold | ⟨rfl, rfl⟩
      · rw [take_concat_of_getElem? hold] at hcapacity
        exact ih hl hlength hm hold hcapacity
      · rw [List.take_left] at hcapacity
        exact length_le_capacity hlen hlm hl hlength hm hevent hcapacity

/-! ## The promise -/

theorem owned_of_deposited? {d : Deposit α} (h : deposited? (S.after k.gate turns) turn = some d)
    (happended : d.appended = true) :
    (∃ c, (S.after k.gate turns).threads[d.thread]? = some c ∧ c.task.owns? = some d.slot) ∧
      ∀ {t : Nat} {c : Client k.gate α}, (S.after k.gate turns).threads[t]? = some c →
        c.task.owns? = some d.slot → t = d.thread := by
  obtain ⟨luck, c, -, ht, -, hdeposit⟩ := step_of_deposited? h
  have howns := Task.owns?_of_owes? (Task.owes?_of_deposit? hdeposit happended)
  exact ⟨⟨c, ht, howns⟩, fun hu hi => (S.sound_after k turns).paced.unique hu ht hi howns⟩

/-- An array that is set up with room for its elements keeps its promise, whichever threads use it
under whichever gate, and in whichever order they take their steps. -/
theorem prefix_published (S : Setup α) (k : GateKind) (hlen : S.len ≤ S.store.capacity)
    (hmax : S.store.capacity ≤ S.config.maxCapacity) (turns : List (Turn (Call α))) :
    Published S k turns where
  committed_le := committed_le_capacity hlen k turns
  capacity_le := capacity_le_max hmax k turns
  grows := S.capacity_le_after k turns
  covered i hi := (Nat.lt_or_ge i S.len).imp_right fun hle => S.append_of_lt_committed hle hi
  owned := owned_of_deposited?
  inside := inside_after hlen
  unbroken := unbroken_after hlen
  read := written_of_value hlen
  copied := written_of_values hlen
  ordered := ordered_after hlen

/-- One slot, which is taken, and two threads. -/
def full : Setup Nat where
  store := ⟨#[7]⟩
  len := 1
  config := { maxCapacity := 4 }
  threads := 2

/-- One thread appends past the end of the store; the other asks for the length, reads the new
element and asks for the capacity. -/
def pastEnd : List (Turn (Call Nat)) :=
  [.call 0 (.append 10), .call 1 .length] ++ List.replicate 24 (.step 0 true) ++
    [.step 1 true, .call 1 (.read 1)] ++ List.replicate 8 (.step 1 true) ++
    [.call 1 .capacity] ++ List.replicate 8 (.step 1 true)

theorem prefix_published_pastEnd :
    full.len ≤ full.store.capacity ∧ full.store.capacity ≤ full.config.maxCapacity ∧
    full.history GateKind.layout.gate pastEnd =
      [.called 0 (.append 10), .called 1 .length, .answered 0 (.index 1), .answered 1 (.count 2),
        .called 1 (.read 1), .answered 1 (.value 10), .called 1 .capacity,
        .answered 1 (.count 4)] ∧
    Published full .layout pastEnd :=
  ⟨by decide, by decide, by decide +kernel,
    prefix_published full .layout (by decide) (by decide) pastEnd⟩

end Setup

end Gated

end Growable.SharedArray
