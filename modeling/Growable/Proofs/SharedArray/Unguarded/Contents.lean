import Growable.Proofs.SharedArray.Unguarded.Whereabouts

/-!
# What the slots of an unguarded array hold

A slot never holds anything of another slot. What a growth copies, it copies to the same slots, and
whatever the other threads do meanwhile, they put values only into the slots they were called for. So
a slot of any store holds the default, what was in it at first, or a value that was put into a slot
of its number. How large a store may get, and how far the length and the indices of appends may go,
is found out by each thread for itself and needs no agreement among them.
-/

namespace Growable.SharedArray

/-- The index that a growth makes room for. -/
def Growth.index? {α : Type} : Growth α → Option Nat
  | .fit i _ => some i
  | .reserve _ => none

namespace Stores

variable {α : Type} {s : Stores α} {n p i j : Nat} {v w : α}

theorem get?_of_set (h : (s.set p j v).get? n i = some w) :
    s.get? n i = some w ∨ (i = j ∧ w = v) := by
  unfold get? set at h
  rw [Array.getElem?_modify] at h
  split at h
  · obtain ⟨st', hst', hw⟩ := Option.bind_eq_some_iff.mp h
    obtain ⟨st, hst, rfl⟩ := Option.map_eq_some_iff.mp hst'
    by_cases hij : j = i
    · subst hij
      have hlt : j < (st.set j v).capacity := by
        by_contra hnot
        rw [Store.get?, Array.getElem?_eq_none (Nat.not_lt.mp hnot)] at hw
        cases hw
      rw [Store.capacity_set] at hlt
      rw [Store.get?_set_self st v hlt] at hw
      exact .inr ⟨rfl, (Option.some.inj hw).symm⟩
    · rw [Store.get?_set_of_ne st v hij] at hw
      exact .inl (by rw [get?, hst]; exact hw)
  · exact .inl h

theorem get?_of_publish {st : Store α} (h : (s.publish st).get? n i = some w) :
    s.get? n i = some w ∨ st.get? i = some w := by
  unfold get? publish at h
  rw [Array.getElem?_push] at h
  split at h
  · exact .inr h
  · exact .inl h

end Stores

theorem Store.get?_of_ofValues {α : Type} [Inhabited α] {values : Array α} {n i : Nat} {v : α}
    (h : (Store.ofValues values n).get? i = some v) : values[i]? = some v ∨ v = default := by
  rw [Store.get?, Store.ofValues, Array.getElem?_append] at h
  split at h
  · exact .inl h
  · obtain ⟨hlt, hv⟩ := Array.getElem?_eq_some_iff.mp h
    rw [Array.getElem_replicate] at hv
    exact .inr hv.symm

namespace Unguarded

open Gated (Deposit Setup)

variable {α : Type}

/-! ## What a thread has found out -/

/-- Every value in the buffer may be at its index. -/
def Each (P : Nat → α → Prop) (buffer : Array α) : Prop := ∀ i v, buffer[i]? = some v → P i v

variable {P P' : Nat → α → Prop}

theorem each_empty (P : Nat → α → Prop) : Each P #[] := by
  intro i v h
  cases h

theorem Each.push {buffer : Array α} {v : α} (h : Each P buffer) (hv : P buffer.size v) :
    Each P (buffer.push v) := by
  intro i w hw
  rw [Array.getElem?_push] at hw
  split at hw
  · rename_i hi
    subst hi
    obtain rfl := Option.some.inj hw
    exact hv
  · exact h i w hw

theorem Each.mono {buffer : Array α} (h : Each P buffer) (hP : ∀ i v, P i v → P' i v) :
    Each P' buffer :=
  fun i v hv => hP i v (h i v hv)

/-- The index that a thread is to append at. -/
def Task.index? : Task α → Option Nat
  | .placePointer i _ | .placeSlot i _ _ | .fitPointer i _ | .fitSlot i _ _ | .raise i => some i
  | .growPointer g | .copy g .. | .publish g .. | .listEnter g .. | .listPush g _ | .listLeave g =>
    g.index?
  | _ => none

/-- What a thread has loaded by the time of a task is no more than is allowed, and there is room for
what it has copied. -/
def Task.Found (s : Stores α) (allowed most : Nat) (P : Nat → α → Prop) : Task α → Prop
  | .copy _ p target buffer => target ≤ most ∧ buffer.size ≤ s.capacityOf p ∧ Each P buffer
  | .publish _ target buffer => target ≤ most ∧ buffer.size ≤ most ∧ Each P buffer
  | .accessPointer _ _ len | .accessSlot _ _ len _ => len ≤ allowed
  | .collect p n buffer => n ≤ s.capacityOf p ∧ n ≤ allowed ∧ buffer.size ≤ n ∧ Each P buffer
  | _ => True

/-- What is so of a thread's task: its store is there, its index is allowed. -/
structure Task.Sound (s : Stores α) (allowed most : Nat) (P : Nat → α → Prop) (k : Task α) :
    Prop where
  loaded : ∀ n, k.loaded? = some n → n < s.history.size
  index : ∀ i, k.index? = some i → i < allowed
  found : k.Found s allowed most P

/-- What is so of an array: no store is larger than `most`, and `P` of every value and its slot. -/
structure Shared.Sound (allowed most : Nat) (P : Nat → α → Prop) (s : Shared α) : Prop where
  max_eq : s.maxCapacity = allowed
  length_le : s.length ≤ allowed
  live : 0 < s.stores.history.size
  room : ∀ n, s.stores.capacityOf n ≤ most
  holds : ∀ n i v, s.stores.get? n i = some v → P i v

variable {allowed most i t : Nat} {s : Shared α} {k : Task α}

theorem Task.Sound.mono {s s' : Stores α} (h : k.Sound s allowed most P) (hs : s.Extends s')
    (hP : ∀ i v, P i v → P' i v) : k.Sound s' allowed most P' := by
  refine ⟨fun n hn => Nat.lt_of_lt_of_le (h.loaded n hn) hs.size_le, h.index, ?_⟩
  have hfound := h.found
  cases k with
  | copy g p target buffer =>
    obtain ⟨htarget, hsize, heach⟩ := hfound
    exact ⟨htarget, (hs.capacityOf p (h.loaded p rfl)).symm ▸ hsize, heach.mono hP⟩
  | publish g target buffer =>
    obtain ⟨htarget, hsize, heach⟩ := hfound
    exact ⟨htarget, hsize, heach.mono hP⟩
  | collect p n buffer =>
    obtain ⟨hn, hallowed, hsize, heach⟩ := hfound
    exact ⟨(hs.capacityOf p (h.loaded p rfl)).symm ▸ hn, hallowed, hsize, heach.mono hP⟩
  | accessPointer | accessSlot => exact hfound
  | _ => exact trivial

theorem Task.sound_of_rests {s : Stores α} (h : k.rests = true) : k.Sound s allowed most P := by
  cases k with
  | rest =>
    refine ⟨?_, ?_, trivial⟩ <;>
      (intro n hn; cases hn)
  | _ => cases h

theorem Task.sound_ofCall (s : Stores α) (call : Call α) :
    (Task.ofCall call).Sound s allowed most P := by
  refine ⟨?_, ?_, ?_⟩
  · intro n hn
    cases call <;> cases hn
  · intro i hi
    cases call <;> cases hi
  · cases call <;> exact trivial

theorem found_afterGrowth (s : Stores α) (g : Growth α) :
    (Task.afterGrowth g).Found s allowed most P := by
  cases g <;> exact trivial

variable [Inhabited α] {s' : Shared α} {k' : Task α}

/-! ## Steps -/

theorem Steps.maxCapacity_eq (h : Steps s k s' k') : s'.maxCapacity = s.maxCapacity := by
  cases h <;> rfl

theorem Steps.limits_eq (h : Steps s k s' k') : s'.limits = s.limits := by
  cases h <;> rfl

/-- The length is stored by appends only. -/
theorem Steps.length_eq (h : Steps s k s' k') :
    s'.length = s.length ∨ ∃ i, k = .raise i ∧ s'.length = i + 1 := by
  cases h with
  | raise i => exact .inr ⟨i, rfl, rfl⟩
  | _ => exact .inl rfl

/-- An index is what an append loaded as the length. -/
theorem Steps.index? (h : Steps s k s' k') (hi : k'.index? = some i) : k.index? = some i ∨
    (∃ v, k = .placeLength v) ∧ i = s.length ∧ s.length < s.maxCapacity := by
  cases h with
  | begin v hlt =>
    cases hi
    exact .inr ⟨⟨v, rfl⟩, rfl, hlt⟩
  | @room g | leave g => cases g <;> exact .inl hi
  | placePointer | place | noSlot | grow | copy | copied | publish | see | wait | take | inside
  | push | fitPointer | fit | lose => exact .inl hi
  | _ => cases hi

/-- The name a thread loads is the current store's. -/
theorem Steps.loaded? {n : Nat} (h : Steps s k s' k') (hn : k'.loaded? = some n) :
    k.loaded? = some n ∨ n = s.stores.current := by
  cases h with
  | placePointer | grow | fitPointer | accessPointer | collectPointer =>
    exact .inr (Option.some.inj hn).symm
  | copy | collectLength | collect => exact .inl hn
  | @room g | leave g => cases g <;> cases hn
  | _ => cases hn

/-- What a thread finds out by a step is so. -/
theorem Steps.found (h : Steps s k s' k') (hle : allowed ≤ most) (hs : s.Sound allowed most P)
    (hk : k.Sound s.stores allowed most P) : k'.Found s.stores allowed most P := by
  have hfound := hk.found
  cases h with
  | room | leave => exact found_afterGrowth _ _
  | grow _ hnew _ =>
    have htarget := (le_of_capacityFor hnew).2
    rw [hs.max_eq] at htarget
    exact ⟨Nat.le_trans htarget hle, Nat.zero_le _, each_empty P⟩
  | copy g target hv =>
    obtain ⟨htarget, hsize, heach⟩ := hfound
    refine ⟨htarget, ?_, heach.push (hs.holds _ _ _ hv)⟩
    rw [Array.size_push]
    exact Stores.lt_of_get? hv
  | copied =>
    obtain ⟨htarget, hsize, heach⟩ := hfound
    exact ⟨htarget, Nat.le_trans hsize (hs.room _), heach⟩
  | inBounds => exact hs.length_le
  | accessPointer => exact hfound
  | collectLength p =>
    exact ⟨Nat.min_le_right _ _, Nat.le_trans (Nat.min_le_left _ _) hs.length_le, Nat.zero_le _,
      each_empty P⟩
  | collect hlt hv =>
    obtain ⟨hn, hallowed, hsize, heach⟩ := hfound
    refine ⟨hn, hallowed, ?_, heach.push (hs.holds _ _ _ hv)⟩
    rw [Array.size_push]
    exact hlt
  | _ => exact trivial

theorem Steps.task (h : Steps s k s' k') (hle : allowed ≤ most) (hs : s.Sound allowed most P)
    (hk : k.Sound s.stores allowed most P) : k'.Sound s.stores allowed most P := by
  refine ⟨?_, ?_, h.found hle hs hk⟩
  · intro n hn
    rcases h.loaded? hn with hold | rfl
    · exact hk.loaded n hold
    · exact Nat.sub_lt hs.live Nat.one_pos
  · intro i hi
    rcases h.index? hi with hold | ⟨-, rfl, hlt⟩
    · exact hk.index i hold
    · rw [← hs.max_eq]
      exact hlt

/-- A step puts nothing into a slot but its deposit. -/
theorem Steps.shared (h : Steps s k s' k') (hs : s.Sound allowed most P)
    (hk : k.Sound s.stores allowed most P) (hP : ∀ i v, P i v → P' i v)
    (hdefault : ∀ i, P' i default)
    (hdeposit : ∀ d, k.deposit? t s.stores = some d → P' d.slot d.value) :
    s'.Sound allowed most P' := by
  have hfiling := h.filing t
  have hlength : s'.length ≤ allowed := by
    rcases h.length_eq with hsame | ⟨i, rfl, hraised⟩
    · rw [hsame]
      exact hs.length_le
    · rw [hraised]
      exact hk.index i rfl
  refine ⟨h.maxCapacity_eq.trans hs.max_eq, hlength,
    Nat.lt_of_lt_of_le hs.live hfiling.extends.size_le, ?_, ?_⟩
  · intro n
    cases hfiling with
    | keep _ hstores | push _ hstores =>
      rw [hstores]
      exact hs.room n
    | deposit _ hstores =>
      rw [hstores, Stores.capacityOf_set]
      exact hs.room n
    | publish hpublish hstores =>
      subst hpublish
      obtain ⟨htarget, hsize, -⟩ := hk.found
      rw [hstores]
      rcases Nat.lt_trichotomy n s.stores.history.size with hlt | rfl | hgt
      · rw [Stores.capacityOf_publish_of_lt _ hlt]
        exact hs.room n
      · rw [Stores.capacityOf_publish_self, Store.capacity_ofValues]
        exact Nat.max_le.mpr ⟨htarget, hsize⟩
      · rw [Stores.capacityOf_of_le (by rw [Stores.size_publish]; exact hgt)]
        exact Nat.zero_le _
  · intro n i v hv
    cases hfiling with
    | keep _ hstores | push _ hstores =>
      rw [hstores] at hv
      exact hP i v (hs.holds n i v hv)
    | deposit hd hstores =>
      rw [hstores] at hv
      rcases Stores.get?_of_set hv with hold | ⟨rfl, rfl⟩
      · exact hP i v (hs.holds n i v hold)
      · exact hdeposit _ hd
    | publish hpublish hstores =>
      subst hpublish
      obtain ⟨-, -, heach⟩ := hk.found
      rw [hstores] at hv
      rcases Stores.get?_of_publish hv with hold | hnew
      · exact hP i v (hs.holds n i v hold)
      · rcases Store.get?_of_ofValues hnew with hcopied | rfl
        · exact hP i v (heach i v hcopied)
        · exact hdefault i

/-! ## In every run -/

/-- The deposit of a turn. -/
def deposited? (p : Pool (Shared α) (Task α)) : Turn (Call α) → Option (Deposit α) :=
  Machine.seenOfStep? (fun t s (k : Task α) => k.deposit? t s.stores) p

/-- The deposits made in some turns, the earliest first. -/
def deposits (S : Setup α) (turns : List (Turn (Call α))) : List (Deposit α) :=
  (machine α).observe deposited? (idle S) turns

/-- What a slot may hold after some deposits: the default, what the first store held there, or a
value that was put into a slot of this number. -/
def Known (store : Store α) (ds : List (Deposit α)) (i : Nat) (v : α) : Prop :=
  v = default ∨ store.get? i = some v ∨ ∃ d ∈ ds, d.slot = i ∧ d.value = v

/-- The most slots that a store may have. -/
def largest (S : Setup α) : Nat := max S.store.capacity S.config.maxCapacity

/-- What is so of an array and its threads. -/
structure Sound (allowed most : Nat) (P : Nat → α → Prop) (p : Pool (Shared α) (Task α)) : Prop where
  shared : p.shared.Sound allowed most P
  tasks : ∀ {t : Nat} {k : Task α}, p.threads[t]? = some k →
    k.Sound p.shared.stores allowed most P

theorem Known.mono {store : Store α} {ds ds' : List (Deposit α)} {v : α} (h : Known store ds i v)
    (hds : ds ⊆ ds') : Known store ds' i v := by
  rcases h with hdefault | hfirst | ⟨d, hd, hslot, hvalue⟩
  · exact .inl hdefault
  · exact .inr (.inl hfirst)
  · exact .inr (.inr ⟨d, hds hd, hslot, hvalue⟩)

variable (S : Setup α)

theorem deposits_concat (turns : List (Turn (Call α))) (turn : Turn (Call α)) :
    deposits S (turns ++ [turn]) =
      deposits S turns ++ (deposited? (after S turns) turn).toList :=
  Machine.observe_concat _ _ _ turns turn

theorem deposits_subset (turns : List (Turn (Call α))) (turn : Turn (Call α)) :
    deposits S turns ⊆ deposits S (turns ++ [turn]) := by
  rw [deposits_concat]
  exact List.subset_append_left ..

theorem sound_idle (hlen : S.len ≤ S.config.maxCapacity) :
    Sound S.config.maxCapacity (largest S) (Known S.store []) (idle S) := by
  constructor
  · refine ⟨rfl, hlen, Nat.one_pos, ?_, ?_⟩
    · intro n
      rcases Nat.lt_or_ge n 1 with hn | hn
      · obtain rfl : n = 0 := by omega
        exact Nat.le_max_left _ _
      · rw [Stores.capacityOf_of_le hn]
        exact Nat.zero_le _
    · intro n i v hv
      rcases Nat.lt_or_ge n 1 with hn | hn
      · obtain rfl : n = 0 := by omega
        exact .inr (.inl hv)
      · have hlt := Stores.lt_of_get? hv
        rw [Stores.capacityOf_of_le hn] at hlt
        cases hlt
  · intro t k ht
    rw [idle_get? ht]
    exact Task.sound_of_rests rfl

/-- However the threads mix their steps, the array is sound. -/
theorem sound_after (hlen : S.len ≤ S.config.maxCapacity) (turns : List (Turn (Call α))) :
    Sound S.config.maxCapacity (largest S) (Known S.store (deposits S turns)) (after S turns) := by
  induction turns using List.reverseRecOn with
  | nil => exact sound_idle S hlen
  | append_singleton turns turn ih =>
    have hknown : ∀ i v, Known S.store (deposits S turns) i v →
        Known S.store (deposits S (turns ++ [turn])) i v :=
      fun i v h => h.mono (deposits_subset S turns turn)
    have hstay : ∀ {t : Nat} {k : Task α} {s : Stores α}, (after S turns).threads[t]? = some k →
        (after S turns).shared.stores.Extends s →
        k.Sound s S.config.maxCapacity (largest S) (Known S.store (deposits S (turns ++ [turn]))) :=
      fun ht hs => (ih.tasks ht).mono hs hknown
    rw [after_concat]
    have hacts := Machine.acts (machine α) (after S turns) turn
    generalize (machine α).act (after S turns) turn = p' at hacts
    have hshared := ih.shared
    have hsame : (after S turns).shared.Sound S.config.maxCapacity (largest S)
        (Known S.store (deposits S (turns ++ [turn]))) :=
      ⟨hshared.max_eq, hshared.length_le, hshared.live, hshared.room,
        fun n i v hv => hknown i v (hshared.holds n i v hv)⟩
    cases hacts with
    | idle => exact ⟨hsame, fun ht => hstay ht (Stores.extends_refl _)⟩
    | call ht hrest =>
      refine ⟨hsame, ?_⟩
      intro u k hu
      rcases (Pool.getElem?_put_iff ht).mp hu with ⟨-, rfl⟩ | ⟨-, hu'⟩
      · exact Task.sound_ofCall _ _
      · exact hstay hu' (Stores.extends_refl _)
    | @step t luck k ht hbusy =>
      have hstep := steps (after S turns).shared k
      have hextends := (hstep.filing t).extends
      have hmade : ∀ d, k.deposit? t (after S turns).shared.stores = some d →
          Known S.store (deposits S (turns ++ [.step t luck])) d.slot d.value := by
        intro d hd
        refine .inr (.inr ⟨d, ?_, rfl, rfl⟩)
        rw [deposits_concat, List.mem_append, Option.mem_toList]
        exact .inr ((Machine.seenOfStep?_of_step ht).trans hd)
      refine ⟨hstep.shared hshared (ih.tasks ht) hknown (fun i => .inl rfl) hmade, ?_⟩
      intro u k' hu
      rcases (Pool.getElem?_put_iff ht).mp hu with ⟨-, rfl⟩ | ⟨-, hu'⟩
      · exact (hstep.task (Nat.le_max_right _ _) hshared (ih.tasks ht)).mono hextends hknown
      · exact hstay hu' hextends

end Unguarded

end Growable.SharedArray
