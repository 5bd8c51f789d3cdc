import Growable.Proofs.SharedArray.Gated.Appends

/-!
# Every schedule of appends

What a run of appends comes to, whichever gate the array is under, however many threads append and
in whichever order they take their steps. The elements there are at first fit into the store, and
the machine is one without limits, so every append that has an index finds room.
-/

namespace Growable.SharedArray.Gated

open Lock (Gate)
open Machine (Event lastCall?)

variable {α : Type} [Inhabited α]

/-- A pool that a run of appends led to, with the history `es`, from an array of `len` elements in a
store and with `allowed` slots at most. -/
structure Exact {G : Gate} (store : Store α) (len allowed : Nat)
    (es : List (Event (Call α) (Answer α))) (p : Pool (Shared G α) (Client G α)) : Prop where
  bounds : len ≤ p.shared.committed ∧ p.shared.committed ≤ p.shared.reserved ∧
    p.shared.reserved ≤ allowed
  /-- The indices between the counters are those that appends under way have, -/
  between : ∀ i, (p.shared.committed ≤ i ∧ i < p.shared.reserved) ↔
    ∃ (t : Nat) (c : Client G α), p.threads[t]? = some c ∧ c.task.rests = false ∧
      c.task.owns? = some i
  /-- and no two have the same. -/
  unique : ∀ {t u : Nat} {c d : Client G α} {i : Nat}, p.threads[t]? = some c →
    p.threads[u]? = some d → c.task.owns? = some i → d.task.owns? = some i → t = u
  /-- The length rises by one, when the append of the next index is answered. -/
  rises : ∀ turn : Turn α,
    ((machine G α).act p (appendTurn turn)).shared.committed = p.shared.committed ∨
    ((machine G α).act p (appendTurn turn)).shared.committed = p.shared.committed + 1 ∧
      ∃ t, (machine G α).event? p (appendTurn turn) = some (.answered t (.index p.shared.committed))
  /-- An append is refused when every index is reserved, and changes nothing. -/
  refuses : ∀ (turn : Turn α) (t : Nat) (e : Error),
    (machine G α).event? p (appendTurn turn) = some (.answered t (.refused e)) →
    e = .capacityOverflow (allowed + 1) allowed ∧ p.shared.reserved = allowed ∧
      ((machine G α).act p (appendTurn turn)).shared = p.shared
  /-- Every append that was answered got an index or was refused. -/
  answers : ∀ {n t : Nat} {a : Answer α}, es[n]? = some (.answered t a) →
    (∃ i, a = .index i) ∨ a = .refused (.capacityOverflow (allowed + 1) allowed)
  /-- An append that was answered earlier got the smaller index. -/
  ordered : ∀ {m n t u i j : Nat}, m < n → es[m]? = some (.answered t (.index i)) →
    es[n]? = some (.answered u (.index j)) → i < j
  /-- The indices were answered in order, without gaps. -/
  returned : indices es = List.range' len (p.shared.committed - len)
  /-- With no append under way, as many have succeeded as were called and are allowed. -/
  atRest : (∀ {t : Nat} {c : Client G α}, p.threads[t]? = some c → c.task.rests = true) →
    p.shared.reserved = p.shared.committed ∧ p.shared.committed = len + (indices es).length ∧
      (indices es).length = min (es.countP isCall) (allowed - len)
  /-- The elements there were at first are still there, -/
  first : ∀ i < len, p.shared.stores.slot? i = store.get? i
  /-- and every index that was answered holds the value its append was called with. -/
  written : ∀ {n t i : Nat}, es[n]? = some (.answered t (.index i)) →
    ∃ v, lastCall? (es.take n) t = some (.append v) ∧ p.shared.stores.slot? i = some v

section

variable {G : Gate} {Fits : G.Word → List G.Place → Prop} {Toward : Lock.Mode → G.Place → Prop}
  {store : Store α} {len allowed : Nat} {es : List (Event (Call α) (Answer α))}
  {p : Pool (Shared G α) (Client G α)}

theorem Kept.rises (h : Kept Fits Toward len allowed p) (turn : Turn α) :
    ((machine G α).act p (appendTurn turn)).shared.committed = p.shared.committed ∨
    ((machine G α).act p (appendTurn turn)).shared.committed = p.shared.committed + 1 ∧
      ∃ t, (machine G α).event? p (appendTurn turn) =
        some (.answered t (.index p.shared.committed)) := by
  have hmoves := Machine.moves_act (machine G α) p (appendTurn turn)
  generalize (machine G α).event? p (appendTurn turn) = e, (machine G α).act p (appendTurn turn) = p'
    at hmoves
  cases turn with
  | call t v =>
    cases hmoves with
    | idle => exact .inl rfl
    | call => exact .inl rfl
  | step t luck =>
    cases hmoves with
    | idle => exact .inl rfl
    | @step _ _ c ht hbusy =>
      have hcounting := h.counting ht luck
      have hsees := h.counted.sees ht
      change (Gated.step luck p.shared c).1.committed = _ ∨
        (Gated.step luck p.shared c).1.committed = _ ∧
          ∃ u, answer? t (Gated.step luck p.shared c).2.task = some (.answered u _)
      generalize Gated.step luck p.shared c = r at *
      rcases r with ⟨⟨gate, stores, reserved, committed, maxCapacity, limits, tries, journal⟩,
        ⟨place, task⟩⟩
      cases hcounting with
      | same | take | lose => exact .inl rfl
      | @give i htask =>
        rw [htask] at hsees
        obtain rfl : p.shared.committed = i := hsees
        exact .inr ⟨rfl, t, rfl⟩

theorem Told.refuses (h : Told store len allowed es p) (hkept : Kept Fits Toward len allowed p)
    (turn : Turn α) (t : Nat) (e : Error)
    (hrefused : (machine G α).event? p (appendTurn turn) = some (.answered t (.refused e))) :
    e = .capacityOverflow (allowed + 1) allowed ∧ p.shared.reserved = allowed ∧
      ((machine G α).act p (appendTurn turn)).shared = p.shared := by
  have hmoves := Machine.moves_act (machine G α) p (appendTurn turn)
  rw [hrefused] at hmoves
  generalize (machine G α).act p (appendTurn turn) = p' at hmoves
  cases turn with
  | call u v =>
    generalize hseen : some (Event.answered t (Answer.refused e)) = seen at hmoves
    cases hmoves with
    | idle => cases hseen
    | call => cases hseen
  | step u luck =>
    generalize hseen : some (Event.answered t (Answer.refused e)) = seen at hmoves
    cases hmoves with
    | idle => cases hseen
    | @step _ _ c ht hbusy =>
      have happending := hkept.appending h ht hbusy luck
      change _ = answer? u (Gated.step luck p.shared c).2.task at hseen
      change _ ∧ _ ∧ (Gated.step luck p.shared c).1 = p.shared
      generalize Gated.step luck p.shared c = r at *
      rcases r with ⟨s, ⟨place, task⟩⟩
      cases happending with
      | on hrests =>
        rw [answer?, if_neg (by simp [hrests])] at hseen
        cases hseen
      | place hrests =>
        rw [answer?, if_neg (by simp [hrests])] at hseen
        cases hseen
      | refuse hfull hs =>
        have hmax := hkept.counted.max_eq
        have hle := hkept.counted.reserved_le
        have hreserved : p.shared.reserved = allowed := by omega
        rw [hmax, hreserved] at hseen
        cases hseen
        exact ⟨rfl, hreserved, hs⟩
      | give => cases hseen

end

theorem exact_of_kept {G : Gate} {Fits : G.Word → List G.Place → Prop}
    {Toward : Lock.Mode → G.Place → Prop} {store : Store α} {len allowed : Nat}
    {es : List (Event (Call α) (Answer α))} {p : Pool (Shared G α) (Client G α)}
    (h : Told store len allowed es p) (hkept : Kept Fits Toward len allowed p) :
    Exact store len allowed es p where
  bounds := ⟨hkept.counted.len_le, hkept.counted.committed_le, hkept.counted.reserved_le⟩
  between i := by
    constructor
    · rintro ⟨hle, hlt⟩
      obtain ⟨t, c, ht, howns⟩ := h.owned hkept hle hlt
      exact ⟨t, c, ht, Task.rests_of_owns? howns, howns⟩
    · rintro ⟨t, c, ht, -, howns⟩
      exact hkept.counted.between ht howns
  unique := hkept.counted.unique
  rises := hkept.rises
  refuses := h.refuses hkept
  answers hn := by
    rcases h.answers hn with ⟨i, v, ha, -⟩ | ⟨ha, -⟩
    · exact .inl ⟨i, ha⟩
    · exact .inr ha
  ordered := h.ordered
  returned := h.returned
  atRest := h.atRest hkept
  first := h.first
  written hn := by
    rcases h.answers hn with ⟨i, v, ha, -, hcall, hv⟩ | ⟨ha, -⟩
    · cases ha
      exact ⟨v, hcall, hv⟩
    · cases ha

/-- Threads that append to an array under any of the three gates, in any schedule, get the indices
from `len` on in order and without gaps, and each slot holds what was appended to it. -/
theorem appends_exact (k : GateKind) (store : Store α) (len : Nat) (config : Config)
    (hfits : len ≤ store.capacity) (hlen : len ≤ config.maxCapacity) (threads : Nat)
    (turns : List (Turn α)) :
    Exact store len config.maxCapacity
      ((machine k.gate α).history (idle k.gate store len config threads) (turns.map appendTurn))
      ((machine k.gate α).run (idle k.gate store len config threads) (turns.map appendTurn)) := by
  have hidle : Told store len config.maxCapacity [] (idle k.gate store len config threads) ∧
      Kept k.Fits k.Toward len config.maxCapacity (idle k.gate store len config threads) :=
    ⟨told_idle (Limits.suffices_default _) hfits threads, kept_idle k.excludes hlen threads {}⟩
  have hturns : ∀ turn ∈ turns.map appendTurn, ∃ turn', appendTurn turn' = turn := by
    intro turn hturn
    obtain ⟨turn', -, rfl⟩ := List.mem_map.mp hturn
    exact ⟨turn', rfl⟩
  have hkeeps := Machine.run_history_invariant (m := machine k.gate α)
    (fun es p => Told store len config.maxCapacity es p ∧
      Kept k.Fits k.Toward len config.maxCapacity p)
    (fun turn => ∃ turn', appendTurn turn' = turn) ?_ hidle hturns
  · exact exact_of_kept hkeeps.1 hkeeps.2
  · rintro es p turn ⟨turn', rfl⟩ ⟨htold, hkept⟩
    exact ⟨htold.act hkept turn', hkept.act k.excludes (appendTurn turn')⟩

/-- One slot is left for two appends. -/
def lastSlot : List (Turn Nat) :=
  [.call 0 10, .call 1 20] ++ List.replicate 24 (.step 1 true) ++ List.replicate 2 (.step 0 true)

theorem appends_exact_lastSlot :
    1 ≤ (⟨#[7]⟩ : Store Nat).capacity ∧
    1 ≤ ({ maxCapacity := 2 } : Config).maxCapacity ∧
    (machine GateKind.stamped.gate Nat).history
      (idle GateKind.stamped.gate ⟨#[7]⟩ 1 { maxCapacity := 2 } 2) (lastSlot.map appendTurn) =
      [.called 0 (.append 10), .called 1 (.append 20), .answered 1 (.index 1),
        .answered 0 (.refused (.capacityOverflow 3 2))] ∧
    Exact ⟨#[7]⟩ 1 2
      ((machine GateKind.stamped.gate Nat).history
        (idle GateKind.stamped.gate ⟨#[7]⟩ 1 { maxCapacity := 2 } 2) (lastSlot.map appendTurn))
      ((machine GateKind.stamped.gate Nat).run
        (idle GateKind.stamped.gate ⟨#[7]⟩ 1 { maxCapacity := 2 } 2) (lastSlot.map appendTurn)) :=
  ⟨by decide, by decide, by decide +kernel,
    appends_exact .stamped ⟨#[7]⟩ 1 { maxCapacity := 2 } (by decide) (by decide) 2 lastSlot⟩

end Growable.SharedArray.Gated
