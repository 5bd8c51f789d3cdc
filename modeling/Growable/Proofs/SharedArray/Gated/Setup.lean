import Growable.Proofs.Runs
import Growable.Proofs.SharedArray.Gated.Cursor

/-!
# Arrays in use

An array is set up around a store, with some length, some configuration and some threads; then the
threads make calls of every kind and take their steps in any order. What is kept of the gate and the
stores in such runs needs nothing of the length. What is kept of the counters does: if there are
more elements than are allowed from the first, every append is refused, and if not, the counters fit
the threads that append. Either way a thread that owns an index may have it, and the length rises by
one at a time.
-/

namespace Growable.SharedArray.Gated

open Lock (Gate Mode)

/-- An array as it is set up, and the number of threads that use it. -/
structure Setup (α : Type) where
  store : Store α
  /-- The number of elements. -/
  len : Nat
  config : Config
  threads : Nat
  limits : Limits := {}

section

variable {G : Gate} {α : Type}

/-- An array with more elements than are allowed: its counters never move. -/
structure Overfull (len : Nat) (p : Pool (Shared G α) (Client G α)) : Prop where
  lt : p.shared.maxCapacity < len
  reserved : p.shared.reserved = len
  committed : p.shared.committed = len
  owns : ∀ {t : Nat} {c : Client G α}, p.threads[t]? = some c → c.task.owns? = none
  sees : ∀ {t : Nat} {c : Client G α}, p.threads[t]? = some c →
    c.task.Sees p.shared.committed p.shared.maxCapacity

/-- What threads that own an index, or are about to, have of the counters. -/
structure Paced (len : Nat) (p : Pool (Shared G α) (Client G α)) : Prop where
  len_le : len ≤ p.shared.committed
  owns : ∀ {t : Nat} {c : Client G α} {i : Nat}, p.threads[t]? = some c →
    c.task.owns? = some i →
    p.shared.committed ≤ i ∧ i < p.shared.reserved ∧ i < p.shared.maxCapacity
  unique : ∀ {t u : Nat} {c d : Client G α} {i : Nat}, p.threads[t]? = some c →
    p.threads[u]? = some d → c.task.owns? = some i → d.task.owns? = some i → t = u
  sees : ∀ {t : Nat} {c : Client G α}, p.threads[t]? = some c →
    c.task.Sees p.shared.committed p.shared.maxCapacity

variable {len : Nat} {p : Pool (Shared G α) (Client G α)} {t : Nat} {c d : Client G α}
  {s : Shared G α}

theorem owns_ofCall (call : Call α) : (Task.ofCall (G := G) call).owns? = none ∧
    ∀ committed allowed, (Task.ofCall (G := G) call).Sees committed allowed := by
  cases call with
  | read i =>
    cases hoptimistic : G.optimistic with
    | true => simp [Task.ofCall, hoptimistic, Task.owns?, Task.Sees]
    | false => simp [Task.ofCall, hoptimistic, Task.owns?, Task.Sees]
  | _ => exact ⟨rfl, fun _ _ => trivial⟩

theorem overfull_idle {store : Store α} {config : Config} (hlen : config.maxCapacity < len)
    (threads : Nat) (limits : Limits) : Overfull len (idle G store len config threads limits) := by
  refine ⟨hlen, rfl, rfl, ?_, ?_⟩
  · intro t c ht
    obtain rfl := idle_get? ht
    rfl
  · intro t c ht
    obtain rfl := idle_get? ht
    exact trivial

theorem Overfull.put (h : Overfull len p) (ht : p.threads[t]? = some c)
    (hmax : s.maxCapacity = p.shared.maxCapacity) (hreserved : s.reserved = p.shared.reserved)
    (hcommitted : s.committed = p.shared.committed) (howns : d.task.owns? = none)
    (hsees : d.task.Sees p.shared.committed p.shared.maxCapacity) : Overfull len (p.put t s d) := by
  refine ⟨hmax ▸ h.lt, hreserved.trans h.reserved, hcommitted.trans h.committed, ?_, ?_⟩
  · intro u x hu
    rcases (Pool.getElem?_put_iff ht).mp hu with ⟨-, rfl⟩ | ⟨-, hu'⟩
    · exact howns
    · exact h.owns hu'
  · intro u x hu
    rw [Pool.shared_put, hcommitted, hmax]
    rcases (Pool.getElem?_put_iff ht).mp hu with ⟨-, rfl⟩ | ⟨-, hu'⟩
    · exact hsees
    · exact h.sees hu'

theorem Overfull.paced (h : Overfull len p) : Paced len p := by
  refine ⟨Nat.le_of_eq h.committed.symm, ?_, ?_, h.sees⟩
  · intro t c i ht hi
    rw [h.owns ht] at hi
    cases hi
  · intro t u c d i ht _ hi _
    rw [h.owns ht] at hi
    cases hi

theorem Counted.paced {allowed : Nat} (h : Counted len allowed p) : Paced len p := by
  have hmax := h.max_eq
  refine ⟨h.len_le, ?_, h.unique, ?_⟩
  · intro t c i ht hi
    have hbetween := h.between ht hi
    have hle := h.reserved_le
    omega
  · rw [hmax]
    exact h.sees

variable [Inhabited α]

theorem Overfull.act (hknows : Informed p) (h : Overfull len p) (turn : Turn (Call α)) :
    Overfull len ((machine G α).act p turn) := by
  refine Machine.act_keeps h ?_ ?_ turn
  · intro t c call ht _
    have hcall := owns_ofCall (G := G) call
    exact h.put ht rfl rfl rfl hcall.1 (hcall.2 _ _)
  · intro t c luck ht _
    have hsees := h.sees ht
    have hnone := h.owns ht
    have hcounting := counting luck p.shared c (hknows.knows ht) hsees (by simp [hnone])
    have hmax := (storing luck p.shared c hknows.live (hknows.knows ht)).2.1
    change Overfull len (p.put t (step luck p.shared c).1 (step luck p.shared c).2)
    generalize Gated.step luck p.shared c = r at *
    rcases r with ⟨⟨gate, stores, reserved, committed, maxCapacity, limits, tries, journal⟩,
      ⟨place, task⟩⟩
    rcases c with ⟨place', task'⟩
    cases hcounting with
    | same howns hnext => exact h.put ht hmax rfl rfl (howns.trans hnone) hnext
    | lose htask =>
      obtain rfl : task' = .growPointer (.fit _ _) := htask
      cases hnone
    | take htask =>
      -- every index is taken from the first
      obtain rfl : task' = .reserveSwap _ _ := htask
      have hroom : p.shared.reserved < p.shared.maxCapacity := hsees
      have hlt := h.lt
      have hreserved := h.reserved
      omega
    | give htask =>
      obtain rfl : task' = .commit _ := htask
      cases hnone

end

/-! ## In every run -/

namespace Setup

variable {α : Type} [Inhabited α]

/-- The array and its threads after some turns. -/
def after (S : Setup α) (G : Gate) (turns : List (Turn (Call α))) :
    Pool (Shared G α) (Client G α) :=
  (machine G α).run (idle G S.store S.len S.config S.threads S.limits) turns

/-- What was seen of the calls in these turns. -/
def history (S : Setup α) (G : Gate) (turns : List (Turn (Call α))) :
    List (Machine.Event (Call α) (Answer α)) :=
  (machine G α).history (idle G S.store S.len S.config S.threads S.limits) turns

/-- `P` held at some moment of the call that thread `t` is at. -/
def During (S : Setup α) (G : Gate) (t : Nat) (P : List (Turn (Call α)) → Prop) :
    List (Turn (Call α)) → Prop :=
  (machine G α).During (idle G S.store S.len S.config S.threads S.limits) t P

/-- What is kept of the array and its threads. -/
structure Sound (S : Setup α) {G : Gate} (Fits : G.Word → List G.Place → Prop)
    (Toward : Mode → G.Place → Prop) (p : Pool (Shared G α) (Client G α)) : Prop where
  orderly : Orderly Fits Toward p
  informed : Informed p
  paced : Paced S.len p

variable (S : Setup α) {G : Gate} {k : GateKind} {turns : List (Turn (Call α))} {t : Nat}
  {c : Client k.gate α}

theorem after_concat (G : Gate) (turns : List (Turn (Call α))) (turn : Turn (Call α)) :
    S.after G (turns ++ [turn]) = (machine G α).act (S.after G turns) turn :=
  Machine.run_concat _ _ turns turn

theorem history_concat (G : Gate) (turns : List (Turn (Call α))) (turn : Turn (Call α)) :
    S.history G (turns ++ [turn]) =
      S.history G turns ++ ((machine G α).event? (S.after G turns) turn).toList :=
  Machine.history_concat _ _ turns turn

/-- What a gate keeps of its word and the places is kept. -/
theorem orderly_after {Fits : G.Word → List G.Place → Prop} {Toward : Mode → G.Place → Prop}
    (hG : G.Excludes Fits Toward) (turns : List (Turn (Call α))) :
    Orderly Fits Toward (S.after G turns) := by
  induction turns using List.reverseRecOn with
  | nil => exact orderly_idle hG _ _ _ _ _
  | append_singleton turns turn ih =>
    rw [after_concat]
    exact ih.act hG turn

theorem informed_after (k : GateKind) (turns : List (Turn (Call α))) :
    Informed (S.after k.gate turns) := by
  induction turns using List.reverseRecOn with
  | nil => exact informed_idle _ _ _ _ _
  | append_singleton turns turn ih =>
    rw [after_concat]
    exact ih.act k.excludes (S.orderly_after k.excludes turns) turn

theorem max_eq_after (k : GateKind) (turns : List (Turn (Call α))) :
    (S.after k.gate turns).shared.maxCapacity = S.config.maxCapacity := by
  induction turns using List.reverseRecOn with
  | nil => rfl
  | append_singleton turns turn ih =>
    rw [after_concat]
    have hinformed := S.informed_after k turns
    generalize S.after k.gate turns = p at ih hinformed
    have hmoves := Machine.moves_act (machine k.gate α) p turn
    generalize (machine k.gate α).event? p turn = e, (machine k.gate α).act p turn = p' at hmoves
    cases hmoves with
    | idle => exact ih
    | call => exact ih
    | step ht => exact (storing _ _ _ hinformed.live (hinformed.knows ht)).2.1.trans ih

theorem limits_after (G : Gate) (turns : List (Turn (Call α))) :
    (S.after G turns).shared.limits = S.limits := by
  induction turns using List.reverseRecOn with
  | nil => rfl
  | append_singleton turns turn ih =>
    rw [after_concat]
    refine Machine.act_keeps (P := fun p : Pool (Shared G α) (Client G α) =>
      p.shared.limits = S.limits) ih ?_ ?_ turn
    · exact fun _ _ _ => ih
    · intro t c luck _ _
      exact (limits_step luck _ c).trans ih

theorem overfull_after (hlen : S.config.maxCapacity < S.len) (k : GateKind)
    (turns : List (Turn (Call α))) : Overfull S.len (S.after k.gate turns) := by
  induction turns using List.reverseRecOn with
  | nil => exact overfull_idle hlen S.threads S.limits
  | append_singleton turns turn ih =>
    rw [after_concat]
    exact ih.act (S.informed_after k turns) turn

theorem counted_after (hlen : S.len ≤ S.config.maxCapacity) (k : GateKind)
    (turns : List (Turn (Call α))) :
    Counted S.len S.config.maxCapacity (S.after k.gate turns) :=
  (kept_run k.excludes hlen S.threads S.limits turns).counted

theorem paced_after (k : GateKind) (turns : List (Turn (Call α))) :
    Paced S.len (S.after k.gate turns) := by
  rcases Nat.lt_or_ge S.config.maxCapacity S.len with hlt | hle
  · exact (S.overfull_after hlt k turns).paced
  · exact (S.counted_after hle k turns).paced

/-- Whatever was set up, it is sound after any turns. -/
theorem sound_after (k : GateKind) (turns : List (Turn (Call α))) :
    S.Sound k.Fits k.Toward (S.after k.gate turns) :=
  ⟨S.orderly_after k.excludes turns, S.informed_after k turns, S.paced_after k turns⟩

end Setup

/-! ## One turn -/

section

variable {α : Type} [Inhabited α] {S : Setup α} {G : Gate} {Fits : G.Word → List G.Place → Prop}
  {Toward : Mode → G.Place → Prop} {p : Pool (Shared G α) (Client G α)}

theorem Setup.Sound.counting (h : S.Sound Fits Toward p) {t : Nat} {c : Client G α}
    (ht : p.threads[t]? = some c) (luck : Bool) :
    Counting p.shared c.task ((Gated.step luck p.shared c).1.reserved,
      (Gated.step luck p.shared c).1.committed) (Gated.step luck p.shared c).2.task :=
  Gated.counting luck p.shared c (h.informed.knows ht) (h.paced.sees ht)
    fun _ hi => (h.paced.owns ht hi).2.2

/-- The length stays as it is, or a thread commits the next index. -/
theorem Setup.Sound.committed_act (h : S.Sound Fits Toward p) (turn : Turn (Call α)) :
    ((machine G α).act p turn).shared.committed = p.shared.committed ∨
    ((machine G α).act p turn).shared.committed = p.shared.committed + 1 ∧
      ∃ (t : Nat) (c : Client G α), p.threads[t]? = some c ∧
        c.task = .commit p.shared.committed := by
  have hmoves := Machine.moves_act (machine G α) p turn
  generalize (machine G α).event? p turn = e, (machine G α).act p turn = p' at hmoves
  cases hmoves with
  | idle => exact .inl rfl
  | call => exact .inl rfl
  | @step t luck c ht hbusy =>
    have hsees := h.paced.sees ht
    have hcounting := h.counting ht luck
    change (Gated.step luck p.shared c).1.committed = _ ∨
      (Gated.step luck p.shared c).1.committed = _ ∧ _
    generalize Gated.step luck p.shared c = r at *
    rcases r with ⟨⟨gate, stores, reserved, committed, maxCapacity, limits, tries, journal⟩,
      ⟨place, task⟩⟩
    cases hcounting with
    | same | take | lose => exact .inl rfl
    | @give i htask =>
      rw [htask] at hsees
      obtain rfl : p.shared.committed = i := hsees
      exact .inr ⟨rfl, t, c, ht, htask⟩

theorem Setup.Sound.reserved_le_act (h : S.Sound Fits Toward p) (turn : Turn (Call α)) :
    p.shared.reserved ≤ ((machine G α).act p turn).shared.reserved := by
  refine Machine.act_keeps (P := fun p' : Pool (Shared G α) (Client G α) =>
    p.shared.reserved ≤ p'.shared.reserved) (Nat.le_refl _) ?_ ?_ turn
  · intro t c call _ _
    exact Nat.le_refl _
  · intro t c luck ht _
    have hcounting := h.counting ht luck
    change p.shared.reserved ≤ (Gated.step luck p.shared c).1.reserved
    generalize Gated.step luck p.shared c = r at *
    rcases r with ⟨⟨gate, stores, reserved, committed, maxCapacity, limits, tries, journal⟩,
      ⟨place, task⟩⟩
    cases hcounting with
    | same | give | lose => exact Nat.le_refl _
    | take => exact Nat.le_succ _

theorem Setup.Sound.committed_le_act (h : S.Sound Fits Toward p) (turn : Turn (Call α)) :
    p.shared.committed ≤ ((machine G α).act p turn).shared.committed := by
  rcases h.committed_act turn with hsame | ⟨hnext, -⟩
  · exact Nat.le_of_eq hsame.symm
  · omega

end

end Growable.SharedArray.Gated
