import Growable.Proofs.SharedArray.Gated.Stores

/-!
# Reserved and committed

An index is reserved for one append and committed by the same append, and the two counters say which
indices are in between: each of those is in the hands of exactly one thread, and no thread has
another. An append that has an index gets it committed, since neither its growth nor its slot can be
refused any more, unless the machine has no room for the growth: then the index is lost, and so is
every later one.
-/

namespace Growable.SharedArray.Gated

open Lock (Gate Mode)

/-- The index an append under way has reserved. -/
def Task.owns? {G : Gate} {α : Type} : Task G α → Option Nat
  | .placeEnter i _ | .placePointer i _ | .placeSlot i _ _ | .placeLeave i _ _ | .fitPointer i _
  | .fitSlot i _ _ | .await i | .commit i => some i
  | .growEnter (.fit i _) | .growPointer (.fit i _) | .copy (.fit i _) .. | .publish (.fit i _) ..
  | .growLeave (.fit i _) => some i
  | _ => none

theorem Task.rests_of_owns? {G : Gate} {α : Type} {k : Task G α} {i : Nat}
    (h : k.owns? = some i) : k.rests = false := by
  cases k with
  | rest => cases h
  | _ => rfl

/-- What a thread has seen of the counters is so. -/
def Task.Sees (committed allowed : Nat) {G : Gate} {α : Type} : Task G α → Prop
  | .reserveSwap _ seen => seen < allowed
  | .commit i => committed = i
  | _ => True

/-- The counters fit the threads that append. -/
structure Counted {G : Gate} {α : Type} (len allowed : Nat) (p : Pool (Shared G α) (Client G α)) :
    Prop where
  max_eq : p.shared.maxCapacity = allowed
  len_le : len ≤ p.shared.committed
  committed_le : p.shared.committed ≤ p.shared.reserved
  reserved_le : p.shared.reserved ≤ allowed
  between : ∀ {t : Nat} {c : Client G α} {i : Nat}, p.threads[t]? = some c →
    c.task.owns? = some i → p.shared.committed ≤ i ∧ i < p.shared.reserved
  unique : ∀ {t u : Nat} {c d : Client G α} {i : Nat}, p.threads[t]? = some c →
    p.threads[u]? = some d → c.task.owns? = some i → d.task.owns? = some i → t = u
  owned : ∀ {i : Nat}, p.shared.committed ≤ i → i < p.shared.reserved →
    (∃ (t : Nat) (c : Client G α), p.threads[t]? = some c ∧ c.task.owns? = some i) ∨
      p.shared.Lost i
  sees : ∀ {t : Nat} {c : Client G α}, p.threads[t]? = some c →
    c.task.Sees p.shared.committed allowed

section

variable {G : Gate} {α : Type}

/-- What a step does to the counters. -/
inductive Counting (s : Shared G α) (k : Task G α) : Nat × Nat → Task G α → Prop
  | same {k' : Task G α} : k'.owns? = k.owns? → k'.Sees s.committed s.maxCapacity →
      Counting s k (s.reserved, s.committed) k'
  | take {v : α} : k = .reserveSwap v s.reserved →
      Counting s k (s.reserved + 1, s.committed) (.placeEnter s.reserved v)
  | give {i : Nat} : k = .commit i → Counting s k (s.reserved, i + 1) (.answer (.index i))
  | lose {i : Nat} {v : α} : k = .growPointer (.fit i v) → s.Lost i →
      Counting s k (s.reserved, s.committed) (.leave .overflowed)

theorem afterMeasure_owns (need? : Option Nat) (found committed allowed : Nat) :
    (Task.afterMeasure (G := G) (α := α) need? found).owns? = none ∧
      (Task.afterMeasure (G := G) (α := α) need? found).Sees committed allowed := by
  cases need? with
  | none => exact ⟨rfl, trivial⟩
  | some n =>
    simp only [Task.afterMeasure]
    split <;> exact ⟨rfl, trivial⟩

theorem afterValid_owns (i len committed allowed : Nat) (v? : Option α) :
    (Task.afterValid (G := G) i len v?).owns? = none ∧
      (Task.afterValid (G := G) i len v?).Sees committed allowed := by
  cases v? with
  | none => exact ⟨rfl, trivial⟩
  | some v =>
    simp only [Task.afterValid]
    split <;> exact ⟨rfl, trivial⟩

theorem Counting.enter {s : Shared G α} {c : Client G α} {m : Mode} {luck : Bool}
    {next : Task G α} (hnext : next.owns? = c.task.owns?)
    (hsees : next.Sees s.committed s.maxCapacity) (hsees' : c.task.Sees s.committed s.maxCapacity) :
    Counting s c.task (s.reserved, s.committed) (enter m luck next s c).2.task := by
  refine enter_task (P := Counting s c.task (s.reserved, s.committed)) ?_ ?_
  · exact .same hnext hsees
  · exact .same rfl hsees'

theorem counting_ofReserved (s : Shared G α) {k : Task G α} (hk : k.owns? = none) (v : α) :
    Counting s k (s.reserved, s.committed) (.ofReserved s.limits v s.reserved s.maxCapacity) := by
  unfold Task.ofReserved
  split
  · rename_i hroom
    exact .same hk.symm hroom
  · exact .same hk.symm trivial

variable [Inhabited α]

/-- A thread that owns an index keeps it until it commits it. -/
theorem counting (luck : Bool) (s : Shared G α) (c : Client G α)
    (hk : c.task.Knows s.stores s.limits s.maxCapacity)
    (hsees : c.task.Sees s.committed s.maxCapacity)
    (howns : ∀ i, c.task.owns? = some i → i < s.maxCapacity) :
    Counting s c.task ((step luck s c).1.reserved, (step luck s c).1.committed)
      (step luck s c).2.task := by
  rcases c with ⟨place, task⟩
  cases task with
  | measure need? =>
    simp only [step]
    split
    · obtain ⟨hnone, hafter⟩ := afterMeasure_owns need? s.stores.capacity _ _
      exact .same hnone hafter
    · exact Counting.enter (s := s) (c := ⟨place, .measure need?⟩) rfl trivial hsees
  | measureLeave need? found =>
    obtain ⟨hnone, hafter⟩ := afterMeasure_owns need? found _ _
    exact .same hnone hafter
  | reserve v => exact counting_ofReserved s rfl v
  | reserveSwap v seen =>
    simp only [step]
    split
    · rename_i hsame
      obtain rfl : s.reserved = seen := eq_of_beq (Bool.and_eq_true .. ▸ hsame).2
      exact .take rfl
    · exact counting_ofReserved s rfl v
  | placeEnter i v => exact .enter rfl trivial hsees
  | placeSlot i v p =>
    simp only [step]
    split <;> exact .same rfl trivial
  | placeLeave i v written => cases written <;> exact .same rfl trivial
  | growEnter g => cases g <;> exact .enter rfl trivial hsees
  | growPointer g =>
    simp only [step]
    split
    · cases g <;> exact .same rfl trivial
    · split
      · rename_i e herror
        cases g with
        | fit i v =>
          -- the index is allowed, so room for it can be made
          have hi : i < s.maxCapacity := howns i rfl
          have hlt : s.maxCapacity < i + 1 := lt_of_capacityFor herror
          omega
        | reserve n => exact .same rfl trivial
      · rename_i new hnew
        dsimp only
        split
        · cases g <;> exact .same rfl trivial
        · rename_i hroom _ hholds
          cases g with
          | fit i v =>
            exact .lose rfl fun hadmits => hholds (hadmits (Nat.lt_of_not_le hroom) new hnew)
          | reserve n => exact .same rfl trivial
  | copy g p target buffer =>
    simp only [step]
    split
    · cases g <;> exact .same rfl trivial
    · cases g <;> exact .same rfl trivial
  | publish g target buffer => cases g <;> exact .same rfl trivial
  | fitSlot i v p =>
    obtain ⟨rfl, hi⟩ := hk
    simp only [step]
    split
    · exact .same rfl trivial
    · rename_i hnot
      exact absurd hi hnot
  | growLeave g => cases g <;> exact .same rfl trivial
  | await i =>
    simp only [step]
    split
    · rename_i hturn
      exact .same rfl hturn
    · exact .same rfl trivial
  | commit i => exact .give rfl
  | tryStamp i left =>
    cases left with
    | zero => exact .same rfl trivial
    | succ left =>
      simp only [step]
      split <;> exact .same rfl trivial
  | tryValid i left stamp len v? =>
    simp only [step]
    split
    · obtain ⟨hnone, hafter⟩ := afterValid_owns i len s.committed s.maxCapacity v?
      exact .same hnone hafter
    · exact .same rfl trivial
  | accessEnter i a => exact .enter rfl trivial hsees
  | accessLength i a =>
    simp only [step]
    split <;> exact .same rfl trivial
  | accessSlot i a p =>
    simp only [step]
    split <;> exact .same rfl trivial
  | collectEnter => exact .enter rfl trivial hsees
  | collect p n buffer =>
    simp only [step]
    split
    · split <;> exact .same rfl trivial
    · exact .same rfl trivial
  | _ => exact .same rfl trivial

end

/-! ## In every run -/

section

variable {G : Gate} {α : Type} {len allowed : Nat} {p : Pool (Shared G α) (Client G α)} {t : Nat}
  {c d : Client G α} {s : Shared G α}

/-- With no call under way, the next index after the committed ones is not reserved, or lost. -/
theorem Counted.reserved_of_rest (h : Counted len allowed p)
    (hrest : ∀ {t : Nat} {c : Client G α}, p.threads[t]? = some c → c.task.rests = true) :
    p.shared.reserved = p.shared.committed ∨ p.shared.Lost p.shared.committed := by
  have hle := h.committed_le
  rcases Nat.lt_or_ge p.shared.committed p.shared.reserved with hlt | hge
  · rcases h.owned (Nat.le_refl _) hlt with ⟨t, c, ht, howns⟩ | hlost
    · have hrests := Task.rests_of_owns? howns
      rw [hrest ht] at hrests
      cases hrests
    · exact .inr hlost
  · exact .inl (Nat.le_antisymm hge hle)

theorem counted_idle {store : Store α} {config : Config} (hlen : len ≤ config.maxCapacity)
    (threads : Nat) (limits : Limits) :
    Counted len config.maxCapacity (idle G store len config threads limits) := by
  refine ⟨rfl, Nat.le_refl _, Nat.le_refl _, hlen, ?_, ?_, ?_, ?_⟩
  · intro t c i ht hi
    obtain rfl := idle_get? ht
    cases hi
  · intro t u c d i ht hu hi hj
    obtain rfl := idle_get? ht
    cases hi
  · intro i hle hlt
    have hle : len ≤ i := hle
    have hlt : i < len := hlt
    omega
  · intro t c ht
    obtain rfl := idle_get? ht
    exact trivial

/-- A thread moves without touching the counters, and keeps the index it has unless that is lost. -/
theorem Counted.stay (h : Counted len allowed p) (ht : p.threads[t]? = some c)
    (hmax : s.maxCapacity = p.shared.maxCapacity) (hreserved : s.reserved = p.shared.reserved)
    (hcommitted : s.committed = p.shared.committed)
    (hlost : ∀ {i : Nat}, p.shared.Lost i → s.Lost i)
    (howns : ∀ {i : Nat}, d.task.owns? = some i → c.task.owns? = some i)
    (hkeeps : ∀ {i : Nat}, c.task.owns? = some i → d.task.owns? = some i ∨ s.Lost i)
    (hsees : d.task.Sees p.shared.committed allowed) : Counted len allowed (p.put t s d) := by
  have hset {u : Nat} {x : Client G α} : (p.put t s d).threads[u]? = some x ↔
      (u = t ∧ x = d) ∨ (u ≠ t ∧ p.threads[u]? = some x) := Pool.getElem?_put_iff ht
  refine ⟨hmax.trans h.max_eq, ?_, ?_, ?_, ?_, ?_, ?_, ?_⟩
  · rw [Pool.shared_put, hcommitted]
    exact h.len_le
  · rw [Pool.shared_put, hcommitted, hreserved]
    exact h.committed_le
  · rw [Pool.shared_put, hreserved]
    exact h.reserved_le
  · intro u x i hu hi
    rw [Pool.shared_put, hcommitted, hreserved]
    rcases hset.mp hu with ⟨-, rfl⟩ | ⟨-, hu'⟩
    · exact h.between ht (howns hi)
    · exact h.between hu' hi
  · intro u v x y i hu hv hx hy
    rcases hset.mp hu with ⟨rfl, rfl⟩ | ⟨-, hu'⟩
    · rcases hset.mp hv with ⟨rfl, rfl⟩ | ⟨-, hv'⟩
      · rfl
      · exact h.unique ht hv' (howns hx) hy
    · rcases hset.mp hv with ⟨rfl, rfl⟩ | ⟨-, hv'⟩
      · exact h.unique hu' ht hx (howns hy)
      · exact h.unique hu' hv' hx hy
  · intro i hle hlt
    rw [Pool.shared_put, hcommitted] at hle
    rw [Pool.shared_put, hreserved] at hlt
    rcases h.owned hle hlt with ⟨u, x, hu, hi⟩ | hgone
    · by_cases hut : u = t
      · subst hut
        obtain rfl : c = x := Option.some.inj (ht.symm.trans hu)
        exact (hkeeps hi).imp (fun hi' => ⟨u, d, hset.mpr (.inl ⟨rfl, rfl⟩), hi'⟩) id
      · exact .inl ⟨u, x, hset.mpr (.inr ⟨hut, hu⟩), hi⟩
    · exact .inr (hlost hgone)
  · intro u x hu
    rw [Pool.shared_put, hcommitted]
    rcases hset.mp hu with ⟨-, rfl⟩ | ⟨-, hu'⟩
    · exact hsees
    · exact h.sees hu'

/-- A thread reserves the next index. -/
theorem Counted.take (h : Counted len allowed p) (ht : p.threads[t]? = some c)
    (hmax : s.maxCapacity = p.shared.maxCapacity) (hreserved : s.reserved = p.shared.reserved + 1)
    (hcommitted : s.committed = p.shared.committed)
    (hlost : ∀ {i : Nat}, p.shared.Lost i → s.Lost i) (hroom : p.shared.reserved < allowed)
    (hc : c.task.owns? = none) (hd : d.task.owns? = some p.shared.reserved)
    (hsees : d.task.Sees p.shared.committed allowed) : Counted len allowed (p.put t s d) := by
  have hset {u : Nat} {x : Client G α} : (p.put t s d).threads[u]? = some x ↔
      (u = t ∧ x = d) ∨ (u ≠ t ∧ p.threads[u]? = some x) := Pool.getElem?_put_iff ht
  have hle := h.committed_le
  have hlen := h.len_le
  refine ⟨hmax.trans h.max_eq, ?_, ?_, ?_, ?_, ?_, ?_, ?_⟩
  · rw [Pool.shared_put, hcommitted]
    exact h.len_le
  · rw [Pool.shared_put, hcommitted, hreserved]
    omega
  · rw [Pool.shared_put, hreserved]
    exact hroom
  · intro u x i hu hi
    rw [Pool.shared_put, hcommitted, hreserved]
    rcases hset.mp hu with ⟨-, rfl⟩ | ⟨-, hu'⟩
    · obtain rfl : p.shared.reserved = i := Option.some.inj (hd.symm.trans hi)
      omega
    · have := h.between hu' hi
      omega
  · intro u v x y i hu hv hx hy
    rcases hset.mp hu with ⟨rfl, rfl⟩ | ⟨-, hu'⟩
    · rcases hset.mp hv with ⟨rfl, rfl⟩ | ⟨-, hv'⟩
      · rfl
      · obtain rfl : p.shared.reserved = i := Option.some.inj (hd.symm.trans hx)
        have := (h.between hv' hy).2
        omega
    · rcases hset.mp hv with ⟨rfl, rfl⟩ | ⟨-, hv'⟩
      · obtain rfl : p.shared.reserved = i := Option.some.inj (hd.symm.trans hy)
        have := (h.between hu' hx).2
        omega
      · exact h.unique hu' hv' hx hy
  · intro i hi hlt
    rw [Pool.shared_put, hcommitted] at hi
    rw [Pool.shared_put, hreserved] at hlt
    by_cases hlast : i = p.shared.reserved
    · subst hlast
      exact .inl ⟨t, d, hset.mpr (.inl ⟨rfl, rfl⟩), hd⟩
    · refine (h.owned hi (by omega)).imp (Pool.exists_getElem?_put ht ?_) hlost
      intro hx
      rw [hc] at hx
      cases hx
  · intro u x hu
    rw [Pool.shared_put, hcommitted]
    rcases hset.mp hu with ⟨-, rfl⟩ | ⟨-, hu'⟩
    · exact hsees
    · exact h.sees hu'

/-- A thread commits its index, whose turn it is. -/
theorem Counted.give (h : Counted len allowed p) (ht : p.threads[t]? = some c)
    (hmax : s.maxCapacity = p.shared.maxCapacity) (hreserved : s.reserved = p.shared.reserved)
    (hcommitted : s.committed = p.shared.committed + 1)
    (hlost : ∀ {i : Nat}, p.shared.Lost i → s.Lost i)
    (hc : c.task.owns? = some p.shared.committed) (hd : d.task.owns? = none)
    (hsees : d.task.Sees (p.shared.committed + 1) allowed) : Counted len allowed (p.put t s d) := by
  have hset {u : Nat} {x : Client G α} : (p.put t s d).threads[u]? = some x ↔
      (u = t ∧ x = d) ∨ (u ≠ t ∧ p.threads[u]? = some x) := Pool.getElem?_put_iff ht
  have hlt := (h.between ht hc).2
  have hlen := h.len_le
  refine ⟨hmax.trans h.max_eq, ?_, ?_, ?_, ?_, ?_, ?_, ?_⟩
  · rw [Pool.shared_put, hcommitted]
    omega
  · rw [Pool.shared_put, hcommitted, hreserved]
    exact hlt
  · rw [Pool.shared_put, hreserved]
    exact h.reserved_le
  · intro u x i hu hi
    rw [Pool.shared_put, hcommitted, hreserved]
    rcases hset.mp hu with ⟨-, rfl⟩ | ⟨hut, hu'⟩
    · rw [hd] at hi
      cases hi
    · have hbetween := h.between hu' hi
      have hne : i ≠ p.shared.committed := by
        rintro rfl
        exact hut (h.unique hu' ht hi hc)
      omega
  · intro u v x y i hu hv hx hy
    rcases hset.mp hu with ⟨-, rfl⟩ | ⟨-, hu'⟩
    · rw [hd] at hx
      cases hx
    · rcases hset.mp hv with ⟨-, rfl⟩ | ⟨-, hv'⟩
      · rw [hd] at hy
        cases hy
      · exact h.unique hu' hv' hx hy
  · intro i hi hlt
    rw [Pool.shared_put, hcommitted] at hi
    rw [Pool.shared_put, hreserved] at hlt
    refine (h.owned (by omega) hlt).imp (Pool.exists_getElem?_put ht ?_) hlost
    intro hx
    obtain rfl : p.shared.committed = i := Option.some.inj (hc.symm.trans hx)
    omega
  · intro u x hu
    rw [Pool.shared_put, hcommitted]
    rcases hset.mp hu with ⟨-, rfl⟩ | ⟨hut, hu'⟩
    · exact hsees
    · have hx := h.sees hu'
      cases htask : x.task with
      | commit i =>
        rw [htask] at hx
        obtain rfl : p.shared.committed = i := hx
        exact absurd (h.unique hu' ht (by rw [htask]; rfl) hc) hut
      | reserveSwap v seen =>
        rw [htask] at hx
        exact hx
      | _ => trivial

/-- What a step does to the counters keeps them fitting. -/
theorem Counted.put (h : Counted len allowed p) (ht : p.threads[t]? = some c)
    (hmax : s.maxCapacity = p.shared.maxCapacity)
    (hlost : ∀ {i : Nat}, p.shared.Lost i → s.Lost i)
    (hcounting : Counting p.shared c.task (s.reserved, s.committed) d.task) :
    Counted len allowed (p.put t s d) := by
  have hsees := h.sees ht
  have hallowed := h.max_eq
  rcases c with ⟨place, task⟩
  rcases d with ⟨place', task'⟩
  generalize hreserved : s.reserved = reserved, hcommitted : s.committed = committed at hcounting
  cases hcounting with
  | same howns hnext =>
    refine h.stay ht hmax hreserved hcommitted hlost ?_ ?_ (hallowed ▸ hnext)
    · exact fun hi => howns.symm.trans hi
    · exact fun hi => .inl (howns.trans hi)
  | take htask =>
    obtain rfl : task = .reserveSwap _ _ := htask
    exact h.take ht hmax hreserved hcommitted hlost hsees rfl rfl trivial
  | give htask =>
    obtain rfl : task = .commit _ := htask
    have hturn : p.shared.committed = _ := hsees
    refine h.give ht hmax hreserved (hturn ▸ hcommitted) hlost ?_ rfl trivial
    rw [hturn]
    rfl
  | lose htask hgone =>
    obtain rfl : task = .growPointer (.fit _ _) := htask
    refine h.stay ht hmax hreserved hcommitted hlost (fun hi => ?_) (fun hi => ?_) trivial
    · cases hi
    · cases hi
      exact .inr (hlost hgone)

end

/-- All that is kept in every run: the gate, the stores and the counters. -/
structure Kept {G : Gate} {α : Type} (Fits : G.Word → List G.Place → Prop)
    (Toward : Mode → G.Place → Prop) (len allowed : Nat)
    (p : Pool (Shared G α) (Client G α)) : Prop where
  orderly : Orderly Fits Toward p
  informed : Informed p
  counted : Counted len allowed p

section

variable {G : Gate} {α : Type} {Fits : G.Word → List G.Place → Prop}
  {Toward : Mode → G.Place → Prop} {len allowed : Nat} {p : Pool (Shared G α) (Client G α)}
  {t : Nat} {c : Client G α}

theorem kept_idle (hG : G.Excludes Fits Toward) {store : Store α} {config : Config}
    (hlen : len ≤ config.maxCapacity) (threads : Nat) (limits : Limits) :
    Kept Fits Toward len config.maxCapacity (idle G store len config threads limits) :=
  ⟨orderly_idle hG store len config threads limits, informed_idle store len config threads limits,
    counted_idle hlen threads limits⟩

variable [Inhabited α]

theorem Kept.counting (h : Kept Fits Toward len allowed p) (ht : p.threads[t]? = some c)
    (luck : Bool) :
    Counting p.shared c.task ((step luck p.shared c).1.reserved, (step luck p.shared c).1.committed)
      (step luck p.shared c).2.task := by
  have hmax := h.counted.max_eq
  apply Gated.counting luck p.shared c (h.informed.knows ht) (hmax ▸ h.counted.sees ht)
  intro i hi
  have := (h.counted.between ht hi).2
  have := h.counted.reserved_le
  omega

theorem Kept.storing (h : Kept Fits Toward len allowed p) (ht : p.threads[t]? = some c)
    (luck : Bool) :
    Storing p.shared.stores p.shared.limits p.shared.maxCapacity c.task
        (step luck p.shared c).1.stores ∧
      (step luck p.shared c).1.maxCapacity = p.shared.maxCapacity :=
  have hstoring := Gated.storing luck p.shared c h.informed.live (h.informed.knows ht)
  ⟨hstoring.1, hstoring.2.1⟩

theorem Kept.put (h : Kept Fits Toward len allowed p) (ht : p.threads[t]? = some c) (luck : Bool) :
    Counted len allowed (p.put t (step luck p.shared c).1 (step luck p.shared c).2) := by
  obtain ⟨hstoring, hmax⟩ := h.storing ht luck
  exact h.counted.put ht hmax (hstoring.lost h.informed.live (limits_step luck p.shared c) hmax)
    (h.counting ht luck)

theorem Kept.act (hG : G.Excludes Fits Toward) (h : Kept Fits Toward len allowed p)
    (turn : Turn (Call α)) : Kept Fits Toward len allowed ((machine G α).act p turn) := by
  refine ⟨h.orderly.act hG turn, h.informed.act hG h.orderly turn, ?_⟩
  refine Machine.act_keeps h.counted ?_ ?_ turn
  · intro t c call ht hrest
    rcases c with ⟨place, task⟩
    cases task with
    | rest last? =>
      have hcall : (Task.ofCall (G := G) call).owns? = none ∧
          (Task.ofCall (G := G) call).Sees p.shared.committed allowed := by
        cases call with
        | read i =>
          simp only [Task.ofCall]
          split <;> exact ⟨rfl, trivial⟩
        | _ => exact ⟨rfl, trivial⟩
      refine h.counted.stay ht rfl rfl rfl id (fun hi => ?_) (fun hi => ?_) hcall.2
      · have hnone := hcall.1.symm.trans hi
        cases hnone
      · cases hi
    | _ => cases hrest
  · intro t c luck ht _
    exact h.put ht luck

theorem kept_run (hG : G.Excludes Fits Toward) {store : Store α} {config : Config}
    (hlen : len ≤ config.maxCapacity) (threads : Nat) (limits : Limits)
    (turns : List (Turn (Call α))) :
    Kept Fits Toward len config.maxCapacity
      ((machine G α).run (idle G store len config threads limits) turns) :=
  Machine.Reaches.invariant (fun _ turn h => h.act hG turn) ⟨turns, rfl⟩
    (kept_idle hG hlen threads limits)

end

end Growable.SharedArray.Gated
