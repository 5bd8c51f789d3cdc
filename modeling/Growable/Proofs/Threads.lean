import Growable.Machine

/-!
# One thread after the other

A turn changes the shared state and at most one thread, so whatever is said of all threads at once
is kept by looking at the one that moved and at the others in turn. `Machine.Moves` lists what a turn
can do, and `Machine.history` is what is seen of a run from outside: the calls that were handed out
and the answers that were given, in their order.
-/

namespace Growable

/-! ## Lists with one member exchanged -/

section

variable {τ : Type} {l : List τ} {i j : Nat} {a b c : τ}

theorem getElem?_set_iff (h : l[i]? = some a) :
    (l.set i b)[j]? = some c ↔ (j = i ∧ c = b) ∨ (j ≠ i ∧ l[j]? = some c) := by
  obtain ⟨hlt, -⟩ := List.getElem?_eq_some_iff.mp h
  by_cases hij : j = i
  · subst hij
    rw [List.getElem?_set_self hlt]
    simp [eq_comm]
  · rw [List.getElem?_set_ne (Ne.symm hij)]
    simp [hij]

/-- Some member still is as one was before, if the exchanged one passes it on. -/
theorem exists_getElem?_set {P : τ → Prop} (h : l[i]? = some a) (hab : P a → P b)
    (hbefore : ∃ (j : Nat) (c : τ), l[j]? = some c ∧ P c) :
    ∃ (j : Nat) (c : τ), (l.set i b)[j]? = some c ∧ P c := by
  obtain ⟨j, c, hj, hc⟩ := hbefore
  by_cases hij : j = i
  · subst hij
    obtain rfl : a = c := Option.some.inj (h.symm.trans hj)
    exact ⟨j, b, (getElem?_set_iff h).mpr (.inl ⟨rfl, rfl⟩), hab hc⟩
  · exact ⟨j, c, (getElem?_set_iff h).mpr (.inr ⟨hij, hj⟩), hc⟩

theorem set_of_getElem? (h : l[i]? = some a) : l.set i a = l := by
  obtain ⟨hlt, rfl⟩ := List.getElem?_eq_some_iff.mp h
  exact List.set_getElem_self hlt

theorem countP_set_add (f : τ → Bool) (h : l[i]? = some a) :
    (l.set i b).countP f + (if f a then 1 else 0) = l.countP f + (if f b then 1 else 0) := by
  obtain ⟨hlt, rfl⟩ := List.getElem?_eq_some_iff.mp h
  have hpos : (if f l[i] then 1 else 0) ≤ l.countP f := List.boole_getElem_le_countP hlt
  rw [List.countP_set hlt]
  omega

theorem getElem?_concat_iff {l : List τ} {n : Nat} :
    (l ++ [a])[n]? = some b ↔ l[n]? = some b ∨ (n = l.length ∧ b = a) := by
  rcases Nat.lt_trichotomy n l.length with hlt | rfl | hgt
  · rw [List.getElem?_append_left hlt]
    constructor
    · exact .inl
    · rintro (h | ⟨rfl, -⟩)
      · exact h
      · omega
  · simp [eq_comm]
  · have hnone : l[n]? = none := List.getElem?_eq_none (by omega)
    have hnone' : (l ++ [a])[n]? = none := List.getElem?_eq_none (by simp; omega)
    rw [hnone, hnone']
    constructor
    · intro h
      cases h
    · rintro (h | ⟨rfl, -⟩)
      · cases h
      · omega

theorem take_concat_of_getElem? {l : List τ} {n : Nat} (h : l[n]? = some b) :
    (l ++ [a]).take n = l.take n := by
  obtain ⟨hlt, -⟩ := List.getElem?_eq_some_iff.mp h
  exact List.take_append_of_le_length (by omega)

theorem countP_pos_of_getElem? {f : τ → Bool} (h : l[i]? = some a) (hf : f a = true) :
    0 < l.countP f :=
  List.countP_pos_iff.mpr ⟨a, List.mem_of_getElem? h, hf⟩

/-- Where at most one member is counted, two that are counted are the same. -/
theorem eq_of_countP_le_one {f : τ → Bool} (hone : l.countP f ≤ 1) (hi : l[i]? = some a)
    (hj : l[j]? = some b) (ha : f a = true) (hb : f b = true) : i = j := by
  induction l generalizing i j with
  | nil => cases hi
  | cons x l ih =>
    rw [List.countP_cons] at hone
    cases i with
    | zero =>
      cases j with
      | zero => rfl
      | succ j =>
        have hpos : 0 < l.countP f := countP_pos_of_getElem? hj hb
        obtain rfl : x = a := Option.some.inj hi
        rw [if_pos ha] at hone
        omega
    | succ i =>
      have hpos : 0 < l.countP f := countP_pos_of_getElem? hi ha
      cases j with
      | zero =>
        obtain rfl : x = b := Option.some.inj hj
        rw [if_pos hb] at hone
        omega
      | succ j => exact congrArg (· + 1) (ih (by omega) hi hj)

end

/-! ## Turns -/

namespace Pool

variable {σ τ : Type}

/-- The pool once thread `i` has moved. -/
def put (p : Pool σ τ) (i : Nat) (s : σ) (t : τ) : Pool σ τ :=
  ⟨s, p.threads.setIfInBounds i t⟩

@[simp] theorem shared_put (p : Pool σ τ) (i : Nat) (s : σ) (t : τ) : (p.put i s t).shared = s := rfl

theorem toList_put (p : Pool σ τ) (i : Nat) (s : σ) (t : τ) :
    (p.put i s t).threads.toList = p.threads.toList.set i t := by
  simp [put]

theorem getElem?_put_iff {p : Pool σ τ} {i j : Nat} {s : σ} {t t' u : τ}
    (h : p.threads[i]? = some t) :
    (p.put i s t').threads[j]? = some u ↔ (j = i ∧ u = t') ∨ (j ≠ i ∧ p.threads[j]? = some u) := by
  rw [← Array.getElem?_toList] at h
  rw [← Array.getElem?_toList, ← Array.getElem?_toList, toList_put]
  exact getElem?_set_iff h

theorem countP_put {p : Pool σ τ} {i : Nat} {t u : τ} (f : τ → Bool) (s : σ)
    (h : p.threads[i]? = some t) :
    (p.put i s u).threads.toList.countP f + (if f t then 1 else 0) =
      p.threads.toList.countP f + (if f u then 1 else 0) := by
  rw [toList_put]
  apply countP_set_add f
  rw [Array.getElem?_toList]
  exact h

theorem exists_getElem?_of_mem {p : Pool σ τ} {t : τ} (h : t ∈ p.threads.toList) :
    ∃ i : Nat, p.threads[i]? = some t := by
  obtain ⟨i, hi⟩ := List.mem_iff_getElem?.mp h
  exact ⟨i, Array.getElem?_toList ▸ hi⟩

theorem countP_pos_iff {p : Pool σ τ} {f : τ → Bool} :
    0 < p.threads.toList.countP f ↔ ∃ (i : Nat) (t : τ), p.threads[i]? = some t ∧ f t = true := by
  rw [List.countP_pos_iff]
  constructor
  · rintro ⟨t, hmem, hf⟩
    obtain ⟨i, hi⟩ := exists_getElem?_of_mem hmem
    exact ⟨i, t, hi, hf⟩
  · rintro ⟨i, t, hi, hf⟩
    rw [← Array.getElem?_toList] at hi
    exact ⟨t, List.mem_of_getElem? hi, hf⟩

theorem countP_eq_zero {p : Pool σ τ} {f : τ → Bool}
    (h : ∀ {i : Nat} {t : τ}, p.threads[i]? = some t → f t = false) :
    p.threads.toList.countP f = 0 := by
  rw [List.countP_eq_zero]
  intro t hmem
  obtain ⟨i, hi⟩ := exists_getElem?_of_mem hmem
  rw [h hi]
  exact Bool.false_ne_true

/-- Where at most one thread is counted, two that are counted are the same. -/
theorem eq_of_countP_le_one {p : Pool σ τ} {f : τ → Bool} {i j : Nat} {t u : τ}
    (hone : p.threads.toList.countP f ≤ 1) (hi : p.threads[i]? = some t)
    (hj : p.threads[j]? = some u) (ht : f t = true) (hu : f u = true) : i = j := by
  rw [← Array.getElem?_toList] at hi hj
  exact Growable.eq_of_countP_le_one hone hi hj ht hu

theorem exists_getElem?_put {p : Pool σ τ} {i : Nat} {s : σ} {t t' : τ} {P : τ → Prop}
    (h : p.threads[i]? = some t) (hpass : P t → P t')
    (hbefore : ∃ (j : Nat) (u : τ), p.threads[j]? = some u ∧ P u) :
    ∃ (j : Nat) (u : τ), (p.put i s t').threads[j]? = some u ∧ P u := by
  simp only [← Array.getElem?_toList, toList_put] at h hbefore ⊢
  exact exists_getElem?_set h hpass hbefore

end Pool

namespace Machine

variable {σ τ κ ρ : Type} {m : Machine σ τ κ ρ}

theorem act_call {p : Pool σ τ} {i : Nat} {c : κ} {t : τ} (h : p.threads[i]? = some t)
    (hrest : m.rests t = true) : m.act p (.call i c) = p.put i p.shared (m.start c t) := by
  obtain ⟨hlt, ht⟩ := Array.getElem?_eq_some_iff.mp h
  have hmodify : (p.threads.modify i fun t => if m.rests t then m.start c t else t) =
      p.threads.setIfInBounds i (m.start c t) := by
    apply Array.ext_getElem?
    intro j
    rw [Array.getElem?_modify, Array.getElem?_setIfInBounds]
    by_cases hij : i = j
    · subst hij
      simp [ht, hrest, hlt]
    · simp [hij]
  rw [act, hmodify, Pool.put]

theorem act_call_of_busy {p : Pool σ τ} {i : Nat} {c : κ}
    (h : ∀ t, p.threads[i]? = some t → m.rests t = false) : m.act p (.call i c) = p := by
  have hmodify : (p.threads.modify i fun t => if m.rests t then m.start c t else t) =
      p.threads := by
    apply Array.ext_getElem?
    intro j
    rw [Array.getElem?_modify]
    split
    · rename_i hij
      subst hij
      cases ht : p.threads[i]? with
      | none => rfl
      | some t => simp [h t ht]
    · rfl
  rw [act, hmodify]

theorem act_step {p : Pool σ τ} {i : Nat} {luck : Bool} {t : τ} (h : p.threads[i]? = some t)
    (hrest : m.rests t = false) :
    m.act p (.step i luck) =
      p.put i (m.step i luck p.shared t).1 (m.step i luck p.shared t).2 := by
  obtain ⟨hlt, rfl⟩ := Array.getElem?_eq_some_iff.mp h
  simp only [act, dif_pos hlt, hrest, Pool.put, Array.setIfInBounds]
  rfl

theorem act_step_of_rest {p : Pool σ τ} {i : Nat} {luck : Bool}
    (h : ∀ t, p.threads[i]? = some t → m.rests t = true) : m.act p (.step i luck) = p := by
  rw [act]
  split
  · rename_i hlt
    rw [if_pos (h _ (Array.getElem?_eq_getElem hlt))]
  · rfl

/-! ## Histories -/

/-- What is seen of a run from outside. -/
inductive Event (κ ρ : Type) where
  /-- A thread was handed a call. -/
  | called (thread : Nat) (c : κ)
  /-- A thread was answered. -/
  | answered (thread : Nat) (r : ρ)
  deriving DecidableEq, Repr

/-- What is seen of one turn. -/
def event? (m : Machine σ τ κ ρ) (p : Pool σ τ) : Turn κ → Option (Event κ ρ)
  | .call i c =>
    p.threads[i]?.bind fun t =>
      if m.rests t && !m.rests (m.start c t) then some (.called i c) else none
  | .step i luck =>
    p.threads[i]?.bind fun t =>
      let next := (m.step i luck p.shared t).2
      if !m.rests t && m.rests next then (m.reply? next).map (.answered i) else none

/-- What a turn can do to a pool, and what is seen of it: nothing, if no call is under way at the
thread that is to step, or a call is handed to a thread at rest, or a thread under way takes a
step. -/
inductive Moves (m : Machine σ τ κ ρ) (p : Pool σ τ) :
    Turn κ → Option (Event κ ρ) → Pool σ τ → Prop
  | idle {turn : Turn κ} : (∀ {i : Nat} {luck : Bool} {t : τ}, turn = .step i luck →
      p.threads[i]? = some t → m.rests t = true) → Moves m p turn none p
  | call {i : Nat} {c : κ} {t : τ} : p.threads[i]? = some t → m.rests t = true →
      Moves m p (.call i c) (if m.rests (m.start c t) then none else some (.called i c))
        (p.put i p.shared (m.start c t))
  | step {i : Nat} {luck : Bool} {t : τ} : p.threads[i]? = some t → m.rests t = false →
      Moves m p (.step i luck)
        (if m.rests (m.step i luck p.shared t).2 then
          (m.reply? (m.step i luck p.shared t).2).map (.answered i) else none)
        (p.put i (m.step i luck p.shared t).1 (m.step i luck p.shared t).2)

theorem moves_act (m : Machine σ τ κ ρ) (p : Pool σ τ) (turn : Turn κ) :
    m.Moves p turn (m.event? p turn) (m.act p turn) := by
  cases turn with
  | call i c =>
    cases ht : p.threads[i]? with
    | none =>
      rw [act_call_of_busy (by simp [ht]), show m.event? p (.call i c) = none by simp [event?, ht]]
      refine .idle ?_
      rintro _ _ _ ⟨⟩
    | some t =>
      by_cases hrest : m.rests t = true
      · have hmove := Moves.call (c := c) ht hrest
        rw [act_call ht hrest]
        cases hstart : m.rests (m.start c t) with
        | true => simpa [event?, ht, hrest, hstart] using hmove
        | false => simpa [event?, ht, hrest, hstart] using hmove
      · rw [act_call_of_busy (by simpa [ht] using hrest),
          show m.event? p (.call i c) = none by simp [event?, ht, hrest]]
        refine .idle ?_
        rintro _ _ _ ⟨⟩
  | step i luck =>
    cases ht : p.threads[i]? with
    | none =>
      rw [act_step_of_rest (by simp [ht]), show m.event? p (.step i luck) = none by simp [event?, ht]]
      refine .idle ?_
      rintro _ _ t ⟨⟩ hnone
      cases ht.symm.trans hnone
    | some t =>
      by_cases hrest : m.rests t = true
      · rw [act_step_of_rest (by simpa [ht] using hrest),
          show m.event? p (.step i luck) = none by simp [event?, ht, hrest]]
        refine .idle ?_
        rintro _ _ u ⟨⟩ hu
        obtain rfl := Option.some.inj (ht.symm.trans hu)
        exact hrest
      · have hrest : m.rests t = false := by simpa using hrest
        rw [act_step ht hrest]
        simpa [event?, ht, hrest] using Moves.step ht hrest

/-- What holds of a pool holds after a turn if it holds after a call and after a step. -/
theorem act_keeps {P : Pool σ τ → Prop} {p : Pool σ τ} (h : P p)
    (hcall : ∀ {i : Nat} {t : τ} (c : κ), p.threads[i]? = some t → m.rests t = true →
      P (p.put i p.shared (m.start c t)))
    (hstep : ∀ {i : Nat} {t : τ} (luck : Bool), p.threads[i]? = some t → m.rests t = false →
      P (p.put i (m.step i luck p.shared t).1 (m.step i luck p.shared t).2))
    (turn : Turn κ) : P (m.act p turn) := by
  have hmoves := moves_act m p turn
  generalize m.event? p turn = e, m.act p turn = p' at hmoves
  cases hmoves with
  | idle => exact h
  | call ht hrest => exact hcall _ ht hrest
  | step ht hrest => exact hstep _ ht hrest

/-- What is seen of a run, the earliest first. -/
def history (m : Machine σ τ κ ρ) (p : Pool σ τ) : List (Turn κ) → List (Event κ ρ)
  | [] => []
  | turn :: turns => (m.event? p turn).toList ++ m.history (m.act p turn) turns

/-- What every turn of a certain sort keeps of the past and the present, every run of such turns
keeps. -/
theorem run_history_invariant (Inv : List (Event κ ρ) → Pool σ τ → Prop) (Fair : Turn κ → Prop)
    (keep : ∀ es p turn, Fair turn → Inv es p →
      Inv (es ++ (m.event? p turn).toList) (m.act p turn))
    {es : List (Event κ ρ)} {p : Pool σ τ} (h : Inv es p) {turns : List (Turn κ)}
    (hturns : ∀ turn ∈ turns, Fair turn) : Inv (es ++ m.history p turns) (m.run p turns) := by
  induction turns generalizing es p with
  | nil =>
    rw [history, List.append_nil]
    exact h
  | cons turn turns ih =>
    rw [history, ← List.append_assoc]
    apply ih (keep es p turn (hturns turn List.mem_cons_self) h)
    intro turn' hmem
    exact hturns turn' (List.mem_cons_of_mem turn hmem)

/-- The call that a thread was handed last. -/
def lastCall? (es : List (Event κ ρ)) (i : Nat) : Option κ :=
  es.reverse.findSome? fun
    | .called j c => if j = i then some c else none
    | .answered .. => none

theorem lastCall?_called (es : List (Event κ ρ)) (i j : Nat) (c : κ) :
    lastCall? (es ++ [.called j c]) i = if j = i then some c else lastCall? es i := by
  rw [lastCall?, List.reverse_append]
  by_cases hij : j = i
  · simp [hij]
  · simp [hij, lastCall?]

theorem lastCall?_answered (es : List (Event κ ρ)) (i j : Nat) (r : ρ) :
    lastCall? (es ++ [.answered j r]) i = lastCall? es i := by
  rw [lastCall?, List.reverse_append]
  rfl

end Machine

end Growable
