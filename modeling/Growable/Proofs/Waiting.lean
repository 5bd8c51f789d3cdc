import Growable.Proofs.Runs

/-!
# Threads that wait

A thread that waits takes steps and gets nowhere: whatever it does by itself, the shared state stays
as it is and its call stays under way. Threads that all wait do so for ever, since none of them ever
sees anything new. So where some steps bring every call to its end, one thread under way at least
does more than wait.

Such steps are found one thread at a time. Each thread has a rank, and as long as a call is under way
some thread gets to a lower rank in steps of its own.

Where a thread that is ready stays so until it has its turn, no such steps need be found: any will do
if only each thread has its turn again and again, and the number of these rounds is bounded.
-/

namespace Growable

/-- The turn is a step, and no call is handed out. -/
def Turn.isStep {κ : Type} : Turn κ → Bool
  | .step .. => true
  | .call .. => false

namespace Machine

variable {σ τ κ ρ : Type} {m : Machine σ τ κ ρ} {p : Pool σ τ} {i : Nat} {turns : List (Turn κ)}

/-! ## Waiting -/

/-- Whatever steps thread `i` takes by itself, its call stays under way and the shared state stays as
it is. -/
def Waits (m : Machine σ τ κ ρ) (p : Pool σ τ) (i : Nat) : Prop :=
  ∀ lucks : List Bool, m.Busy (m.run p (lucks.map (.step i))) i ∧
    (m.run p (lucks.map (.step i))).shared = p.shared

/-- Every step taken from `p` to `q` could have been taken by its thread alone. -/
structure Still (m : Machine σ τ κ ρ) (p q : Pool σ τ) : Prop where
  shared : q.shared = p.shared
  busy : ∀ {i : Nat}, m.Busy q i ↔ m.Busy p i
  alone : ∀ {i : Nat}, m.Busy p i →
    ∃ lucks : List Bool, q.threads[i]? = (m.run p (lucks.map (.step i))).threads[i]?

theorem Still.act (hwaits : ∀ {i : Nat}, m.Busy p i → m.Waits p i) {q : Pool σ τ}
    (h : m.Still p q) {turn : Turn κ} (hstep : turn.isStep = true) : m.Still p (m.act q turn) := by
  have hacts := m.acts q turn
  generalize m.act q turn = q' at hacts
  cases hacts with
  | idle => exact h
  | call => cases hstep
  | @step j luck u hu hrest =>
    have hbusy : m.Busy p j := h.busy.mp ⟨u, hu, hrest⟩
    obtain ⟨lucks, hsame⟩ := h.alone hbusy
    -- the thread sees what it would see by itself, so it does what it would do by itself
    have hlone : m.run p ((lucks ++ [luck]).map (.step j)) =
        (m.run p (lucks.map (.step j))).put j (m.step j luck q.shared u).1
          (m.step j luck q.shared u).2 := by
      rw [List.map_append, List.map_singleton, run_concat, act_step (hsame ▸ hu) hrest,
        (hwaits hbusy lucks).2, h.shared]
    obtain ⟨⟨t, ht, hunder⟩, hshared⟩ := hwaits hbusy (lucks ++ [luck])
    rw [hlone] at ht hshared
    obtain rfl : t = (m.step j luck q.shared u).2 := by
      rcases (Pool.getElem?_put_iff (hsame ▸ hu)).mp ht with ⟨-, rfl⟩ | ⟨hne, -⟩
      · rfl
      · exact absurd rfl hne
    have hput : (q.put j (m.step j luck q.shared u).1 (m.step j luck q.shared u).2).threads[j]? =
        some (m.step j luck q.shared u).2 := (Pool.getElem?_put_iff hu).mpr (.inl ⟨rfl, rfl⟩)
    refine ⟨hshared, ?_, ?_⟩
    · intro i
      constructor
      · rintro ⟨t, hi, hunder'⟩
        rcases (Pool.getElem?_put_iff hu).mp hi with ⟨rfl, -⟩ | ⟨-, hi'⟩
        · exact hbusy
        · exact h.busy.mp ⟨t, hi', hunder'⟩
      · intro hi
        by_cases hij : i = j
        · subst hij
          exact ⟨_, hput, hunder⟩
        · obtain ⟨t, hi', hunder'⟩ := h.busy.mpr hi
          exact ⟨t, (Pool.getElem?_put_iff hu).mpr (.inr ⟨hij, hi'⟩), hunder'⟩
    · intro i hi
      by_cases hij : i = j
      · subst hij
        refine ⟨lucks ++ [luck], ?_⟩
        rw [hlone, ht]
        exact hput
      · obtain ⟨lucks', hsame'⟩ := h.alone hi
        obtain ⟨t, hi', -⟩ := h.busy.mpr hi
        refine ⟨lucks', ?_⟩
        rw [← hsame', hi']
        exact (Pool.getElem?_put_iff hu).mpr (.inr ⟨hij, hi'⟩)

/-- While all threads under way wait, no steps change that. -/
theorem still_of_waits (hwaits : ∀ {i : Nat}, m.Busy p i → m.Waits p i)
    (hsteps : ∀ turn ∈ turns, turn.isStep = true) : m.Still p (m.run p turns) := by
  induction turns using List.reverseRecOn with
  | nil => exact ⟨rfl, Iff.rfl, fun _ => ⟨[], rfl⟩⟩
  | append_singleton turns turn ih =>
    rw [run_concat]
    have hbefore : ∀ turn ∈ turns, turn.isStep = true :=
      fun turn hmem => hsteps turn (List.mem_append_left _ hmem)
    exact (ih hbefore).act hwaits (hsteps turn (List.mem_append_right _ List.mem_cons_self))

/-- If steps bring every call to its end, not every thread under way waits. -/
theorem exists_not_waits (hbusy : m.Busy p i) (hsteps : ∀ turn ∈ turns, turn.isStep = true)
    (hrest : ∀ {j : Nat} {t : τ}, (m.run p turns).threads[j]? = some t → m.rests t = true) :
    ∃ j, m.Busy p j ∧ ¬ m.Waits p j := by
  by_contra hnone
  have hwaits : ∀ {j : Nat}, m.Busy p j → m.Waits p j := by
    intro j hj
    by_contra hnot
    exact hnone ⟨j, hj, hnot⟩
  obtain ⟨t, ht, hunder⟩ := (still_of_waits hwaits hsteps).busy.mpr hbusy
  rw [hrest ht] at hunder
  cases hunder

/-! ## Steps without calls -/

/-- All that is seen of a step is an answer. -/
theorem event?_of_isStep (p : Pool σ τ) {turn : Turn κ} (h : turn.isStep = true) :
    m.event? p turn = none ∨ ∃ i r, m.event? p turn = some (.answered i r) := by
  cases turn with
  | call => cases h
  | step i luck =>
    cases hevent : m.event? p (.step i luck) with
    | none => exact .inl rfl
    | some e =>
      obtain ⟨t, -, hseen⟩ := Option.bind_eq_some_iff.mp hevent
      obtain ⟨-, hreply⟩ := Option.ite_none_right_eq_some.mp hseen
      obtain ⟨r, -, rfl⟩ := Option.map_eq_some_iff.mp hreply
      exact .inr ⟨i, r, rfl⟩

theorem calls_of_isStep (p : Pool σ τ) {turn : Turn κ} (h : turn.isStep = true)
    (es : List (Event κ ρ)) : calls (es ++ (m.event? p turn).toList) = calls es := by
  rcases event?_of_isStep (m := m) p h with hnone | ⟨i, r, hanswered⟩
  · rw [hnone, Option.toList_none, List.append_nil]
  · rw [hanswered, Option.toList_some, calls_answered]

/-- A thread that stays at something gets it done if every step leaves less to do. -/
theorem goes_of_weight {me : Nat} (Stay Done : σ × τ → Prop) (weight : σ × τ → Nat)
    (hstep : ∀ a, Stay a → m.rests a.2 = false ∧ (Done (m.step me true a.1 a.2) ∨
      Stay (m.step me true a.1 a.2) ∧ weight (m.step me true a.1 a.2) < weight a))
    {a : σ × τ} (ha : Stay a) : ∃ n b, m.Goes me n a b ∧ Done b := by
  induction hn : weight a using Nat.strongRecOn generalizing a with
  | ind n ih =>
    subst hn
    obtain ⟨hrest, hdone | ⟨hstay, hless⟩⟩ := hstep a ha
    · exact ⟨1, _, .one hrest rfl, hdone⟩
    · obtain ⟨n, b, hgoes, hdone⟩ := ih _ hless hstay rfl
      exact ⟨n + 1, b, .step hrest hgoes, hdone⟩

/-- The ranks of all threads together. -/
def total (rank : τ → Nat) (p : Pool σ τ) : Nat :=
  p.threads.toList.foldr (fun t n => rank t + n) 0

theorem total_put (rank : τ → Nat) {t u : τ} (s : σ) (h : p.threads[i]? = some t) :
    total rank (p.put i s u) + rank t = total rank p + rank u := by
  rw [← Array.getElem?_toList] at h
  rw [total, total, Pool.toList_put]
  generalize p.threads.toList = l at h
  induction l generalizing i with
  | nil => cases h
  | cons x l ih =>
    cases i with
    | zero =>
      obtain rfl : x = t := Option.some.inj h
      simp only [List.set_cons_zero, List.foldr_cons]
      omega
    | succ i =>
      have htail := ih h
      simp only [List.set_cons_succ, List.foldr_cons]
      omega

/-- If some thread gets to a lower rank by itself whenever a call is under way, steps alone bring
every call to its end. -/
theorem rests_of_falls (Inv : Pool σ τ → Prop) (rank : τ → Nat)
    (hkeep : ∀ {p : Pool σ τ} (turn : Turn κ), Inv p → Inv (m.act p turn))
    (hfall : ∀ {p : Pool σ τ} {i : Nat}, Inv p → m.Busy p i → ∃ (j n : Nat) (t : τ) (b : σ × τ),
      p.threads[j]? = some t ∧ m.Goes j n (p.shared, t) b ∧ rank b.2 < rank t)
    (hp : Inv p) : ∃ turns : List (Turn κ), (∀ turn ∈ turns, turn.isStep = true) ∧
      ∀ {j : Nat} {t : τ}, (m.run p turns).threads[j]? = some t → m.rests t = true := by
  induction hn : total rank p using Nat.strongRecOn generalizing p with
  | ind n ih =>
    subst hn
    by_cases hbusy : ∃ i, m.Busy p i
    · obtain ⟨i, hi⟩ := hbusy
      obtain ⟨j, n, t, b, ht, hgoes, hfalls⟩ := hfall hp hi
      obtain ⟨k, hrun⟩ := run_put_of_goes hgoes rfl ht
      have hless : total rank (p.put j b.1 b.2) < total rank p := by
        have := total_put rank (u := b.2) b.1 ht
        omega
      have hinv : Inv (p.put j b.1 b.2) :=
        hrun ▸ Reaches.invariant (fun _ turn h => hkeep turn h) ⟨_, rfl⟩ hp
      obtain ⟨turns, hsteps, hrest⟩ := ih _ hless hinv rfl
      refine ⟨.replicate k (.step j true) ++ turns, ?_, ?_⟩
      · intro turn hmem
        rcases List.mem_append.mp hmem with hfirst | hlater
        · rw [List.eq_of_mem_replicate hfirst]
          rfl
        · exact hsteps turn hlater
      · rw [run_append, hrun]
        exact hrest
    · refine ⟨[], fun _ hmem => absurd hmem List.not_mem_nil, ?_⟩
      intro j t ht
      by_contra hnot
      exact hbusy ⟨j, t, ht, by simpa using hnot⟩

/-! ## Rounds -/

/-- In a round each of `n` threads has a turn at least, in any order, and no call is handed out. -/
structure Round (n : Nat) (turns : List (Turn κ)) : Prop where
  steps : ∀ turn ∈ turns, turn.isStep = true
  each : ∀ i < n, ∃ luck, .step i luck ∈ turns

/-- Steps leave less and less to do: while a call is under way, one of `n` threads is ready, and it
leaves less by its step; any other step leaves less as well, or it leaves the ready threads ready. -/
structure Descends (m : Machine σ τ κ ρ) (n : Nat) (Inv : Pool σ τ → Prop)
    (Ready : Pool σ τ → Nat → Prop) (left : Pool σ τ → Nat) : Prop where
  keep : ∀ {p : Pool σ τ} {turn : Turn κ}, turn.isStep = true → Inv p → Inv (m.act p turn)
  ready : ∀ {p : Pool σ τ} {i : Nat}, Inv p → m.Busy p i → ∃ j < n, Ready p j
  falls : ∀ {p : Pool σ τ} {j : Nat} (luck : Bool), Inv p → Ready p j →
    left (m.act p (.step j luck)) < left p
  still : ∀ {p : Pool σ τ} {turn : Turn κ}, turn.isStep = true → Inv p →
    left (m.act p turn) < left p ∨
      left (m.act p turn) = left p ∧ ∀ j, Ready p j → Ready (m.act p turn) j

theorem run_of_rests (hrest : ∀ i, ¬ m.Busy p i) (hsteps : ∀ turn ∈ turns, turn.isStep = true) :
    m.run p turns = p := by
  induction turns with
  | nil => rfl
  | cons turn turns ih =>
    have hsame : m.act p turn = p := by
      cases turn with
      | call => exact absurd (hsteps _ List.mem_cons_self) Bool.false_ne_true
      | step i luck =>
        refine act_step_of_rest ?_
        intro t ht
        by_contra hnot
        exact hrest i ⟨t, ht, by simpa using hnot⟩
    rw [run, List.foldl_cons, ← run, hsame]
    exact ih fun turn hmem => hsteps turn (List.mem_cons_of_mem _ hmem)

namespace Descends

variable {n : Nat} {Inv : Pool σ τ → Prop} {Ready : Pool σ τ → Nat → Prop} {left : Pool σ τ → Nat}

theorem le_run (h : m.Descends n Inv Ready left) (hp : Inv p)
    (hsteps : ∀ turn ∈ turns, turn.isStep = true) :
    left (m.run p turns) ≤ left p ∧ Inv (m.run p turns) := by
  induction turns generalizing p with
  | nil => exact ⟨Nat.le_refl _, hp⟩
  | cons turn turns ih =>
    have hstep := hsteps turn List.mem_cons_self
    obtain ⟨hle, hinv⟩ := ih (h.keep hstep hp)
      fun turn hmem => hsteps turn (List.mem_cons_of_mem _ hmem)
    have hfirst : left (m.act p turn) ≤ left p := by
      rcases h.still hstep hp with hless | ⟨hsame, -⟩
      · exact Nat.le_of_lt hless
      · exact Nat.le_of_eq hsame
    exact ⟨Nat.le_trans hle hfirst, hinv⟩

/-- A ready thread leaves less by its first turn, unless another has done so before. -/
theorem lt_run (h : m.Descends n Inv Ready left) (hp : Inv p) (hready : Ready p i)
    (hsteps : ∀ turn ∈ turns, turn.isStep = true) {luck : Bool} (hturn : .step i luck ∈ turns) :
    left (m.run p turns) < left p := by
  induction turns generalizing p with
  | nil => cases hturn
  | cons turn turns ih =>
    have hstep := hsteps turn List.mem_cons_self
    have hlater : ∀ turn ∈ turns, turn.isStep = true :=
      fun turn hmem => hsteps turn (List.mem_cons_of_mem _ hmem)
    have hinv := h.keep hstep hp
    rcases List.mem_cons.mp hturn with rfl | hmem
    · exact Nat.lt_of_le_of_lt (h.le_run hinv hlater).1 (h.falls luck hp hready)
    · rcases h.still hstep hp with hless | ⟨hsame, hstays⟩
      · exact Nat.lt_of_le_of_lt (h.le_run hinv hlater).1 hless
      · rw [← hsame]
        exact ih hinv (hstays i hready) hlater hmem

/-- As many rounds as there is left to do bring every call to its end. -/
theorem rests (h : m.Descends n Inv Ready left) (hp : Inv p) {rounds : List (List (Turn κ))}
    (hrounds : ∀ round ∈ rounds, Round n round) (hmany : left p ≤ rounds.length) {t : τ}
    (ht : (m.run p rounds.flatten).threads[i]? = some t) : m.rests t = true := by
  by_contra hnot
  have hbusy : m.Busy (m.run p rounds.flatten) i := ⟨t, ht, by simpa using hnot⟩
  clear ht hnot
  induction rounds generalizing p with
  | nil =>
    obtain ⟨j, -, hready⟩ := h.ready hp hbusy
    have hless := h.falls true hp hready
    rw [List.length_nil] at hmany
    omega
  | cons round rounds ih =>
    have hround := hrounds round List.mem_cons_self
    have hlater : ∀ round ∈ rounds, Round n round :=
      fun round hmem => hrounds round (List.mem_cons_of_mem _ hmem)
    rw [List.flatten_cons, run_append] at hbusy
    by_cases hbefore : ∃ i, m.Busy p i
    · obtain ⟨k, hk⟩ := hbefore
      obtain ⟨j, hj, hready⟩ := h.ready hp hk
      obtain ⟨luck, hturn⟩ := hround.each j hj
      have hless := h.lt_run hp hready hround.steps hturn
      rw [List.length_cons] at hmany
      exact ih (h.le_run hp hround.steps).2 hlater (by omega) hbusy
    · -- nothing moves any more
      have hrest : ∀ i, ¬ m.Busy p i := fun i hi => hbefore ⟨i, hi⟩
      rw [run_of_rests hrest hround.steps, run_of_rests hrest] at hbusy
      · exact hrest i hbusy
      · intro turn hmem
        obtain ⟨later, hround, hmem⟩ := List.mem_flatten.mp hmem
        exact (hlater later hround).steps turn hmem

end Descends

end Machine

end Growable
