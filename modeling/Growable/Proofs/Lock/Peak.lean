import Growable.Lock.Flagged
import Growable.Proofs.Lock.Roster
import Mathlib.Order.Bounds.Defs

/-!
# How many indices are ever drawn

Indices are drawn one above the other and never taken back out of the range, so the range can only
widen. It widens no further than the threads that were live at one moment: those that have an index
and those on their way to one. A thread may draw a new index although another was given back since
it looked. When it looked there was none, though, so that every index of the range was with a thread,
and the thread itself and all others that had looked and not yet drawn were live beside them.
-/

namespace Growable.Lock.Roster

/-- The thread has an index or is on its way to one. -/
def Client.isLive (c : Client) : Bool :=
  c.index?.isSome || c.task == .scanning || c.task == .drawing

/-- The thread found no index given back, and draws a new one next. -/
def Client.isDrawing (c : Client) : Bool := c.task == .drawing

/-- The number of live threads. -/
def live (p : Pool Roster Client) : Nat := p.threads.toList.countP Client.isLive

/-- The number of threads that are to draw a new index. -/
def drawing (p : Pool Roster Client) : Nat := p.threads.toList.countP Client.isDrawing

/-- The largest number of threads that were live at one moment of a run. -/
def peak (p : Pool Roster Client) : List (Turn Request) → Nat
  | [] => live p
  | turn :: turns => max (live p) (peak (client.act p turn) turns)

variable {p : Pool Roster Client} {t i : Nat} {c d : Client} {turns : List (Turn Request)}

/-! ## The peak -/

theorem peak_concat (p : Pool Roster Client) (turns : List (Turn Request)) (turn : Turn Request) :
    peak p (turns ++ [turn]) = max (peak p turns) (live (client.run p (turns ++ [turn]))) := by
  induction turns generalizing p with
  | nil => rfl
  | cons first turns ih =>
    rw [List.cons_append, peak, ih, peak, Nat.max_assoc]
    rfl

theorem isGreatest_peak (p : Pool Roster Client) (turns : List (Turn Request)) :
    IsGreatest {n | ∃ past, past <+: turns ∧ n = live (client.run p past)} (peak p turns) := by
  induction turns using List.reverseRecOn with
  | nil =>
    refine ⟨⟨[], List.prefix_refl _, rfl⟩, ?_⟩
    rintro n ⟨past, hpast, rfl⟩
    rw [List.prefix_nil.mp hpast]
    exact Nat.le_refl _
  | append_singleton turns turn ih =>
    obtain ⟨⟨most, hmost, hpeak⟩, hbound⟩ := ih
    rw [peak_concat]
    constructor
    · rcases Nat.le_total (peak p turns) (live (client.run p (turns ++ [turn]))) with hle | hle
      · exact ⟨_, List.prefix_refl _, Nat.max_eq_right hle⟩
      · refine ⟨most, hmost.trans (List.prefix_append ..), ?_⟩
        rw [Nat.max_eq_left hle, hpeak]
    · rintro n ⟨past, hpast, rfl⟩
      rcases List.prefix_concat_iff.mp hpast with rfl | hpast
      · exact Nat.le_max_right ..
      · exact Nat.le_trans (hbound ⟨past, hpast, rfl⟩) (Nat.le_max_left ..)

/-! ## Indices that are with a thread -/

/-- What is counted once by either of two is counted by what covers both. -/
theorem countP_add_countP_le {τ : Type} {l : List τ} {f g h : τ → Bool}
    (hf : ∀ a ∈ l, f a = true → g a = false ∧ h a = true)
    (hg : ∀ a ∈ l, g a = true → h a = true) : l.countP f + l.countP g ≤ l.countP h := by
  induction l with
  | nil => exact Nat.le_refl 0
  | cons a l ih =>
    have htail := ih (fun b hb => hf b (List.mem_cons_of_mem a hb))
      (fun b hb => hg b (List.mem_cons_of_mem a hb))
    have hf := hf a List.mem_cons_self
    have hg := hg a List.mem_cons_self
    simp only [List.countP_cons]
    cases hfa : f a with
    | true =>
      obtain ⟨hga, hha⟩ := hf hfa
      simp only [hga, hha, if_true, Bool.false_eq_true, if_false]
      omega
    | false =>
      cases hga : g a with
      | true =>
        simp only [hg hga, if_true, Bool.false_eq_true, if_false]
        omega
      | false =>
        simp only [Bool.false_eq_true, if_false]
        omega

/-- With none given back, every index drawn so far is with a thread of its own. -/
theorem Accounted.next_le (h : Accounted p) (hfree : p.shared.free = []) :
    p.shared.next ≤ p.threads.toList.countP fun c => c.index?.isSome := by
  have hbelow : ∀ n ≤ p.shared.next,
      n ≤ p.threads.toList.countP fun c => c.index?.any (· < n) := by
    intro n
    induction n with
    | zero => exact fun _ => Nat.zero_le _
    | succ n ih =>
      intro hn
      have hone := h.once n
      rw [hfree, List.count_nil, if_pos (Nat.lt_of_succ_le hn)] at hone
      have hsum : p.threads.toList.countP (fun c => c.index?.any (· < n)) +
          p.threads.toList.countP (Client.has n) ≤
          p.threads.toList.countP fun c => c.index?.any (· < n + 1) := by
        apply countP_add_countP_le
        · intro c _ hc
          cases hi : c.index? with
          | none =>
            rw [hi] at hc
            cases hc
          | some i =>
            rw [hi] at hc
            have hlt : i < n := of_decide_eq_true hc
            rw [Client.has, hi]
            exact ⟨by simp; omega, decide_eq_true (by omega)⟩
        · intro c _ hc
          have hi : c.index? = some n := by simpa [Client.has] using hc
          simp [hi]
      have := ih (by omega)
      omega
  refine Nat.le_trans (hbelow _ (Nat.le_refl _)) (List.countP_mono_left ?_)
  intro c _ hc
  cases hi : c.index? with
  | none =>
    rw [hi] at hc
    cases hc
  | some i => rfl

/-- A thread that is to draw an index has none yet. -/
theorem Accounted.add_drawing_le (h : Accounted p) :
    (p.threads.toList.countP fun c => c.index?.isSome) + drawing p ≤ live p := by
  apply countP_add_countP_le
  · intro c hc hsome
    obtain ⟨t, ht⟩ := Pool.exists_getElem?_of_mem hc
    have hsound := h.sound ht
    rcases c with ⟨index?, task⟩
    cases task with
    | drawing =>
      obtain rfl : index? = none := hsound
      cases hsome
    | rest | scanning | releasing =>
      refine ⟨rfl, ?_⟩
      simp only [Client.isLive, hsome, Bool.true_or]
  · intro c _ hdrawing
    simp only [Client.isDrawing] at hdrawing
    simp [Client.isLive, hdrawing]

/-! ## Turns -/

/-- A step makes the range of indices drawn, and to be drawn, no wider, unless none is given back. -/
theorem Client.drawn_step (r : Roster) (c : Client) :
    (c.step r).1.next + (if (c.step r).2.isDrawing then 1 else 0) =
        r.next + (if c.isDrawing then 1 else 0) ∨ (c.step r).1.free = [] := by
  rcases c with ⟨index?, task⟩
  cases task with
  | rest => exact .inl rfl
  | scanning =>
    cases hmin : r.free.min? with
    | some i =>
      left
      simp only [Client.step, scan, hmin]
      rfl
    | none =>
      right
      simp only [Client.step, scan, hmin]
      simpa using hmin
  | drawing => exact .inl rfl
  | releasing =>
    cases index? with
    | none => exact .inl rfl
    | some i => exact .inl rfl

/-- A turn makes the range of indices drawn, and to be drawn, no wider, unless as many threads are
live. -/
theorem Accounted.drawn_act (h : Accounted p) (turn : Turn Request) :
    (client.act p turn).shared.next + drawing (client.act p turn) ≤
      max (p.shared.next + drawing p) (live (client.act p turn)) := by
  have hact := h.act turn
  have hacts := Machine.acts client p turn
  generalize client.act p turn = p' at hact hacts
  cases hacts with
  | idle => exact Nat.le_max_left ..
  | @call t q c ht hrest =>
    have hput := Pool.countP_put (u := client.start q c) Client.isDrawing p.shared ht
    have hrest : c.task = .rest := by simpa [client] using hrest
    have hidle : c.isDrawing = false := by simp [Client.isDrawing, hrest]
    have hstart : (client.start q c).isDrawing = false := by
      cases q <;> simp only [client, Client.start] <;> split <;> simp [Client.isDrawing, hrest]
    rw [hidle, hstart] at hput
    exact Nat.le_trans (Nat.le_of_eq (congrArg (p.shared.next + ·) hput)) (Nat.le_max_left ..)
  | @step t luck c ht hbusy =>
    have hput := Pool.countP_put (u := (c.step p.shared).2) Client.isDrawing (c.step p.shared).1 ht
    change (c.step p.shared).1.next + drawing (p.put t (c.step p.shared).1 (c.step p.shared).2) ≤ _
    change drawing (p.put t (c.step p.shared).1 (c.step p.shared).2) + _ = drawing p + _ at hput
    rcases c.drawn_step p.shared with hsame | hfree
    · refine Nat.le_trans (Nat.le_of_eq ?_) (Nat.le_max_left ..)
      omega
    · -- with none given back, all are with threads, which are live beside those that are to draw
      have hnext := hact.next_le hfree
      have hlive := hact.add_drawing_le
      exact Nat.le_trans (Nat.le_trans (Nat.add_le_add_right hnext _) hlive) (Nat.le_max_right ..)

/-- What was drawn, and what is to be drawn, is no more than were live at one moment. -/
theorem drawn_le_peak (threads : Nat) (turns : List (Turn Request)) :
    (client.run (idle threads) turns).shared.next + drawing (client.run (idle threads) turns) ≤
      peak (idle threads) turns := by
  induction turns using List.reverseRecOn with
  | nil => simp [Machine.run_nil, idle, drawing, List.countP_replicate, Client.isDrawing]
  | append_singleton turns turn ih =>
    have hact := (accounted_after threads turns).drawn_act turn
    rw [peak_concat, Machine.run_concat]
    omega

/-! ## What is promised -/

/-- What is promised of the range of indices after some turns. -/
structure Tracks (threads : Nat) (turns : List (Turn Request)) : Prop where
  /-- The peak is the largest number of threads that were live at one moment. -/
  greatest : IsGreatest {n | ∃ past, past <+: turns ∧ n = live (client.run (idle threads) past)}
    (peak (idle threads) turns)
  /-- No more indices were drawn than that. -/
  drawn : (client.run (idle threads) turns).shared.next ≤ peak (idle threads) turns
  /-- If there are flags for so many, every thread that has had an index had one with a flag, in
  every lock that has such flags. -/
  flagged : peak (idle threads) turns ≤ Roster.flagged →
    ∀ (past : List (Turn Request)) (t i : Nat), past <+: turns →
      Has (client.run (idle threads) past) t i → i < Roster.flagged ∧
      ∀ w : Flagged, w.begin i = .raise i ∨ w.begin i = .install i

theorem Accounted.lt_of_has (h : Accounted p) (hi : Has p t i) : i < p.shared.next := by
  have hone := h.once i
  have hpos := has_iff_countP.mp ⟨t, hi⟩
  split at hone <;> omega

theorem begin_of_lt (w : Flagged) (hi : i < flagged) :
    w.begin i = .raise i ∨ w.begin i = .install i := by
  rw [Flagged.begin, if_pos hi]
  split
  · exact .inl rfl
  · exact .inr rfl

/-- However threads come and go, the range of indices is no wider than the most threads that were
live at once. -/
theorem tracks_after (threads : Nat) (turns : List (Turn Request)) : Tracks threads turns := by
  have hdrawn := drawn_le_peak threads turns
  refine ⟨isGreatest_peak _ turns, by omega, ?_⟩
  rintro hpeak past t i ⟨more, rfl⟩ hi
  have hlt := (accounted_after threads past).lt_of_has hi
  have hmono := next_le_run (client.run (idle threads) past) more
  rw [← Machine.run_append] at hmono
  have hi : i < flagged := by omega
  exact ⟨hi, fun w => begin_of_lt w hi⟩

end Growable.Lock.Roster
