import Growable.Proofs.Operations
import Growable.SharedArray.Call

/-!
# A bounded number of elements

What appends and lengths come to one after the other: an append is answered with the number of
elements and adds one, as long as there are fewer than are allowed, and is refused after that; a
length is the number of elements. `Full` is when a refusal is due. `Booked` also allows it ahead of
time, when the places that are left are taken by appends under way of which none is refused.
-/

namespace Growable.SharedArray

open Machine (Linearizable Operation operations pending?)

variable {α : Type}

/-- The number of elements once an operation is over. -/
def counted (n : Nat) (o : Operation (Call α) (Answer α)) : Nat :=
  match o.call, o.answer with
  | .append _, .index _ => n + 1
  | _, _ => n

/-- The number of elements once the operations are over, one after the other, from `len` elements
on. -/
def countAfter (len : Nat) (os : List (Operation (Call α) (Answer α))) : Nat :=
  os.foldl counted len

/-- What an operation may be answered if there are `n` elements, where `Refuses` tells what appends
are refused. -/
def Answers (allowed : Nat) (Refuses : Nat → Operation (Call α) (Answer α) → Prop) (n : Nat)
    (o : Operation (Call α) (Answer α)) : Prop :=
  match o.call with
  | .append _ => n < allowed ∧ o.answer = .index n ∨ Refuses n o
  | .length => o.answer = .count n
  | _ => True

/-- Every operation is answered what is due after those before it. -/
def Legal (len allowed : Nat) (Refuses : Nat → Operation (Call α) (Answer α) → Prop)
    (os : List (Operation (Call α) (Answer α))) : Prop :=
  ∀ before o after, os = before ++ o :: after → Answers allowed Refuses (countAfter len before) o

/-- As many elements as are allowed are there: the append is refused. -/
def Full (allowed n : Nat) (o : Operation (Call α) (Answer α)) : Prop :=
  allowed ≤ n ∧ o.answer = .refused (.capacityOverflow (n + 1) allowed)

/-- Another thread is at an append when the operation ends. -/
def Meets (o : Operation (Call α) (Answer α)) (t : Nat) : Prop :=
  t ≠ o.thread ∧ ∃ v n, pending? o.past t = some (.append v, n)

/-- The elements and the appends of some other threads are as many elements as are allowed, and none
of these appends is refused: the append is refused. -/
def Booked (es : List (Machine.Event (Call α) (Answer α))) (allowed n : Nat)
    (o : Operation (Call α) (Answer α)) : Prop :=
  (∃ ahead : List Nat, ahead.Nodup ∧ n + ahead.length = allowed ∧
    ∀ t ∈ ahead, Meets o t ∧ ∀ o' ∈ operations es, o'.thread = t → o'.start < o.stop →
      o.stop < o'.stop → ∃ i, o'.answer = .index i) ∧
  o.answer = .refused (.capacityOverflow (allowed + 1) allowed)

variable {len allowed n : Nat} {Refuses : Nat → Operation (Call α) (Answer α) → Prop}
  {o o' : Operation (Call α) (Answer α)} {os os' : List (Operation (Call α) (Answer α))}
  {es : List (Machine.Event (Call α) (Answer α))} {v : α}

theorem counted_append {i : Nat} (hcall : o.call = .append v) (hanswer : o.answer = .index i) :
    counted n o = n + 1 := by
  rw [counted, hcall, hanswer]

theorem counted_of_not_index (h : ∀ i, o.answer ≠ .index i) : counted n o = n := by
  unfold counted
  split
  · rename_i i _ hanswer
    exact absurd hanswer (h i)
  · rfl

theorem counted_refused {e : Error} (hanswer : o.answer = .refused e) : counted n o = n := by
  refine counted_of_not_index fun i hi => ?_
  rw [hanswer] at hi
  cases hi

theorem counted_of_not_append (h : ∀ v, o.call ≠ .append v) : counted n o = n := by
  unfold counted
  split
  · rename_i v _ hcall _
    exact absurd hcall (h v)
  · rfl

theorem le_counted (n : Nat) (o : Operation (Call α) (Answer α)) : n ≤ counted n o := by
  unfold counted
  split
  · exact Nat.le_succ n
  · exact Nat.le_refl n

theorem countAfter_concat (len : Nat) (os : List (Operation (Call α) (Answer α)))
    (o : Operation (Call α) (Answer α)) :
    countAfter len (os ++ [o]) = counted (countAfter len os) o := by
  rw [countAfter, List.foldl_append]
  rfl

theorem countAfter_le_append (len : Nat) (os os' : List (Operation (Call α) (Answer α))) :
    countAfter len os ≤ countAfter len (os ++ os') := by
  induction os' using List.reverseRecOn with
  | nil => exact Nat.le_of_eq (by rw [List.append_nil])
  | append_singleton os' o ih =>
    rw [← List.append_assoc, countAfter_concat]
    exact Nat.le_trans ih (le_counted _ o)

theorem Legal.of_append (h : Legal len allowed Refuses (os ++ os')) :
    Legal len allowed Refuses os := by
  rintro before o after rfl
  exact h before o (after ++ os') (by simp)

/-- An operation that is answered what is due leaves no more elements than are allowed. -/
theorem Answers.counted_le (h : Answers allowed (Full allowed) n o) (hle : n ≤ allowed) :
    counted n o ≤ allowed := by
  unfold Answers at h
  split at h
  · rcases h with ⟨hlt, -⟩ | ⟨-, hrefused⟩
    · unfold counted
      split <;> omega
    · rw [counted_refused hrefused]
      exact hle
  · rename_i hcall
    rw [counted_of_not_append]
    · exact hle
    · intro v hv
      rw [hv] at hcall
      cases hcall
  · rename_i happend _
    rw [counted_of_not_append]
    · exact hle
    · exact fun v hv => happend v hv

/-- The number of elements stays within what is allowed. -/
theorem Legal.countAfter_le (h : Legal len allowed (Full allowed) os) (hlen : len ≤ allowed) :
    countAfter len os ≤ allowed := by
  induction os using List.reverseRecOn with
  | nil => exact hlen
  | append_singleton os o ih =>
    rw [countAfter_concat]
    exact (h os o [] rfl).counted_le (ih h.of_append)

/-- In a run every operation is answered what is due if it is so when it is answered. -/
theorem legal_of_turns {σ τ : Type} {m : Machine σ τ (Call α) (Answer α)} {p : Pool σ τ}
    {turns : List (Turn (Call α))}
    (h : ∀ {before : List (Turn (Call α))} {turn : Turn (Call α)}
      {o : Operation (Call α) (Answer α)}, before ++ [turn] <+: turns →
      o.past = m.history p before →
      m.event? (m.run p before) turn = some (.answered o.thread o.answer) →
      pending? o.past o.thread = some (o.call, o.start) →
      Answers allowed Refuses (countAfter len (operations (m.history p before))) o) :
    Legal len allowed Refuses (operations (m.history p turns)) := by
  intro os o os' hos
  obtain ⟨⟨more, hmore⟩, rfl, hpending⟩ := Machine.operations_eq_append_cons hos
  obtain ⟨before, turn, hbefore, hpast, hseen⟩ := Machine.exists_turn_of_history hmore
  rw [← hpast]
  exact h hbefore hpast.symm hseen hpending

/-- Where an append is refused only when as many elements as are allowed are there, every length
that is asked for later is that many. -/
theorem count_of_full (h : Linearizable (Legal len allowed (Full allowed)) es)
    (hlen : len ≤ allowed) (ho : o ∈ operations es) (ho' : o' ∈ operations es)
    (hcall : o.call = .append v) {e : Error} (hanswer : o.answer = .refused e)
    (hcall' : o'.call = .length) (hlater : o.stop < o'.start) : o'.answer = .count allowed := by
  obtain ⟨order, hperm, hordered, hlegal⟩ := h
  obtain ⟨before, after, rfl⟩ := List.append_of_mem (hperm.mem_iff.mpr ho)
  have hfull : allowed ≤ countAfter len before := by
    have hanswers := hlegal before o after rfl
    rw [Answers, hcall] at hanswers
    rcases hanswers with ⟨-, hindex⟩ | ⟨hfull, -⟩
    · rw [hanswer] at hindex
      cases hindex
    · exact hfull
  rcases List.mem_append.mp (hperm.mem_iff.mpr ho') with hbefore | hafter
  · -- an operation that starts later does not come first
    have hnot := (List.pairwise_append.mp hordered).2.2 o' hbefore o List.mem_cons_self
    exact absurd hlater hnot
  · rcases List.mem_cons.mp hafter with rfl | hafter
    · rw [hcall] at hcall'
      cases hcall'
    · obtain ⟨between, rest, rfl⟩ := List.append_of_mem hafter
      have hsplit : before ++ o :: (between ++ o' :: rest) =
          (before ++ o :: between) ++ o' :: rest := by simp
      rw [hsplit] at hlegal
      have hanswers := hlegal _ o' rest rfl
      rw [Answers, hcall'] at hanswers
      have hge := countAfter_le_append len before (o :: between)
      have hle := hlegal.of_append.countAfter_le hlen
      have hall : countAfter len (before ++ o :: between) = allowed := by omega
      rw [hall] at hanswers
      exact hanswers

end Growable.SharedArray
