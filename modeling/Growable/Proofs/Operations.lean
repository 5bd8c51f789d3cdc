import Growable.Proofs.Runs

/-!
# Operations

A call and the answer to it are one operation, which takes its time: it starts when the call is
handed out and stops when the answer is given. Two operations of a run may overlap. A run is
linearizable if its operations can be put in one order, in which no operation comes before another
that was over before it started, and which a thread by itself could have brought about.
-/

namespace Growable.Machine

/-- The thread that an event is about. -/
def Event.thread {κ ρ : Type} : Event κ ρ → Nat
  | called i _ => i
  | answered i _ => i

/-- A call that was answered. -/
structure Operation (κ ρ : Type) where
  thread : Nat
  call : κ
  answer : ρ
  /-- How much had been seen when the call was handed out. -/
  start : Nat
  /-- What had been seen when it was answered. -/
  past : List (Event κ ρ)
  deriving DecidableEq, Repr

/-- How much had been seen when the call was answered. -/
def Operation.stop {κ ρ : Type} (o : Operation κ ρ) : Nat := o.past.length

variable {κ ρ : Type}

/-- The call that thread `t` waits to be answered, and how much had been seen when it was handed
out. -/
def pending? (es : List (Event κ ρ)) (t : Nat) : Option (κ × Nat) :=
  es.zipIdx.foldl (fun before e =>
    match e with
    | (.called i c, n) => if i = t then some (c, n) else before
    | (.answered i _, _) => if i = t then none else before) none

/-- What is seen of thread `t` first. -/
def first? (es : List (Event κ ρ)) (t : Nat) : Option (Event κ ρ) :=
  es.find? fun e => e.thread == t

/-- The operation that an answer ends. -/
def operation? (past : List (Event κ ρ)) : Event κ ρ → Option (Operation κ ρ)
  | .called .. => none
  | .answered i r => (pending? past i).map fun q => ⟨i, q.1, r, q.2, past⟩

/-- The operations that ended after what was seen in the past. -/
def operationsAfter (past : List (Event κ ρ)) : List (Event κ ρ) → List (Operation κ ρ)
  | [] => []
  | e :: es => (operation? past e).toList ++ operationsAfter (past ++ [e]) es

/-- The operations of a run, in the order of their answers. -/
def operations (es : List (Event κ ρ)) : List (Operation κ ρ) := operationsAfter [] es

/-- The operations of a run, put in an order that respects real time, are as is allowed. -/
def Linearizable (allowed : List (Operation κ ρ) → Prop) (es : List (Event κ ρ)) : Prop :=
  ∃ order : List (Operation κ ρ), order.Perm (operations es) ∧
    order.Pairwise (fun o o' => ¬ o'.stop < o.start) ∧ allowed order

section

variable {es past xs ys : List (Event κ ρ)} {e : Event κ ρ} {t n : Nat} {c : κ}

/-! ## Calls that wait for an answer -/

theorem pending?_called (es : List (Event κ ρ)) (t i : Nat) (c : κ) :
    pending? (es ++ [.called i c]) t = if i = t then some (c, es.length) else pending? es t := by
  simp [pending?, List.zipIdx_append]

theorem pending?_answered (es : List (Event κ ρ)) (t i : Nat) (r : ρ) :
    pending? (es ++ [.answered i r]) t = if i = t then none else pending? es t := by
  simp [pending?, List.zipIdx_append]

theorem pending?_of_ne (es : List (Event κ ρ)) (h : e.thread ≠ t) :
    pending? (es ++ [e]) t = pending? es t := by
  cases e with
  | called i c =>
    rw [pending?_called]
    exact if_neg h
  | answered i r =>
    rw [pending?_answered]
    exact if_neg h

theorem pending?_append (es : List (Event κ ρ)) (h : ∀ e ∈ xs, e.thread ≠ t) :
    pending? (es ++ xs) t = pending? es t := by
  induction xs using List.reverseRecOn with
  | nil => rw [List.append_nil]
  | append_singleton xs e ih =>
    rw [← List.append_assoc, pending?_of_ne _ (h e (by simp))]
    exact ih fun e he => h e (List.mem_append_left _ he)

/-- Since a thread was handed the call that it waits for, nothing was seen of it. -/
theorem pending?_spec (h : pending? es t = some (c, n)) :
    ∃ before after, es = before ++ .called t c :: after ∧ before.length = n ∧
      ∀ e ∈ after, e.thread ≠ t := by
  induction es using List.reverseRecOn with
  | nil => cases h
  | append_singleton es e ih =>
    by_cases he : e.thread = t
    · cases e with
      | called i d =>
        obtain rfl : i = t := he
        rw [pending?_called, if_pos rfl] at h
        cases h
        exact ⟨es, [], rfl, rfl, fun _ hmem => absurd hmem List.not_mem_nil⟩
      | answered i r =>
        obtain rfl : i = t := he
        rw [pending?_answered, if_pos rfl] at h
        cases h
    · rw [pending?_of_ne es he] at h
      obtain ⟨before, after, rfl, hlength, hnot⟩ := ih h
      refine ⟨before, after ++ [e], by simp, hlength, ?_⟩
      intro e' hmem
      rcases List.mem_append.mp hmem with hold | hnew
      · exact hnot e' hold
      · rw [List.mem_singleton.mp hnew]
        exact he

theorem start_lt_length (h : pending? es t = some (c, n)) : n < es.length := by
  obtain ⟨before, after, rfl, rfl, -⟩ := pending?_spec h
  simp

/-- Nothing is seen of a thread while it waits for the answer to a call that started in the past. -/
theorem thread_ne_of_start_lt (h : pending? (past ++ xs) t = some (c, n)) (hn : n < past.length) :
    ∀ e ∈ xs, e.thread ≠ t := by
  induction xs using List.reverseRecOn with
  | nil => exact fun e he => absurd he List.not_mem_nil
  | append_singleton xs e ih =>
    rw [← List.append_assoc] at h
    have hlast : e.thread ≠ t := by
      rintro rfl
      cases e with
      | called i d =>
        rw [Event.thread, pending?_called, if_pos rfl, List.length_append] at h
        cases h
        omega
      | answered i r =>
        rw [Event.thread, pending?_answered, if_pos rfl] at h
        cases h
    rw [pending?_of_ne _ hlast] at h
    intro e' hmem
    rcases List.mem_append.mp hmem with hold | hnew
    · exact ih h e' hold
    · rw [List.mem_singleton.mp hnew]
      exact hlast

theorem lastCall?_of_pending? (h : pending? es t = some (c, n)) : lastCall? es t = some c := by
  induction es using List.reverseRecOn with
  | nil => cases h
  | append_singleton es e ih =>
    cases e with
    | called i d =>
      rw [pending?_called] at h
      rw [lastCall?_called]
      by_cases hi : i = t
      · rw [if_pos hi] at h ⊢
        cases h
        rfl
      · rw [if_neg hi] at h ⊢
        exact ih h
    | answered i r =>
      rw [pending?_answered] at h
      rw [lastCall?_answered]
      exact ih (Option.ite_none_left_eq_some.mp h).2

/-! ## What was seen before -/

/-- The later of two moments comes after the earlier one. -/
theorem exists_append_of_le {ε : Type} {past past' es rest : List ε}
    (h : past ++ es = past' ++ rest) (hle : past.length ≤ past'.length) :
    ∃ xs, past' = past ++ xs ∧ es = xs ++ rest := by
  rcases List.append_eq_append_iff.mp h with ⟨xs, hpast, hes⟩ | ⟨xs, hpast, hrest⟩
  · exact ⟨xs, hpast, hes⟩
  · rw [hpast, List.length_append] at hle
    obtain rfl : xs = [] := List.length_eq_zero_iff.mp (by omega)
    exact ⟨[], by simpa using hpast.symm, by simpa using hrest.symm⟩

/-- A list that each step makes longer by one member at most: each member is due to a step. -/
theorem exists_prefix_of_append_cons {ε δ : Type} {F : List ε → List δ} {f : List ε → ε → Option δ}
    (hnil : F [] = []) (hconcat : ∀ es e, F (es ++ [e]) = F es ++ (f es e).toList)
    {es : List ε} {ds ds' : List δ} {d : δ} (h : F es = ds ++ d :: ds') :
    ∃ before e, before ++ [e] <+: es ∧ F before = ds ∧ f before e = some d := by
  induction es using List.reverseRecOn generalizing ds' with
  | nil =>
    rw [hnil] at h
    exact absurd h.symm (List.append_ne_nil_of_right_ne_nil ds (List.cons_ne_nil d ds'))
  | append_singleton es e ih =>
    have hold {ds' : List δ} (h : F es = ds ++ d :: ds') :
        ∃ before e', before ++ [e'] <+: es ++ [e] ∧ F before = ds ∧ f before e' = some d := by
      obtain ⟨before, e', hbefore, hspec⟩ := ih h
      exact ⟨before, e', hbefore.trans (List.prefix_append ..), hspec⟩
    rw [hconcat] at h
    cases hlast : f es e with
    | none =>
      rw [hlast, Option.toList_none, List.append_nil] at h
      exact hold h
    | some d' =>
      rw [hlast, Option.toList_some] at h
      rcases ds'.eq_nil_or_concat with rfl | ⟨ds', last, rfl⟩
      · obtain ⟨hds, hd⟩ := List.append_inj' h rfl
        obtain rfl : d' = d := List.singleton_inj.mp hd
        exact ⟨es, e, List.prefix_refl _, hds, hlast⟩
      · rw [List.concat_eq_append, ← List.cons_append, ← List.append_assoc] at h
        exact hold (List.append_inj' h rfl).1

/-! ## What is seen of a thread first -/

theorem first?_eq_none_iff : first? es t = none ↔ ∀ e ∈ es, e.thread ≠ t := by
  simp [first?, List.find?_eq_none]

theorem first?_append_of_ne (h : ∀ e ∈ xs, e.thread ≠ t) : first? (xs ++ ys) t = first? ys t := by
  rw [first?, List.find?_append, ← first?, first?_eq_none_iff.mpr h]
  rfl

theorem first?_append_of_some (ys : List (Event κ ρ)) (h : first? xs t = some e) :
    first? (xs ++ ys) t = some e := by
  rw [first?, List.find?_append, ← first?, h]
  rfl

theorem first?_cons (es : List (Event κ ρ)) (h : e.thread = t) : first? (e :: es) t = some e := by
  rw [first?, List.find?_cons, h, beq_self_eq_true]

/-! ## Operations in their order -/

theorem operationsAfter_concat (past es : List (Event κ ρ)) (e : Event κ ρ) :
    operationsAfter past (es ++ [e]) =
      operationsAfter past es ++ (operation? (past ++ es) e).toList := by
  induction es generalizing past with
  | nil => simp [operationsAfter]
  | cons first es ih =>
    rw [List.cons_append, operationsAfter, operationsAfter, ih, List.append_assoc,
      List.append_assoc]
    rfl

theorem operations_concat (es : List (Event κ ρ)) (e : Event κ ρ) :
    operations (es ++ [e]) = operations es ++ (operation? es e).toList := by
  rw [operations, operationsAfter_concat, List.nil_append]
  rfl

theorem operations_called (es : List (Event κ ρ)) (i : Nat) (c : κ) :
    operations (es ++ [.called i c]) = operations es := by
  rw [operations_concat]
  exact List.append_nil _

theorem operations_answered (r : ρ) (h : pending? es t = some (c, n)) :
    operations (es ++ [.answered t r]) = operations es ++ [⟨t, c, r, n, es⟩] := by
  rw [operations_concat, operation?, h]
  rfl

/-- An operation was seen to be answered, after the operations that come before it. -/
theorem operations_eq_append_cons {o : Operation κ ρ} {os os' : List (Operation κ ρ)}
    (h : operations es = os ++ o :: os') :
    (∃ more, es = o.past ++ .answered o.thread o.answer :: more) ∧ operations o.past = os ∧
      pending? o.past o.thread = some (o.call, o.start) := by
  obtain ⟨past, e, ⟨more, rfl⟩, rfl, hended⟩ :=
    exists_prefix_of_append_cons rfl operations_concat h
  cases e with
  | called => cases hended
  | answered i r =>
    obtain ⟨⟨c, n⟩, hpending, rfl⟩ := Option.map_eq_some_iff.mp hended
    exact ⟨⟨more, List.append_assoc ..⟩, rfl, hpending⟩

theorem operation_spec {o : Operation κ ρ} (h : o ∈ operations es) :
    (∃ more, es = o.past ++ .answered o.thread o.answer :: more) ∧
      pending? o.past o.thread = some (o.call, o.start) := by
  obtain ⟨os, os', hos⟩ := List.append_of_mem h
  obtain ⟨hmore, -, hpending⟩ := operations_eq_append_cons hos
  exact ⟨hmore, hpending⟩

theorem start_lt_stop {o : Operation κ ρ} (h : o ∈ operations es) : o.start < o.stop :=
  start_lt_length (operation_spec h).2

theorem stop_lt_length {o : Operation κ ρ} (h : o ∈ operations es) : o.stop < es.length := by
  obtain ⟨⟨more, rfl⟩, -⟩ := operation_spec h
  simp [Operation.stop]

theorem pairwise_operations (es : List (Event κ ρ)) :
    (operations es).Pairwise fun o o' => o.stop < o'.stop := by
  induction es using List.reverseRecOn with
  | nil => exact List.Pairwise.nil
  | append_singleton es e ih =>
    rw [operations_concat]
    refine List.pairwise_append.mpr ⟨ih, ?_, ?_⟩
    · cases operation? es e with
      | none => exact List.Pairwise.nil
      | some o => exact List.pairwise_singleton _ _
    · intro o ho o' hended
      cases e with
      | called => cases hended
      | answered i r =>
        obtain ⟨⟨c, n⟩, -, rfl⟩ := Option.map_eq_some_iff.mp (Option.mem_toList.mp hended)
        exact stop_lt_length ho

/-- The order of the answers respects real time. -/
theorem linearizable_of_operations {allowed : List (Operation κ ρ) → Prop}
    (h : allowed (operations es)) : Linearizable allowed es := by
  refine ⟨operations es, List.Perm.refl _, ?_, h⟩
  refine (pairwise_operations es).imp_of_mem ?_
  intro o o' ho _ hlt hle
  have hstart := start_lt_stop ho
  omega

end

/-! ## The turns that are seen -/

section

variable {σ τ : Type} {m : Machine σ τ κ ρ} {p : Pool σ τ} {i : Nat} {turns : List (Turn κ)}
  {turn : Turn κ} {es more : List (Event κ ρ)} {e : Event κ ρ}

/-- What was seen was seen of one of the turns. -/
theorem exists_turn_of_history (h : m.history p turns = es ++ e :: more) :
    ∃ before turn, before ++ [turn] <+: turns ∧ m.history p before = es ∧
      m.event? (m.run p before) turn = some e := by
  obtain ⟨before, turn, hbefore, hhistory, hseen⟩ :=
    exists_prefix_of_append_cons (F := m.history p) rfl (m.history_concat p) h
  exact ⟨before, turn, hbefore, hhistory, hseen⟩

/-- Nothing is seen of a thread that is under way before a turn and after it. -/
theorem thread_ne_of_busy (h : m.event? p turn = some e) (hbefore : m.Busy p i)
    (hafter : m.Busy (m.act p turn) i) : e.thread ≠ i := by
  obtain ⟨t, ht, hbusy⟩ := hbefore
  obtain ⟨u, hu, hbusy'⟩ := hafter
  have hmoves := moves_act m p turn
  rw [h] at hmoves
  generalize hseen : some e = seen, m.act p turn = p' at hmoves hu
  rintro rfl
  cases hmoves with
  | idle => cases hseen
  | call hv hrest =>
    split at hseen
    · cases hseen
    · cases hseen
      rw [Option.some.inj (ht.symm.trans hv), hrest] at hbusy
      cases hbusy
  | step hv =>
    split at hseen
    · rename_i hrest
      obtain ⟨r, -, rfl⟩ := Option.map_eq_some_iff.mp hseen.symm
      rcases (Pool.getElem?_put_iff hv).mp hu with ⟨-, rfl⟩ | ⟨hne, -⟩
      · rw [hrest] at hbusy'
        cases hbusy'
      · exact hne rfl
    · cases hseen

theorem pending?_concat_of_busy (hbefore : m.Busy (m.run p turns) i)
    (hafter : m.Busy (m.run p (turns ++ [turn])) i) :
    pending? (m.history p (turns ++ [turn])) i = pending? (m.history p turns) i := by
  rw [run_concat] at hafter
  rw [history_concat]
  refine pending?_append _ fun e he => ?_
  exact thread_ne_of_busy (Option.mem_toList.mp he) hbefore hafter

/-- A thread that is under way waits to be answered. -/
theorem pending?_of_busy
    (hidle : ∀ {i : Nat} {t : τ}, p.threads[i]? = some t → m.rests t = true)
    (h : m.Busy (m.run p turns) i) : ∃ c n, pending? (m.history p turns) i = some (c, n) := by
  obtain ⟨t, ht, hbusy⟩ := h
  refine busy_invariant (m := m) (fun turns i t => m.rests t = false →
    ∃ c n, pending? (m.history p turns) i = some (c, n)) hidle ?_ ?_ ?_ ht hbusy hbusy
  · intro turns i t c ht hrest hstart
    refine ⟨c, (m.history p turns).length, ?_⟩
    rw [history_concat]
    simp [event?, ht, hrest, hstart, pending?_called]
  · intro turns i t luck ht hbusy hpending hafter _
    have ht' : (m.run p (turns ++ [.step i luck])).threads[i]? =
        some (m.step i luck (m.run p turns).shared t).2 := by
      rw [run_concat, act_step ht hbusy, Pool.getElem?_put_iff ht]
      exact .inl ⟨rfl, rfl⟩
    rw [pending?_concat_of_busy ⟨t, ht, hbusy⟩ ⟨_, ht', hafter⟩]
    exact hpending hbusy
  · intro turns i t turn _ ht ht' hbusy hpending _
    rw [pending?_concat_of_busy ⟨t, ht, hbusy⟩ ⟨t, ht', hbusy⟩]
    exact hpending hbusy

end

end Growable.Machine
