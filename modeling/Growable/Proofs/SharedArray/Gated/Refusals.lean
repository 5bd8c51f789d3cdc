import Growable.Proofs.SharedArray.Bounded
import Growable.Proofs.SharedArray.Gated.Prefix
import Growable.Proofs.SharedArray.Gated.Progress

/-!
# When an append is refused

An append is refused when every index that is allowed is reserved, and not only when every one is
committed. The indices in between are in the hands of appends under way, each of which is answered
with its index sooner or later. So a refusal may come ahead of the length, but never in vain; and
once the appends that were under way are over, the length is what is allowed. All this is on a
machine that has room for the slots that are allowed.
-/

namespace Growable.SharedArray.Gated

open Lock (Gate)
open Machine (Event Operation operations pending? first?)

/-- As many different threads as there are members of a list, if each member is in the hands of a
thread and no thread has two. -/
theorem exists_owners {P : Nat → Nat → Prop} {l : List Nat} (hnodup : l.Nodup)
    (howned : ∀ i ∈ l, ∃ t, P i t) (hone : ∀ {i j t : Nat}, P i t → P j t → i = j) :
    ∃ ts : List Nat, ts.Nodup ∧ ts.length = l.length ∧ ∀ t ∈ ts, ∃ i ∈ l, P i t := by
  induction l with
  | nil => exact ⟨[], List.nodup_nil, rfl, fun t ht => absurd ht List.not_mem_nil⟩
  | cons i l ih =>
    obtain ⟨hi, hl⟩ := List.nodup_cons.mp hnodup
    obtain ⟨ts, hts, hlength, howners⟩ := ih hl fun j hj => howned j (List.mem_cons_of_mem i hj)
    obtain ⟨t, ht⟩ := howned i List.mem_cons_self
    refine ⟨t :: ts, List.nodup_cons.mpr ⟨?_, hts⟩, congrArg (· + 1) hlength, ?_⟩
    · intro hmem
      obtain ⟨j, hj, hjt⟩ := howners t hmem
      exact hi (hone ht hjt ▸ hj)
    · intro u hu
      rcases List.mem_cons.mp hu with rfl | hu
      · exact ⟨i, List.mem_cons_self, ht⟩
      · obtain ⟨j, hj, hju⟩ := howners u hu
        exact ⟨j, List.mem_cons_of_mem i hj, hju⟩

namespace Setup

variable {α : Type} [Inhabited α] (S : Setup α) {k : GateKind} {turns : List (Turn (Call α))}
  {turn : Turn (Call α)} {t i n : Nat} {c : Client k.gate α} {call : Call α}

/-! ## Tasks of an append -/

theorem suffices_after (hlimits : S.limits.Suffices S.config.maxCapacity) (k : GateKind)
    (turns : List (Turn (Call α))) :
    (S.after k.gate turns).shared.limits.Suffices (S.after k.gate turns).shared.maxCapacity := by
  rw [S.limits_after, S.max_eq_after]
  exact hlimits

section

variable (hlimits : S.limits.Suffices S.config.maxCapacity) (hlen : S.len ≤ S.config.maxCapacity)

include hlimits hlen

theorem appending_after (luck : Bool) (ht : (S.after k.gate turns).threads[t]? = some c)
    (hbusy : c.task.rests = false) {call? : Option (Call α)} (happends : c.task.Appends call?) :
    Appending call? (S.after k.gate turns).shared c.task
      (step luck (S.after k.gate turns).shared c).1
      (step luck (S.after k.gate turns).shared c).2.task := by
  have hsound := S.sound_after k turns
  have hreserved := (S.counted_after hlen k turns).reserved_le
  rw [← S.max_eq_after k turns] at hreserved
  exact appending luck _ c hsound.informed.live (hsound.informed.knows ht)
    (S.suffices_after hlimits k turns) hreserved (fun i hi => (hsound.paced.owns ht hi).2.2) hbusy
    happends

/-- A thread that is under way with an append is at a task of the append. -/
theorem appends_after (ht : (S.after k.gate turns).threads[t]? = some c)
    (hbusy : c.task.rests = false) {v : α}
    (hcall : Machine.lastCall? (S.history k.gate turns) t = some (.append v)) :
    c.task.Appends (some (.append v)) := by
  refine Machine.busy_invariant (m := machine k.gate α)
    (fun turns t c => ∀ v, Machine.lastCall? (S.history k.gate turns) t = some (.append v) →
      c.task.rests = false → c.task.Appends (some (.append v))) rests_idle ?_ ?_ ?_ ht hbusy v hcall
      hbusy
  · intro turns t c call ht hrest v hcall _
    rw [S.lastCall?_of_call call ht hrest] at hcall
    cases hcall
    rfl
  · intro turns t c luck ht hbusy happends hbusy' v hcall _
    rw [S.lastCall?_of_busy ht hbusy] at hcall
    have happending := S.appending_after hlimits hlen luck ht hbusy (happends v hcall hbusy)
    change (step luck (S.after k.gate turns).shared c).2.task.Appends _
    change (step luck (S.after k.gate turns).shared c).2.task.rests = false at hbusy'
    generalize (step luck (S.after k.gate turns).shared c).2.task = next,
      (step luck (S.after k.gate turns).shared c).1 = s at happending hbusy'
    cases happending with
    | on _ happends' => exact happends'
    | place _ happends' => exact happends'
    | refuse => cases hbusy'
    | give => cases hbusy'
  · intro turns t c turn _ ht _ hbusy happends v hcall _
    rw [S.lastCall?_of_busy ht hbusy] at hcall
    exact happends v hcall hbusy

/-- What an append is answered with: its index, whose turn it is, or a refusal when every index is
reserved. -/
theorem append_answered {v : α} {a : Answer α}
    (h : (machine k.gate α).event? (S.after k.gate turns) turn = some (.answered t a))
    (hcall : Machine.lastCall? (S.history k.gate turns) t = some (.append v)) :
    (S.after k.gate turns).shared.committed < S.config.maxCapacity ∧
        a = .index (S.after k.gate turns).shared.committed ∨
      S.config.maxCapacity ≤ (S.after k.gate turns).shared.reserved ∧
        a = .refused (.capacityOverflow ((S.after k.gate turns).shared.reserved + 1)
          S.config.maxCapacity) ∧
        ∃ c, (S.after k.gate turns).threads[t]? = some c ∧ c.task.owns? = none := by
  obtain ⟨luck, c, rfl, ht, hbusy, hrest, hreply⟩ := Machine.step_of_answered h
  have hsound := S.sound_after k turns
  have hmax := S.max_eq_after k turns
  have hsees := hsound.paced.sees ht
  have happending := S.appending_after hlimits hlen luck ht hbusy
    (S.appends_after hlimits hlen ht hbusy hcall)
  change (step luck (S.after k.gate turns).shared c).2.task.rests = true at hrest
  change (step luck (S.after k.gate turns).shared c).2.task.reply? = some a at hreply
  generalize (step luck (S.after k.gate turns).shared c).2.task = next,
    (step luck (S.after k.gate turns).shared c).1 = s at happending hrest hreply
  cases happending with
  | on hbusy' | place hbusy' =>
    rw [hbusy'] at hrest
    cases hrest
  | refuse hfull _ howns =>
    rw [hmax] at hfull hreply
    exact .inr ⟨hfull, (Option.some.inj hreply).symm, c, ht, howns⟩
  | give htask =>
    rw [htask] at hsees
    obtain rfl : (S.after k.gate turns).shared.committed = _ := hsees
    have hlt := (hsound.paced.owns ht (by rw [htask]; rfl)).2.2
    exact .inl ⟨hmax ▸ hlt, (Option.some.inj hreply).symm⟩

end

/-! ## The number of elements -/

omit [Inhabited α] in
/-- Only a commit is answered with an index. -/
theorem commit_of_index {G : Gate} {s : Shared G α} {task : Task G α}
    (h : Ending s task (.index i)) (hserves : task.Serves call) : task = .commit i := by
  cases h with
  | leave => cases hserves
  | commit => rfl
  | valid _ ha => rcases answer_of_afterValid ha with ⟨v, ⟨⟩, -⟩ | ⟨⟨⟩, -⟩

omit [Inhabited α] in
/-- Only appends have indices. -/
theorem append_of_owns {G : Gate} {task : Task G α} (hi : task.owns? = some i)
    (hserves : task.Serves call) : ∃ v, call = .append v := by
  cases task with
  | placeEnter j v | placePointer j v | placeSlot j v | placeLeave j v | fitPointer j v
  | fitSlot j v =>
    exact ⟨v, hserves⟩
  | growEnter g | growPointer g | copy g | publish g | growLeave g =>
    cases g with
    | fit j v => exact ⟨v, hserves⟩
    | reserve n => cases hi
  | await | commit => exact hserves
  | _ => cases hi

/-- A thread under way waits for the answer to the call that its task is part of. -/
theorem pending?_after (ht : (S.after k.gate turns).threads[t]? = some c)
    (hbusy : c.task.rests = false) :
    ∃ call n, pending? (S.history k.gate turns) t = some (call, n) ∧ c.task.Serves call := by
  obtain ⟨call, n, hpending⟩ := Machine.pending?_of_busy rests_idle (busy_after ht hbusy)
  obtain ⟨call', hcall, hserves⟩ := S.serves_after ht hbusy
  have hcall' := Machine.lastCall?_of_pending? hpending
  obtain rfl := Option.some.inj (hcall'.symm.trans hcall)
  exact ⟨call, n, hpending, hserves⟩

/-- The length rises by one with every answer that is an index, and is that index. -/
theorem committed_concat (k : GateKind) (turns : List (Turn (Call α))) (turn : Turn (Call α)) :
    (∃ t, (machine k.gate α).event? (S.after k.gate turns) turn =
          some (.answered t (.index (S.after k.gate turns).shared.committed)) ∧
        (S.after k.gate (turns ++ [turn])).shared.committed =
          (S.after k.gate turns).shared.committed + 1) ∨
      (∀ t i, (machine k.gate α).event? (S.after k.gate turns) turn ≠
          some (.answered t (.index i))) ∧
        (S.after k.gate (turns ++ [turn])).shared.committed =
          (S.after k.gate turns).shared.committed := by
  have hsound := S.sound_after k turns
  rw [after_concat]
  by_cases hindex : ∃ t i, (machine k.gate α).event? (S.after k.gate turns) turn =
      some (.answered t (.index i))
  · obtain ⟨t, i, hseen⟩ := hindex
    obtain ⟨luck, c, rfl, ht, hbusy, hending⟩ := ending_of_answered hseen
    obtain ⟨call, n, -, hserves⟩ := S.pending?_after ht hbusy
    have htask := commit_of_index hending hserves
    have hsees := hsound.paced.sees ht
    rw [htask] at hsees
    obtain rfl : (S.after k.gate turns).shared.committed = i := hsees
    refine .inl ⟨t, hseen, ?_⟩
    rw [Machine.act_step ht hbusy]
    rcases c with ⟨place, task⟩
    obtain rfl : task = .commit _ := htask
    rfl
  · refine .inr ⟨fun t i hseen => hindex ⟨t, i, hseen⟩, ?_⟩
    have hmoves := Machine.moves_act (machine k.gate α) (S.after k.gate turns) turn
    generalize (machine k.gate α).event? (S.after k.gate turns) turn = e,
      (machine k.gate α).act (S.after k.gate turns) turn = p' at hmoves hindex
    cases hmoves with
    | idle => rfl
    | call => rfl
    | @step t luck c ht hbusy =>
      have hcounting := hsound.counting ht luck
      change ¬ ∃ u i, (if (step luck (S.after k.gate turns).shared c).2.task.rests then
        (step luck (S.after k.gate turns).shared c).2.task.reply?.map (Event.answered t)
        else none) = some (.answered u (.index i)) at hindex
      change (step luck (S.after k.gate turns).shared c).1.committed = _
      generalize step luck (S.after k.gate turns).shared c = r at hcounting hindex
      rcases r with ⟨⟨gate, stores, reserved, committed, maxCapacity, limits, tries, journal⟩,
        ⟨place, task⟩⟩
      cases hcounting with
      | same | take | lose => rfl
      | @give i htask => exact absurd ⟨t, i, rfl⟩ hindex

/-- The length is what the operations so far have left. -/
theorem committed_eq_countAfter (k : GateKind) (turns : List (Turn (Call α))) :
    (S.after k.gate turns).shared.committed =
      countAfter S.len (operations (S.history k.gate turns)) := by
  induction turns using List.reverseRecOn with
  | nil => rfl
  | append_singleton turns turn ih =>
    rw [history_concat]
    rcases S.committed_concat k turns turn with ⟨t, hseen, hnext⟩ | ⟨hnot, hsame⟩
    · obtain ⟨luck, c, -, ht, hbusy, hending⟩ := ending_of_answered hseen
      obtain ⟨call, n, hpending, hserves⟩ := S.pending?_after ht hbusy
      rw [commit_of_index hending hserves] at hserves
      obtain ⟨v, rfl⟩ : ∃ v, call = .append v := hserves
      rw [hnext, hseen, Option.toList_some, Machine.operations_answered _ hpending,
        countAfter_concat, counted_append rfl rfl, ih]
    · rw [hsame, ih]
      cases hseen : (machine k.gate α).event? (S.after k.gate turns) turn with
      | none => rw [Option.toList_none, List.append_nil]
      | some e =>
        cases e with
        | called u call => rw [Option.toList_some, Machine.operations_called]
        | answered u a =>
          have hindex (i : Nat) : a ≠ .index i := by
            rintro rfl
            exact hnot u i hseen
          rw [Option.toList_some, Machine.operations_concat, Machine.operation?]
          cases pending? (S.history k.gate turns) u with
          | none => rw [Option.map_none, Option.toList_none, List.append_nil]
          | some q =>
            rw [Option.map_some, Option.toList_some, countAfter_concat,
              counted_of_not_index hindex]

/-! ## Indices in the hands of threads -/

section

variable (hlimits : S.limits.Suffices S.config.maxCapacity)

include hlimits

theorem not_lost_after (k : GateKind) (turns : List (Turn (Call α))) (i : Nat) :
    ¬ (S.after k.gate turns).shared.Lost i :=
  Shared.not_lost (S.suffices_after hlimits k turns).holds i

/-- A thread that has an index keeps it until it is answered with it, and nothing else is seen of the
thread meanwhile. -/
theorem first?_of_owns {before : List (Turn (Call α))}
    (ht : (S.after k.gate before).threads[t]? = some c) (hi : c.task.owns? = some i)
    (more : List (Turn (Call α))) :
    ∃ es, S.history k.gate (before ++ more) = S.history k.gate before ++ es ∧
      (first? es t = none ∧ (∃ d, (S.after k.gate (before ++ more)).threads[t]? = some d ∧
          d.task.owns? = some i) ∨
        first? es t = some (.answered t (.index i)) ∧
          i < (S.after k.gate (before ++ more)).shared.committed) := by
  induction more using List.reverseRecOn with
  | nil =>
    rw [List.append_nil]
    exact ⟨[], (List.append_nil _).symm, .inl ⟨rfl, c, ht, hi⟩⟩
  | append_singleton more turn ih =>
    obtain ⟨es, hes, hfirst⟩ := ih
    have hsound := S.sound_after k (before ++ more)
    rw [← List.append_assoc]
    refine ⟨es ++ ((machine k.gate α).event? (S.after k.gate (before ++ more)) turn).toList, ?_, ?_⟩
    · rw [history_concat, hes, List.append_assoc]
    · rcases hfirst with ⟨hnone, d, hd, howns⟩ | ⟨hsome, hlt⟩
      · have hbusy := busy_after hd (Task.rests_of_owns? howns)
        cases hsound.owns_act hd howns turn with
        | @keeps d' hd' howns' =>
          rw [← after_concat] at hd'
          have hbusy' := busy_after hd' (Task.rests_of_owns? howns')
          refine .inl ⟨?_, d', hd', howns'⟩
          rw [Machine.first?_append_of_ne (Machine.first?_eq_none_iff.mp hnone),
            Machine.first?_eq_none_iff]
          intro e he
          rw [Machine.run_concat] at hbusy'
          exact Machine.thread_ne_of_busy (Option.mem_toList.mp he) hbusy hbusy'
        | commits hseen hcommitted =>
          refine .inr ⟨?_, ?_⟩
          · rw [Machine.first?_append_of_ne (Machine.first?_eq_none_iff.mp hnone), hseen]
            exact Machine.first?_cons [] rfl
          · rw [after_concat, hcommitted]
            exact Nat.lt_succ_self i
        | breaksOff _ hlost => exact absurd hlost (S.not_lost_after hlimits k _ i)
      · refine .inr ⟨Machine.first?_append_of_some _ hsome, ?_⟩
        exact Nat.lt_of_lt_of_le hlt (S.committed_le_concat k _ turn)

omit hlimits in
/-- Every reserved index that is not committed is in the hands of another thread, which is at an
append. -/
theorem meets_after {o : Operation (Call α) (Answer α)} (hpast : o.past = S.history k.gate turns)
    (hnone : ∃ c, (S.after k.gate turns).threads[o.thread]? = some c ∧ c.task.owns? = none)
    (ht : (S.after k.gate turns).threads[t]? = some c) (hi : c.task.owns? = some i) :
    Meets o t := by
  refine ⟨?_, ?_⟩
  · rintro rfl
    obtain ⟨d, hd, hd'⟩ := hnone
    rw [← Option.some.inj (ht.symm.trans hd), hi] at hd'
    cases hd'
  · obtain ⟨call, n, hpending, hserves⟩ := S.pending?_after ht (Task.rests_of_owns? hi)
    obtain ⟨v, rfl⟩ := append_of_owns hi hserves
    rw [hpast]
    exact ⟨v, n, hpending⟩

/-- When every index is reserved, the appends of other threads that are under way fill the array, and
none of them is refused. -/
theorem ahead_after (hlen : S.len ≤ S.config.maxCapacity) {before : List (Turn (Call α))}
    {o : Operation (Call α) (Answer α)} (hbefore : before <+: turns)
    (hpast : o.past = S.history k.gate before)
    (hfull : S.config.maxCapacity ≤ (S.after k.gate before).shared.reserved)
    (hnone : ∃ c, (S.after k.gate before).threads[o.thread]? = some c ∧ c.task.owns? = none) :
    ∃ ahead : List Nat, ahead.Nodup ∧
      (S.after k.gate before).shared.committed + ahead.length = S.config.maxCapacity ∧
      ∀ t ∈ ahead, Meets o t ∧ ∀ o' ∈ operations (S.history k.gate turns), o'.thread = t →
        o'.start < o.stop → o.stop < o'.stop → ∃ i, o'.answer = .index i := by
  have hcounted := S.counted_after hlen k before
  have hle := hcounted.committed_le
  have hmax := hcounted.reserved_le
  have howned := exists_owners
    (P := fun i t => ∃ c, (S.after k.gate before).threads[t]? = some c ∧ c.task.owns? = some i)
    (l := List.range' (S.after k.gate before).shared.committed
      (S.config.maxCapacity - (S.after k.gate before).shared.committed))
    List.nodup_range' ?_ ?_
  · obtain ⟨ahead, hnodup, hlength, howners⟩ := howned
    rw [List.length_range'] at hlength
    refine ⟨ahead, hnodup, by omega, ?_⟩
    intro t hmem
    obtain ⟨i, -, c, ht, hi⟩ := howners t hmem
    refine ⟨S.meets_after hpast hnone ht hi, ?_⟩
    rintro o' ho' rfl hstart hstop
    obtain ⟨⟨rest, hrest⟩, hpending⟩ := Machine.operation_spec ho'
    obtain ⟨more, rfl⟩ := hbefore
    obtain ⟨es, hes, hfirst⟩ := S.first?_of_owns hlimits ht hi more
    rw [hes, ← hpast] at hrest
    obtain ⟨xs, hxs, rfl⟩ := Machine.exists_append_of_le hrest (Nat.le_of_lt hstop)
    rw [hxs] at hpending
    -- the answer to the append is the first thing that is seen of its thread
    have hanswer : first? (xs ++ .answered o'.thread o'.answer :: rest) o'.thread =
        some (.answered o'.thread o'.answer) :=
      (Machine.first?_append_of_ne (Machine.thread_ne_of_start_lt hpending hstart)).trans
        (Machine.first?_cons _ rfl)
    rw [hanswer] at hfirst
    rcases hfirst with ⟨⟨⟩, -⟩ | ⟨hsome, -⟩
    exact ⟨i, by simpa using hsome⟩
  · intro i hi
    obtain ⟨hge, hlt⟩ := List.mem_range'_1.mp hi
    exact (S.owned_after k before hge (by omega)).resolve_right (S.not_lost_after hlimits k _ i)
  · rintro i j t ⟨c, ht, hi⟩ ⟨d, hd, hj⟩
    rw [← Option.some.inj (ht.symm.trans hd), hi] at hj
    exact Option.some.inj hj

omit hlimits in
/-- A thread that asks for the length is about to load it. -/
theorem length_after (ht : (S.after k.gate turns).threads[t]? = some c)
    (hbusy : c.task.rests = false)
    (hcall : Machine.lastCall? (S.history k.gate turns) t = some .length) : c.task = .length := by
  refine Machine.busy_invariant (m := machine k.gate α)
    (fun turns t c => Machine.lastCall? (S.history k.gate turns) t = some .length →
      c.task = .length) rests_idle ?_ ?_ ?_ ht hbusy hcall
  · intro turns t c call ht hrest hcall
    rw [S.lastCall?_of_call call ht hrest] at hcall
    cases hcall
    rfl
  · intro turns t c luck ht hbusy htask hbusy' hcall
    rw [S.lastCall?_of_busy ht hbusy] at hcall
    rcases c with ⟨place, task⟩
    obtain rfl : task = .length := htask hcall
    cases hbusy'
  · intro turns t c turn _ ht _ hbusy htask hcall
    rw [S.lastCall?_of_busy ht hbusy] at hcall
    exact htask hcall

omit hlimits in
theorem length_answered {a : Answer α}
    (h : (machine k.gate α).event? (S.after k.gate turns) turn = some (.answered t a))
    (hcall : Machine.lastCall? (S.history k.gate turns) t = some .length) :
    a = .count (S.after k.gate turns).shared.committed := by
  obtain ⟨luck, c, rfl, ht, hbusy, -, hreply⟩ := Machine.step_of_answered h
  have htask := S.length_after ht hbusy hcall
  rcases c with ⟨place, task⟩
  obtain rfl : task = .length := htask
  exact (Option.some.inj hreply).symm

/-- Under a gate the operations are answered, one after the other, what is due or booked. -/
theorem legal_after (hlen : S.len ≤ S.config.maxCapacity) (k : GateKind)
    (turns : List (Turn (Call α))) :
    Legal S.len S.config.maxCapacity (Booked (S.history k.gate turns) S.config.maxCapacity)
      (operations (S.history k.gate turns)) := by
  apply legal_of_turns
  intro before turn o hbefore hpast hseen hpending
  have hpast : o.past = S.history k.gate before := hpast
  have hcall : Machine.lastCall? (S.history k.gate before) o.thread = some o.call := by
    rw [← hpast]
    exact Machine.lastCall?_of_pending? hpending
  change Answers _ _ (countAfter S.len (operations (S.history k.gate before))) o
  rw [← S.committed_eq_countAfter k before, Answers]
  split
  · rename_i v happend
    rw [happend] at hcall
    rcases S.append_answered hlimits hlen hseen hcall with hindex | ⟨hfull, hrefused, hnone⟩
    · exact .inl hindex
    · have hbefore' : before <+: turns := (List.prefix_append before [turn]).trans hbefore
      have hmax := (S.counted_after hlen k before).reserved_le
      rw [Nat.le_antisymm hmax hfull] at hrefused
      exact .inr ⟨S.ahead_after hlimits hlen hbefore' hpast hfull hnone, hrefused⟩
  · rename_i hlength
    rw [hlength] at hcall
    exact S.length_answered hseen hcall
  · exact trivial

omit hlimits in
theorem committed_mono (k : GateKind) {past : List (Turn (Call α))} (h : past <+: turns) :
    (S.after k.gate past).shared.committed ≤ (S.after k.gate turns).shared.committed := by
  obtain ⟨more, rfl⟩ := h
  induction more using List.reverseRecOn with
  | nil => exact Nat.le_of_eq (by rw [List.append_nil])
  | append_singleton more turn ih =>
    rw [← List.append_assoc]
    exact Nat.le_trans ih (S.committed_le_concat k _ turn)

/-- When every index is reserved and the appends of other threads that are under way are over later,
every index is committed by then. -/
theorem all_committed {before more : List (Turn (Call α))} {o : Operation (Call α) (Answer α)}
    {es : List (Event (Call α) (Answer α))} (hpast : o.past = S.history k.gate before)
    (hfull : S.config.maxCapacity ≤ (S.after k.gate before).shared.reserved)
    (hnone : ∃ c, (S.after k.gate before).threads[o.thread]? = some c ∧ c.task.owns? = none)
    (hes : S.history k.gate (before ++ more) = S.history k.gate before ++ es)
    (hover : ∀ t, Meets o t → ∃ e ∈ es, e.thread = t) :
    S.config.maxCapacity ≤ (S.after k.gate (before ++ more)).shared.committed := by
  refine Nat.le_of_not_lt fun hlt => ?_
  -- the next index is in the hands of a thread that was under way when every index was reserved
  have hmono := S.committed_mono k (List.prefix_append before more)
  obtain ⟨t, c, ht, hi⟩ := (S.owned_after k before hmono
    (Nat.lt_of_lt_of_le hlt hfull)).resolve_right (S.not_lost_after hlimits k _ _)
  obtain ⟨es', hes', ⟨hfirst, -⟩ | ⟨-, hlt'⟩⟩ := S.first?_of_owns hlimits ht hi more
  · obtain rfl := List.append_cancel_left (hes.symm.trans hes')
    obtain ⟨e, he, hthread⟩ := hover t (S.meets_after hpast hnone ht hi)
    exact Machine.first?_eq_none_iff.mp hfirst e he hthread
  · exact Nat.lt_irrefl _ hlt'

/-- Once an append was refused and the appends that were under way then are over, every length that
is asked for is what is allowed. -/
theorem count_of_refused (hlen : S.len ≤ S.config.maxCapacity) {o o' : Operation (Call α) (Answer α)}
    (ho : o ∈ operations (S.history k.gate turns)) (ho' : o' ∈ operations (S.history k.gate turns))
    {v : α} (hcall : o.call = .append v) {e : Error} (hanswer : o.answer = .refused e)
    (hcall' : o'.call = .length) (hlater : o.stop < o'.start)
    (hover : ∀ t, Meets o t → ∃ m a, o.stop < m ∧ m < o'.start ∧
      (S.history k.gate turns)[m]? = some (.answered t a)) :
    o'.answer = .count S.config.maxCapacity := by
  obtain ⟨⟨rest, hrest⟩, hpending⟩ := Machine.operation_spec ho
  obtain ⟨⟨rest', hrest'⟩, hpending'⟩ := Machine.operation_spec ho'
  obtain ⟨asked, since, hasked, hstart, -⟩ := Machine.pending?_spec hpending'
  -- the length was asked for when the append had been refused
  have hsplit : (o.past ++ [.answered o.thread o.answer]) ++ rest =
      asked ++ (.called o'.thread o'.call :: since ++ .answered o'.thread o'.answer :: rest') := by
    rw [List.append_assoc, List.singleton_append, ← hrest, hrest', hasked, List.append_assoc]
  have hle : (o.past ++ [Event.answered o.thread o.answer]).length ≤ asked.length := by
    rw [List.length_append, List.length_singleton, hstart]
    exact hlater
  obtain ⟨xs, hxs, -⟩ := Machine.exists_append_of_le hsplit hle
  rw [List.append_assoc, List.singleton_append] at hxs
  obtain ⟨past', turn', hpast', hhistory', hseen'⟩ := Machine.exists_turn_of_history hrest'
  obtain ⟨past, next, hpast, hhistory, -⟩ :=
    Machine.exists_turn_of_history (hhistory'.trans hasked)
  obtain ⟨before, turn, hbefore, hhistory₀, hseen⟩ :=
    Machine.exists_turn_of_history (hhistory.trans hxs)
  obtain ⟨more, rfl⟩ := (List.prefix_append before [turn]).trans hbefore
  have hrefused : Machine.lastCall? (S.history k.gate before) o.thread = some (.append v) := by
    rw [← hcall]
    exact (congrArg (Machine.lastCall? · o.thread) hhistory₀).trans
      (Machine.lastCall?_of_pending? hpending)
  have hall : S.config.maxCapacity ≤ (S.after k.gate (before ++ more)).shared.committed := by
    rcases S.append_answered hlimits hlen hseen hrefused with ⟨-, hindex⟩ | ⟨hfull, -, hnone⟩
    · rw [hanswer] at hindex
      cases hindex
    · refine S.all_committed hlimits hhistory₀.symm hfull hnone
        (hhistory.trans (hhistory₀.symm ▸ hxs)) fun t hmeets => ?_
      obtain ⟨m, a, hm, hm', hend⟩ := hover t hmeets
      rw [hrest', hasked, List.append_assoc, List.getElem?_append_left (by omega), hxs,
        List.getElem?_append_right (Nat.le_of_lt hm)] at hend
      exact ⟨_, List.mem_of_getElem? hend, rfl⟩
  have hlength : Machine.lastCall? (S.history k.gate past') o'.thread = some .length := by
    rw [← hcall']
    exact (congrArg (Machine.lastCall? · o'.thread) hhistory').trans
      (Machine.lastCall?_of_pending? hpending')
  have hmono := S.committed_mono k ((List.prefix_append _ _).trans hpast)
  have hcounted := S.counted_after hlen k past'
  have hmax := Nat.le_trans hcounted.committed_le hcounted.reserved_le
  rw [S.length_answered hseen' hlength, Nat.le_antisymm hmax (Nat.le_trans hall hmono)]

end

end Setup

end Growable.SharedArray.Gated
