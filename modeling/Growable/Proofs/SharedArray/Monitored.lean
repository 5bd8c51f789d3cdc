import Growable.Proofs.Lock.Monitors
import Growable.Proofs.SharedArray.Alone.Monitored
import Growable.Proofs.SharedArray.Bounded

/-!
# An array under a monitor

Any number of threads use an array under a monitor, and take their steps in any order. A thread that
is inside is the only one, so the length stays what it was when the thread came in until the thread
itself raises it, and what a call is answered with is due at the moment when the answer is given.
All this is on a machine that has room for the slots that are allowed.
-/

namespace Growable.SharedArray.Monitored

open Lock (Monitor)
open Machine (Event Operation operations pending?)

section

variable {M : Monitor} {α : Type}

/-- How often a thread has entered that is at a task. -/
def Task.Stands (M : Monitor) (depth : Nat) : Task α → Prop
  | .rest _ | .enter _ => depth = 0
  | .work _ | .next _ | .place .. | .raise _ => depth = 1
  | .enterAgain .. => depth = 1 ∧ M.reenters = true
  | .grow .. => depth = if M.reenters then 2 else 1
  | .leaveAgain .. => depth = 2
  | .leave _ => 0 < depth

/-- A thread that is at a task of the call goes by `n` elements. -/
def Task.Told (call : Call α) (n : Nat) (s : Shared M α) : Task α → Prop
  | .rest _ => True
  | .enter c => c = call
  | .work c => c = call ∧ afterEnter call = .work call ∧ s.length = n
  | .next v => call = .append v ∧ s.length = n
  | .enterAgain i v | .grow i v =>
    call = .append v ∧ s.length = n ∧ i = n ∧ n < s.maxCapacity
  | .leaveAgain i v | .place i v =>
    call = .append v ∧ s.length = n ∧ i = n ∧ n < s.maxCapacity ∧ n < s.store.capacity
  | .raise i => (∃ v, call = .append v) ∧ s.length = n ∧ i = n ∧ n < s.maxCapacity
  | .leave a => ∀ o : Operation (Call α) (Answer α), o.call = call → o.answer = a →
    Answers s.maxCapacity (Full s.maxCapacity) n o ∧ s.length = counted n o

/-- Of a thread outside nothing is said of the array. -/
theorem told_of_outside {k : Task α} {call : Call α} {n n' : Nat} {s s' : Shared M α}
    (hstands : k.Stands M 0) (h : k.Told call n s) : k.Told call n' s' := by
  cases k with
  | rest | enter => exact h
  | grow =>
    simp only [Task.Stands] at hstands
    split at hstands <;> cases hstands
  | enterAgain => cases hstands.1
  | leave => exact absurd hstands (Nat.lt_irrefl 0)
  | _ => cases hstands

/-- The monitor is no part of what a thread goes by. -/
theorem told_word {k : Task α} {call : Call α} {n : Nat} {s : Shared M α} (w : M.Word)
    (h : k.Told call n s) : k.Told call n { s with word := w } := by
  cases k <;> exact h

theorem told_afterEnter {call : Call α} {n : Nat} {s : Shared M α} (h : s.length = n) :
    (afterEnter call).Told call n s := by
  cases call with
  | append v => exact ⟨rfl, h⟩
  | _ => exact ⟨rfl, rfl, h⟩

theorem stands_afterEnter (M : Monitor) (call : Call α) : (afterEnter call).Stands M 1 := by
  cases call <;> rfl

theorem afterEnter_ne_rest (call : Call α) (a? : Option (Answer α)) :
    afterEnter call ≠ .rest a? := by
  intro h
  cases call <;> cases h

/-- How a thread that is at a call moves: it waits to get in, or gets in, or goes on inside, or gets
out with its answer. -/
inductive Moving (call : Call α) (n : Nat) (s : Shared M α) (c : Client M α) :
    Shared M α → Client M α → Prop
  | wait {w : M.Word} {place : M.Place} : c.task = .enter call → M.depth place = 0 →
      Moving call n s c { s with word := w } ⟨place, .enter call⟩
  | getIn {w : M.Word} {place : M.Place} : c.task = .enter call → M.depth place = 1 →
      Moving call n s c { s with word := w } ⟨place, afterEnter call⟩
  | go {s' : Shared M α} {place : M.Place} {k : Task α} : 0 < M.depth c.place →
      (∀ a?, k ≠ .rest a?) → 0 < M.depth place → k.Stands M (M.depth place) →
      k.Told call n s' → s'.maxCapacity = s.maxCapacity → s'.limits = s.limits →
      Moving call n s c s' ⟨place, k⟩
  | getOut {w : M.Word} {place : M.Place} {a : Answer α} : 0 < M.depth c.place →
      c.task = .leave a → M.depth place = 0 →
      Moving call n s c { s with word := w } ⟨place, .rest (some a)⟩

theorem Moving.stands {call : Call α} {n : Nat} {s s' : Shared M α} {c c' : Client M α}
    (h : Moving call n s c s' c') : c'.task.Stands M (M.depth c'.place) := by
  cases h with
  | wait _ hzero => exact hzero
  | getIn _ hone =>
    rw [hone]
    exact stands_afterEnter M call
  | go _ _ _ hstands => exact hstands
  | getOut _ _ hzero => exact hzero

/-- A thread that is inside goes on where it stands. -/
theorem Moving.stay {call : Call α} {n : Nat} {s s' : Shared M α} {place : M.Place} {k k' : Task α}
    (hpos : 0 < M.depth place) (hrest : ∀ a?, k' ≠ .rest a?) (hstands : k'.Stands M (M.depth place))
    (htold : k'.Told call n s') (hmax : s'.maxCapacity = s.maxCapacity)
    (hlimits : s'.limits = s.limits) : Moving call n s ⟨place, k⟩ s' ⟨place, k'⟩ :=
  .go hpos hrest hpos hstands htold hmax hlimits

variable [Inhabited α]

theorem rests_of_ne {place : M.Place} {k : Task α} (h : ∀ a?, k ≠ .rest a?) :
    (machine M α).rests ⟨place, k⟩ = false := by
  cases k with
  | rest a? => exact absurd rfl (h a?)
  | _ => rfl

/-- Whether there can be room or not, nothing but the store is other than before. -/
theorem makeRoom_keeps (s : Shared M α) (required : Nat) :
    (makeRoom s required).1.length = s.length ∧
      (makeRoom s required).1.maxCapacity = s.maxCapacity ∧
      (makeRoom s required).1.limits = s.limits ∧ (makeRoom s required).1.word = s.word := by
  unfold makeRoom
  split
  · exact ⟨rfl, rfl, rfl, rfl⟩
  · split
    · exact ⟨rfl, rfl, rfl, rfl⟩
    · dsimp only
      split <;> exact ⟨rfl, rfl, rfl, rfl⟩

/-- There can be room for as many slots as are allowed. -/
theorem makeRoom_of_le_max {s : Shared M α} {required : Nat}
    (hholds : s.limits.holds s.maxCapacity = true) (h : required ≤ s.maxCapacity) :
    (makeRoom s required).2 = none ∧ required ≤ (makeRoom s required).1.store.capacity := by
  unfold makeRoom
  split
  · rename_i hroom
    exact ⟨rfl, hroom⟩
  · split
    · rename_i e herror
      have := lt_of_capacityFor herror
      omega
    · rename_i new hnew
      have hle := le_of_capacityFor hnew
      have hnew' : s.limits.holds new = true := Limits.holds_of_le hholds hle.2
      simp only [hnew', if_true, Store.capacity_grown, true_and]
      omega

/-- A call other than an append leaves the length as it is. -/
theorem work_keeps (s : Shared M α) (call : Call α) :
    (work s call).1.length = s.length ∧ (work s call).1.maxCapacity = s.maxCapacity ∧
      (work s call).1.limits = s.limits ∧ (work s call).1.word = s.word := by
  cases call with
  | read i =>
    simp only [work]
    split <;> exact ⟨rfl, rfl, rfl, rfl⟩
  | write i v =>
    simp only [work]
    split
    · exact ⟨rfl, rfl, rfl, rfl⟩
    · split <;> exact ⟨rfl, rfl, rfl, rfl⟩
  | ensureCapacity n => exact makeRoom_keeps s n
  | _ => exact ⟨rfl, rfl, rfl, rfl⟩

/-- What is answered to a call other than an append is due. -/
theorem work_answers {s : Shared M α} {call : Call α} {allowed n : Nat}
    {o : Operation (Call α) (Answer α)} (hafter : afterEnter call = .work call)
    (hlength : s.length = n) (hcall : o.call = call) (hanswer : o.answer = (work s call).2) :
    Answers allowed (Full allowed) n o ∧ n = counted n o := by
  have hnot (v : α) : o.call ≠ .append v := by
    intro hv
    obtain rfl := hcall.symm.trans hv
    cases hafter
  refine ⟨?_, (counted_of_not_append hnot).symm⟩
  rw [Answers, hcall]
  cases call with
  | append v => cases hafter
  | length =>
    rw [← hlength]
    exact hanswer
  | _ => exact trivial

theorem moving {me n : Nat} {s : Shared M α} {c : Client M α} {call : Call α}
    (hseek : M.depth (M.seek me s.word c.place).2 = M.depth c.place ∨
      M.depth (M.seek me s.word c.place).2 = M.depth c.place + 1)
    (hleave : 0 < M.depth c.place → M.depth (M.leave s.word c.place).2 + 1 = M.depth c.place)
    (hlimits : s.limits.Suffices s.maxCapacity) (hn : n ≤ s.maxCapacity)
    (hbusy : (machine M α).rests c = false) (hstands : c.task.Stands M (M.depth c.place))
    (htold : c.task.Told call n s) : Moving call n s c (step me s c).1 (step me s c).2 := by
  rcases c with ⟨place, task⟩
  change M.depth (M.seek me s.word place).2 = M.depth place ∨
    M.depth (M.seek me s.word place).2 = M.depth place + 1 at hseek
  change 0 < M.depth place → M.depth (M.leave s.word place).2 + 1 = M.depth place at hleave
  cases task with
  | rest => cases hbusy
  | enter c =>
    obtain rfl : c = call := htold
    have hout : M.depth place = 0 := hstands
    have hstep : step me s ⟨place, .enter c⟩ = ({ s with word := (M.seek me s.word place).1 },
        ⟨(M.seek me s.word place).2,
          if M.depth (M.seek me s.word place).2 = 1 then afterEnter c else .enter c⟩) := by
      cases c <;> rfl
    rw [hstep]
    split
    · rename_i hone
      exact .getIn rfl hone
    · exact .wait rfl (by omega)
  | work c =>
    obtain ⟨rfl, hafter, hlength⟩ := htold
    have hone : M.depth place = 1 := hstands
    have hpos : 0 < M.depth place := by omega
    obtain ⟨hlength', hmax, hsame, -⟩ := work_keeps s c
    refine .stay hpos (by rintro _ ⟨⟩) hpos ?_ hmax hsame
    intro o hcall hanswer
    have hdue : Answers s.maxCapacity (Full s.maxCapacity) n o ∧ n = counted n o :=
      work_answers hafter hlength hcall hanswer
    change Answers (work s c).1.maxCapacity (Full (work s c).1.maxCapacity) n o ∧
      (work s c).1.length = counted n o
    rw [hmax, hlength', hlength]
    exact hdue
  | next v =>
    obtain ⟨rfl, hlength⟩ := htold
    have hone : M.depth place = 1 := hstands
    have hpos : 0 < M.depth place := by omega
    simp only [step]
    split
    · rename_i hlt
      have hlt' : n < s.maxCapacity := by omega
      split
      · rename_i hre
        split
        · rename_i hroom
          have hroom' : n < s.store.capacity := by omega
          exact .stay hpos (by rintro _ ⟨⟩) hone ⟨rfl, hlength, hlength, hlt', hroom'⟩ rfl rfl
        · exact .stay hpos (by rintro _ ⟨⟩) ⟨hone, hre⟩ ⟨rfl, hlength, hlength, hlt'⟩ rfl rfl
      · rename_i hre
        have hgrow : (Task.grow s.length v).Stands M (M.depth place) := by
          rw [Task.Stands, if_neg hre]
          exact hone
        exact .stay hpos (by rintro _ ⟨⟩) hgrow ⟨rfl, hlength, hlength, hlt'⟩ rfl rfl
    · rename_i hfull
      refine .stay hpos (by rintro _ ⟨⟩) hpos ?_ rfl rfl
      intro o hcall hanswer
      rw [hlength] at hanswer hfull
      rw [Answer.full_of_suffices (hlimits.mono hn)] at hanswer
      refine ⟨?_, ?_⟩
      · rw [Answers, hcall]
        exact .inr ⟨Nat.le_of_not_lt hfull, hanswer⟩
      · rw [counted_refused hanswer]
        exact hlength
  | enterAgain i v =>
    obtain ⟨hone, hre⟩ : M.depth place = 1 ∧ M.reenters = true := hstands
    have hpos : 0 < M.depth place := by omega
    simp only [step]
    split
    · rename_i htwo
      refine .go hpos (by rintro _ ⟨⟩) (by omega) ?_ htold rfl rfl
      rw [Task.Stands, if_pos hre]
      exact htwo
    · rename_i hnot
      have hsame : M.depth (M.seek me s.word place).2 = 1 := by omega
      exact .go hpos (by rintro _ ⟨⟩) (by omega) ⟨hsame, hre⟩ htold rfl rfl
  | grow i v =>
    obtain ⟨rfl, hlength, rfl, hlt⟩ := htold
    have hdepth : M.depth place = if M.reenters then 2 else 1 := hstands
    have hroom : i + 1 ≤ s.maxCapacity := hlt
    obtain ⟨hnone, hcapacity⟩ := makeRoom_of_le_max hlimits.holds hroom
    obtain ⟨hlength', hmax, hsame, -⟩ := makeRoom_keeps s (i + 1)
    simp only [step]
    generalize makeRoom s (i + 1) = r at hnone hcapacity hlength' hmax hsame
    rcases r with ⟨s', a?⟩
    obtain rfl : a? = none := hnone
    have htold' : s'.length = i ∧ i = i ∧ i < s'.maxCapacity ∧ i < s'.store.capacity := by
      simp only at hcapacity hlength' hmax
      omega
    dsimp only
    split
    · rename_i hre
      rw [if_pos hre] at hdepth
      exact .stay (by omega) (by rintro _ ⟨⟩) hdepth ⟨rfl, htold'⟩ hmax hsame
    · rename_i hre
      rw [if_neg hre] at hdepth
      exact .stay (by omega) (by rintro _ ⟨⟩) hdepth ⟨rfl, htold'⟩ hmax hsame
  | leaveAgain i v =>
    have htwo : M.depth place = 2 := hstands
    have hpos : 0 < M.depth place := by omega
    have hdepth := hleave hpos
    have hone : M.depth (M.leave s.word place).2 = 1 := by omega
    have hpos' : 0 < M.depth (M.leave s.word place).2 := by omega
    exact .go hpos (by rintro _ ⟨⟩) hpos' hone htold rfl rfl
  | place i v =>
    obtain ⟨rfl, hlength, rfl, hlt, hroom⟩ := htold
    have hone : M.depth place = 1 := hstands
    simp only [step, if_pos hroom]
    exact .stay (by omega) (by rintro _ ⟨⟩) hone ⟨⟨v, rfl⟩, hlength, rfl, hlt⟩ rfl rfl
  | raise i =>
    obtain ⟨⟨v, rfl⟩, hlength, rfl, hlt⟩ := htold
    have hone : M.depth place = 1 := hstands
    have hpos : 0 < M.depth place := by omega
    refine .stay hpos (by rintro _ ⟨⟩) hpos ?_ rfl rfl
    intro o hcall hanswer
    refine ⟨?_, (counted_append hcall hanswer).symm⟩
    rw [Answers, hcall]
    exact .inl ⟨hlt, hanswer⟩
  | leave a =>
    have hpos : 0 < M.depth place := hstands
    have hdepth := hleave hpos
    simp only [step]
    split
    · rename_i hzero
      exact .getOut hpos rfl hzero
    · rename_i hmore
      have hpos' : 0 < M.depth (M.leave s.word place).2 := Nat.pos_of_ne_zero hmore
      exact .go hpos (by rintro _ ⟨⟩) hpos' hpos' htold rfl rfl

end

/-! ## In every run -/

/-- An array around a store that holds `len` elements, and threads that have not used it yet. -/
def idle (M : Monitor) {α : Type} (store : Store α) (len : Nat) (config : Config) (threads : Nat)
    (limits : Limits) : Pool (Shared M α) (Client M α) :=
  ⟨ofStore M store len config limits, Array.replicate threads {}⟩

/-- The places of all threads. -/
def places {M : Monitor} {α : Type} (p : Pool (Shared M α) (Client M α)) : List M.Place :=
  p.threads.toList.map (·.place)

/-- What is kept of the array and its threads, when `es` was seen of them: a thread under way goes by
the number of elements that the operations so far have left, and so does the array while nobody is
inside. -/
structure Kept {M : Monitor} {α : Type} (Fits : M.Word → List M.Place → Prop) (len allowed : Nat)
    (es : List (Event (Call α) (Answer α))) (p : Pool (Shared M α) (Client M α)) : Prop where
  max_eq : p.shared.maxCapacity = allowed
  limits : p.shared.limits.Suffices allowed
  count_le : countAfter len (operations es) ≤ allowed
  fits : Fits p.shared.word (places p)
  stands : ∀ {t : Nat} {c : Client M α}, p.threads[t]? = some c →
    c.task.Stands M (M.depth c.place)
  told : ∀ {t : Nat} {c : Client M α} {call : Call α} {n : Nat}, p.threads[t]? = some c →
    pending? es t = some (call, n) → c.task.Told call (countAfter len (operations es)) p.shared
  free : (∀ {t : Nat} {c : Client M α}, p.threads[t]? = some c → M.depth c.place = 0) →
    p.shared.length = countAfter len (operations es)

section

variable {M : Monitor} {α : Type} {Fits : M.Word → List M.Place → Prop} {len allowed : Nat}
  {es : List (Event (Call α) (Answer α))} {p : Pool (Shared M α) (Client M α)} {t : Nat}
  {c : Client M α}

theorem places_get? (h : p.threads[t]? = some c) : (places p)[t]? = some c.place := by
  rw [places, List.getElem?_map, Array.getElem?_toList, h]
  rfl

theorem places_put (p : Pool (Shared M α) (Client M α)) (t : Nat) (s : Shared M α)
    (c : Client M α) : places (p.put t s c) = (places p).set t c.place := by
  rw [places, places, Pool.toList_put, List.map_set]

theorem idle_get? {store : Store α} {config : Config} {threads : Nat} {limits : Limits}
    (h : (idle M store len config threads limits).threads[t]? = some c) : c = {} := by
  obtain ⟨-, rfl⟩ := Array.getElem?_eq_some_iff.mp h
  simp [idle]

theorem kept_idle (hM : M.Excludes Fits) {store : Store α} {config : Config} {limits : Limits}
    (hlimits : limits.Suffices config.maxCapacity) (hlen : len ≤ config.maxCapacity)
    (threads : Nat) :
    Kept Fits len config.maxCapacity [] (idle M store len config threads limits) := by
  refine ⟨rfl, hlimits, hlen, ?_, ?_, ?_, ?_⟩
  · have hplaces : places (idle M store len config threads limits) =
        .replicate threads M.outside := by
      simp [places, idle]
    rw [hplaces]
    exact hM.idle threads
  · intro t c ht
    obtain rfl := idle_get? ht
    exact hM.outside
  · intro t c call n ht
    obtain rfl := idle_get? ht
    exact fun _ => trivial
  · exact fun _ => rfl

/-- While a thread is inside every other one is outside. -/
theorem Kept.outside (h : Kept Fits len allowed es p) (hM : M.Excludes Fits) {u : Nat}
    {d : Client M α} (ht : p.threads[t]? = some c) (hu : p.threads[u]? = some d) (htu : u ≠ t)
    (hin : 0 < M.depth c.place) : M.depth d.place = 0 :=
  hM.apart h.fits (Ne.symm htu) (places_get? ht) (places_get? hu) hin

/-- With one thread outside it is the others that matter. -/
theorem Kept.length_of_outside (h : Kept Fits len allowed es p) (ht : p.threads[t]? = some c)
    (hout : M.depth c.place = 0)
    (hothers : ∀ {u : Nat} {d : Client M α}, u ≠ t → p.threads[u]? = some d →
      M.depth d.place = 0) : p.shared.length = countAfter len (operations es) := by
  apply h.free
  intro u d hu
  by_cases hut : u = t
  · subst hut
    obtain rfl := Option.some.inj (ht.symm.trans hu)
    exact hout
  · exact hothers hut hu

/-- While a thread is inside, nothing it does matters to what the others go by. -/
theorem Kept.told_others (h : Kept Fits len allowed es p) (hM : M.Excludes Fits) {u : Nat}
    {d : Client M α} {call : Call α} {n m : Nat} {s : Shared M α} (ht : p.threads[t]? = some c)
    (hin : 0 < M.depth c.place) (hu : p.threads[u]? = some d) (hut : u ≠ t)
    (hcall : pending? es u = some (call, m)) : d.task.Told call n s := by
  have houtside := h.outside hM ht hu hut hin
  exact told_of_outside (houtside ▸ h.stands hu) (h.told hu hcall)

variable [Inhabited α]

/-- Wherever a thread steps, the word fits the places. -/
theorem Kept.fits_step (h : Kept Fits len allowed es p) (hM : M.Excludes Fits)
    (ht : p.threads[t]? = some c) : Fits (step t p.shared c).1.word
      ((places p).set t (step t p.shared c).2.place) := by
  have hplace := places_get? ht
  have hstands := h.stands ht
  have hsame : Fits p.shared.word ((places p).set t c.place) := by
    rw [set_of_getElem? hplace]
    exact h.fits
  rcases c with ⟨place, task⟩
  cases task with
  | enter | enterAgain => exact hM.seek h.fits hplace
  | leave => exact hM.leave h.fits hplace hstands
  | leaveAgain =>
    have htwo : M.depth place = 2 := hstands
    exact hM.leave h.fits hplace (show 0 < M.depth place by omega)
  | work call =>
    change Fits (work p.shared call).1.word _
    rw [(work_keeps p.shared call).2.2.2]
    exact hsame
  | grow i v =>
    have hword := (makeRoom_keeps p.shared (i + 1)).2.2.2
    simp only [step]
    generalize makeRoom p.shared (i + 1) = r at hword
    rcases r with ⟨s', _ | a⟩
    · exact hword ▸ hsame
    · exact hword ▸ hsame
  | place i v =>
    simp only [step]
    split <;> exact hsame
  | _ => exact hsame

/-- A thread at rest is handed a call. -/
theorem Kept.call (h : Kept Fits len allowed es p) (ht : p.threads[t]? = some c)
    (hrest : (machine M α).rests c = true) (call : Call α) :
    Kept Fits len allowed (es ++ [.called t call])
      (p.put t p.shared { c with task := .enter call }) := by
  have hset {u : Nat} {x : Client M α} :
      (p.put t p.shared { c with task := .enter call }).threads[u]? = some x ↔
        (u = t ∧ x = { c with task := .enter call }) ∨ (u ≠ t ∧ p.threads[u]? = some x) :=
    Pool.getElem?_put_iff ht
  have hout : M.depth c.place = 0 := by
    have hstands := h.stands ht
    rcases c with ⟨place, task⟩
    cases task with
    | rest => exact hstands
    | _ => cases hrest
  refine ⟨h.max_eq, h.limits, ?_, ?_, ?_, ?_, ?_⟩
  · rw [Machine.operations_called]
    exact h.count_le
  · rw [places_put, set_of_getElem? (places_get? ht)]
    exact h.fits
  · intro u x hu
    rcases hset.mp hu with ⟨rfl, rfl⟩ | ⟨-, hu'⟩
    · exact hout
    · exact h.stands hu'
  · intro u x call' m hu hcall
    rw [Machine.operations_called]
    rcases hset.mp hu with ⟨rfl, rfl⟩ | ⟨hut, hu'⟩
    · rw [Machine.pending?_called, if_pos rfl] at hcall
      cases hcall
      rfl
    · rw [Machine.pending?_of_ne es (Ne.symm hut)] at hcall
      exact h.told hu' hcall
  · intro hall
    rw [Machine.operations_called]
    exact h.length_of_outside ht hout fun hut hu => hall (hset.mpr (.inr ⟨hut, hu⟩))

/-- What is seen of a step, if the thread has come to rest. -/
def answer? (t : Nat) (c : Client M α) : Option (Event (Call α) (Answer α)) :=
  if (machine M α).rests c then ((machine M α).reply? c).map (.answered t) else none

/-- What is kept after a thread has moved. -/
theorem Kept.put (h : Kept Fits len allowed es p) (hM : M.Excludes Fits)
    (ht : p.threads[t]? = some c) {call : Call α} {n : Nat} (hpending : pending? es t = some (call, n))
    {s : Shared M α} {d : Client M α} (hfits : Fits s.word ((places p).set t d.place))
    (hmoving : Moving call (countAfter len (operations es)) p.shared c s d) :
    Kept Fits len allowed (es ++ (answer? t d).toList) (p.put t s d) := by
  have hset {u : Nat} {x : Client M α} : (p.put t s d).threads[u]? = some x ↔
      (u = t ∧ x = d) ∨ (u ≠ t ∧ p.threads[u]? = some x) := Pool.getElem?_put_iff ht
  have hself : (p.put t s d).threads[t]? = some d := hset.mpr (.inl ⟨rfl, rfl⟩)
  have hfits' : Fits (p.put t s d).shared.word (places (p.put t s d)) := by
    rw [places_put]
    exact hfits
  have hstands {u : Nat} {x : Client M α} (hu : (p.put t s d).threads[u]? = some x) :
      x.task.Stands M (M.depth x.place) := by
    rcases hset.mp hu with ⟨rfl, rfl⟩ | ⟨-, hu'⟩
    · exact hmoving.stands
    · exact h.stands hu'
  have htold := h.told ht hpending
  have hstands₀ := h.stands ht
  have hquiet {place : M.Place} {k : Task α} (hrest : ∀ a?, k ≠ .rest a?) :
      es ++ (answer? t (⟨place, k⟩ : Client M α)).toList = es := by
    rw [answer?, rests_of_ne hrest, if_neg Bool.false_ne_true, Option.toList_none, List.append_nil]
  cases hmoving with
  | @wait w place htask hzero =>
    rw [hquiet (by rintro _ ⟨⟩)]
    refine ⟨h.max_eq, h.limits, h.count_le, hfits', hstands, ?_, ?_⟩
    · intro u x call' m hu hcall'
      rcases hset.mp hu with ⟨rfl, rfl⟩ | ⟨-, hu'⟩
      · rw [hpending] at hcall'
        cases hcall'
        rfl
      · exact told_word w (h.told hu' hcall')
    · intro hout
      rw [htask] at hstands₀
      exact h.length_of_outside ht hstands₀ fun hut hu => hout (hset.mpr (.inr ⟨hut, hu⟩))
  | @getIn w place htask hone =>
    rw [hquiet (afterEnter_ne_rest call)]
    have hlength : p.shared.length = countAfter len (operations es) := by
      rw [htask] at hstands₀
      refine h.length_of_outside ht hstands₀ fun hut hu => ?_
      exact hM.apart hfits' (Ne.symm hut) (places_get? hself)
        (places_get? (hset.mpr (.inr ⟨hut, hu⟩))) (hone ▸ Nat.one_pos)
    refine ⟨h.max_eq, h.limits, h.count_le, hfits', hstands, ?_, ?_⟩
    · intro u x call' m hu hcall'
      rcases hset.mp hu with ⟨rfl, rfl⟩ | ⟨-, hu'⟩
      · rw [hpending] at hcall'
        cases hcall'
        exact told_word w (told_afterEnter hlength)
      · exact told_word w (h.told hu' hcall')
    · intro hout
      have hzero : M.depth place = 0 := hout hself
      omega
  | @go s place k hin hrest hpos hgo htold' hmax hlimits =>
    rw [hquiet hrest]
    refine ⟨hmax.trans h.max_eq, hlimits ▸ h.limits, h.count_le, hfits', hstands, ?_, ?_⟩
    · intro u x call' m hu hcall'
      rcases hset.mp hu with ⟨rfl, rfl⟩ | ⟨hut, hu'⟩
      · rw [hpending] at hcall'
        cases hcall'
        exact htold'
      · exact h.told_others hM ht hin hu' hut hcall'
    · intro hout
      have hzero : M.depth place = 0 := hout hself
      omega
  | @getOut w place a hin htask hzero =>
    have hseen : answer? t (⟨place, .rest (some a)⟩ : Client M α) = some (.answered t a) := rfl
    rw [htask] at htold
    obtain ⟨hdue, hlength⟩ := htold ⟨t, call, a, n, es⟩ rfl rfl
    have hcount : countAfter len (operations (es ++ [.answered t a])) =
        counted (countAfter len (operations es)) ⟨t, call, a, n, es⟩ := by
      rw [Machine.operations_answered a hpending, countAfter_concat]
    rw [hseen, Option.toList_some]
    refine ⟨h.max_eq, h.limits, ?_, hfits', hstands, ?_, ?_⟩
    · rw [h.max_eq] at hdue
      rw [hcount]
      exact hdue.counted_le h.count_le
    · intro u x call' m hu hcall'
      rcases hset.mp hu with ⟨rfl, rfl⟩ | ⟨hut, hu'⟩
      · exact trivial
      · rw [Machine.pending?_of_ne es (Ne.symm hut)] at hcall'
        exact h.told_others hM ht hin hu' hut hcall'
    · exact fun _ => hlength.trans hcount.symm

theorem rests_idle {store : Store α} {config : Config} {threads : Nat} {limits : Limits}
    (ht : (idle M store len config threads limits).threads[t]? = some c) :
    (machine M α).rests c = true := by
  obtain rfl := idle_get? ht
  rfl

theorem kept_after (hM : M.Excludes Fits) {limits : Limits} {config : Config}
    (hlimits : limits.Suffices config.maxCapacity) (hlen : len ≤ config.maxCapacity)
    (store : Store α) (threads : Nat) (turns : List (Turn (Call α))) :
    Kept Fits len config.maxCapacity
      ((machine M α).history (idle M store len config threads limits) turns)
      ((machine M α).run (idle M store len config threads limits) turns) := by
  induction turns using List.reverseRecOn with
  | nil => exact kept_idle hM hlimits hlen threads
  | append_singleton turns turn ih =>
    have hwaits {t : Nat} (hbusy : (machine M α).Busy
        ((machine M α).run (idle M store len config threads limits) turns) t) :=
      Machine.pending?_of_busy rests_idle hbusy
    rw [Machine.history_concat, Machine.run_concat]
    generalize (machine M α).history (idle M store len config threads limits) turns = es,
      (machine M α).run (idle M store len config threads limits) turns = p at ih hwaits
    have hmoves := Machine.moves_act (machine M α) p turn
    generalize (machine M α).event? p turn = e, (machine M α).act p turn = p' at hmoves
    cases hmoves with
    | idle =>
      rw [Option.toList_none, List.append_nil]
      exact ih
    | call ht hrest => exact ih.call ht hrest _
    | @step t luck c ht hbusy =>
      obtain ⟨call, n, hpending⟩ := hwaits ⟨c, ht, hbusy⟩
      refine ih.put hM ht hpending (ih.fits_step hM ht) ?_
      refine moving ?_ ?_ (ih.max_eq.symm ▸ ih.limits) (ih.max_eq.symm ▸ ih.count_le) hbusy
        (ih.stands ht) (ih.told ht hpending)
      · exact hM.enters ih.fits (places_get? ht)
      · exact fun hin => hM.leaves ih.fits (places_get? ht) hin

/-- Under a monitor the operations are answered, one after the other, what is due. -/
theorem legal_after (hM : M.Excludes Fits) {limits : Limits} {config : Config}
    (hlimits : limits.Suffices config.maxCapacity) (hlen : len ≤ config.maxCapacity)
    (store : Store α) (threads : Nat) (turns : List (Turn (Call α))) :
    Legal len config.maxCapacity (Full config.maxCapacity)
      (operations ((machine M α).history (idle M store len config threads limits) turns)) := by
  apply legal_of_turns
  intro before turn o _ hpast hseen hpending
  have hkept := kept_after hM hlimits hlen store threads before
  rw [hpast] at hpending
  generalize (machine M α).history (idle M store len config threads limits) before = es,
    (machine M α).run (idle M store len config threads limits) before = p at hkept hpending hseen
  obtain ⟨luck, c, rfl, ht, hbusy, hrest, hreply⟩ := Machine.step_of_answered hseen
  have htold := hkept.told ht hpending
  have hmoving : Moving o.call (countAfter len (operations es)) p.shared c
      (step o.thread p.shared c).1 (step o.thread p.shared c).2 :=
    moving (hM.enters hkept.fits (places_get? ht))
      (fun hin => hM.leaves hkept.fits (places_get? ht) hin) (hkept.max_eq.symm ▸ hkept.limits)
      (hkept.max_eq.symm ▸ hkept.count_le) hbusy (hkept.stands ht) htold
  change (machine M α).rests (step o.thread p.shared c).2 = true at hrest
  change (machine M α).reply? (step o.thread p.shared c).2 = some o.answer at hreply
  generalize step o.thread p.shared c = r at hrest hreply hmoving
  rcases r with ⟨s, ⟨place, task⟩⟩
  cases hmoving with
  | wait => cases hrest
  | getIn =>
    rw [rests_of_ne (afterEnter_ne_rest o.call)] at hrest
    cases hrest
  | go _ hnot =>
    rw [rests_of_ne hnot] at hrest
    cases hrest
  | getOut _ htask =>
    rw [htask] at htold
    rw [← hkept.max_eq]
    exact (htold o rfl (Option.some.inj hreply).symm).1

end

end Growable.SharedArray.Monitored
