import Growable.Proofs.SharedMap.Visits

/-!
# Who put a key in

A thread that puts a new key in is answered that there was no value, though only after its entry was
counted and the table was looked at. Until then it is the key's winner; from then on the answer
stands for it. The two together are one for every key that is in the map, whichever threads were
after the key, and none for the others.
-/

namespace Growable.SharedMap

open Machine (calls lastCall? replies)

section

variable {K V : Type}

/-- What a stage tells of the call, while these are the keys that were put in. -/
def Stage.Serves (keys : List K) (call : Call K V) : Stage K V → Prop
  | rest => True
  | before e => call = .errand e
  | pushed _ | resizing => ∃ k ∈ keys, call.inserted? = some k
  | decided _ => ∀ k, call.inserted? = some k → k ∈ keys
  | looking => call.inserted? = none

theorem Stage.Serves.mono {keys keys' : List K} {call : Call K V} {a : Stage K V}
    (h : a.Serves keys call) (hkeys : ∀ k ∈ keys, k ∈ keys') : a.Serves keys' call := by
  cases a with
  | rest | before | looking => exact h
  | pushed | resizing =>
    obtain ⟨k, hk, hcall⟩ := h
    exact ⟨k, hkeys k hk, hcall⟩
  | decided => exact fun k hk => hkeys k (h k hk)

theorem serves_ofCall (keys : List K) (call : Call K V) :
    (Task.ofCall call).stage.Serves keys call := by
  cases call <;> rfl

/-- Only a call that puts its key in pushes an entry. -/
theorem Errand.inserted?_of_outcome [DecidableEq K] {e : Errand K V} {h : UInt64}
    {es : List (Entry K V)} {n m : Nat} (hpushed : e.outcome h es n = .pushed m) :
    (Call.errand e).inserted? = some e.key := by
  cases e with
  | insert | insertIfAbsent => rfl
  | get | contains => cases hpushed

/-! ## Winners -/

/-- The key that a thread has put in without being answered yet. -/
def winner? (es : List (Machine.Event (Call K V) (Answer K V))) (t : Nat)
    (c : Client .layout K V) : Option K :=
  if c.task.stage.isNew then (lastCall? es t).bind Call.inserted? else none

/-- The keys that the threads have put in without being answered yet. -/
def winners (es : List (Machine.Event (Call K V) (Answer K V)))
    (p : Pool (Shared .layout K V) (Client .layout K V)) : List (Option K) :=
  p.threads.toList.mapIdx (winner? es)

/-- How many calls that put the key in were answered that there was no value. -/
def told [DecidableEq K] (es : List (Machine.Event (Call K V) (Answer K V))) (k : K) : Nat :=
  (replies es).countP fun r => r.1.inserted? == some k && r.2.isNew

variable {es es' : List (Machine.Event (Call K V) (Answer K V))}
  {p : Pool (Shared .layout K V) (Client .layout K V)} {t : Nat} {c d : Client .layout K V}
  {s : Shared .layout K V}

theorem getElem?_winners (ht : p.threads[t]? = some c) :
    (winners es p)[t]? = some (winner? es t c) := by
  rw [winners, List.getElem?_mapIdx, Array.getElem?_toList, ht]
  rfl

theorem winners_put (hes : ∀ u, u ≠ t → lastCall? es' u = lastCall? es u) :
    winners es' (p.put t s d) = (winners es p).set t (winner? es' t d) := by
  apply List.ext_getElem?
  intro u
  rw [winners, winners, List.getElem?_mapIdx, Pool.toList_put, List.getElem?_set,
    List.getElem?_set, List.getElem?_mapIdx, List.length_mapIdx]
  by_cases hu : t = u
  · subst hu
    rw [if_pos rfl, if_pos rfl]
    split <;> rfl
  · rw [if_neg hu, if_neg hu]
    refine congrArg (fun f => p.threads.toList[u]?.map f) (funext fun x => ?_)
    rw [winner?, winner?, hes u (Ne.symm hu)]

theorem winner?_of_call {call : Call K V} (hcall : lastCall? es t = some call) :
    winner? es t c = if c.task.stage.isNew then call.inserted? else none := by
  rw [winner?, hcall]
  rfl

theorem winner?_of_stage {a : Stage K V} (h : c.task.stage = a) (ha : a.isNew = false) :
    winner? es t c = none := by
  rw [winner?, h, ha, if_neg Bool.false_ne_true]

theorem told_answered [DecidableEq K] {call : Call K V} (a : Answer K V)
    (hcall : lastCall? es t = some call) (k : K) :
    told (es ++ [.answered t a]) k =
      told es k + if call.inserted? = some k ∧ a.isNew = true then 1 else 0 := by
  rw [told, Machine.replies_answered a hcall, List.countP_append, List.countP_singleton]
  simp [told]

/-- A visit that does not put its key in has found it. -/
theorem mem_keysOf_visit [DecidableEq K] {vs : List (Errand K V)} {e : Errand K V}
    (h : e.adds ((ledgerOf vs).lookup e.key) = false) (k : K) :
    k ∈ keysOf (vs ++ [e]) ↔ k ∈ keysOf vs := by
  rw [keysOf_concat, List.mem_append]
  refine or_iff_left_of_imp fun hk => ?_
  have hinserts : (Call.errand e).inserted? = some k := Option.mem_toList.mp hk
  rw [← mem_keys_ledgerOf_iff, ← not_not (a := k ∈ _), ← lookup_eq_none_iff_notMem]
  intro hnone
  obtain ⟨rfl, hadds⟩ := Errand.of_inserted? hinserts
  rw [hnone, hadds] at h
  cases h

/-- A visit that puts its key in is the first to do so. -/
theorem notMem_keysOf_visit [DecidableEq K] {vs : List (Errand K V)} {e : Errand K V}
    (h : e.adds ((ledgerOf vs).lookup e.key) = true) : e.key ∉ keysOf vs := by
  rw [← mem_keys_ledgerOf_iff, ← lookup_eq_none_iff_notMem]
  exact Errand.eq_none_of_adds h

/-- What a turn of one thread means for the keys that were put in, if `w` is its key before and `w'`
is its key afterwards. -/
inductive Winning [DecidableEq K] (es es' : List (Machine.Event (Call K V) (Answer K V)))
    (vs vs' : List (Errand K V)) (w w' : Option K) : Prop
  | same : w' = w → (∀ k, told es' k = told es k) → (∀ k, k ∈ keysOf vs' ↔ k ∈ keysOf vs) →
    Winning es es' vs vs' w w'
  /-- The thread puts a key in. -/
  | put {key : K} : w = none → w' = some key → (∀ k, told es' k = told es k) → key ∉ keysOf vs →
    (∀ k, k ∈ keysOf vs' ↔ k ∈ keysOf vs ∨ k = key) → Winning es es' vs vs' w w'
  /-- The thread is answered. -/
  | answer : w' = none → (∀ k, told es' k = told es k + if w = some k then 1 else 0) →
    (∀ k, k ∈ keysOf vs' ↔ k ∈ keysOf vs) → Winning es es' vs vs' w w'

/-- If there was one winner or answer for each key that was put in, there still is. -/
theorem Winning.count [DecidableEq K] {vs vs' : List (Errand K V)} {w w' : Option K}
    {ws : List (Option K)} (h : Winning es es' vs vs' w w') (hw : ws[t]? = some w) (k : K)
    (hone : ws.count (some k) + told es k = if k ∈ keysOf vs then 1 else 0) :
    (ws.set t w').count (some k) + told es' k = if k ∈ keysOf vs' then 1 else 0 := by
  have hset : (ws.set t w').count (some k) + (if w = some k then 1 else 0) =
      ws.count (some k) + if w' = some k then 1 else 0 := by
    have hset := countP_set_add (b := w') (· == some k) hw
    simp only [beq_iff_eq] at hset
    exact hset
  cases h with
  | same hsame htold hkeys =>
    rw [htold, if_congr (hkeys k) rfl rfl, ← hone]
    rw [hsame] at hset ⊢
    omega
  | @put key hnone hsome htold hnew hkeys =>
    rw [hnone, hsome, if_neg (Option.some_ne_none k).symm] at hset
    rw [htold, if_congr (hkeys k) rfl rfl, hsome]
    by_cases hk : k = key
    · subst hk
      rw [if_neg hnew] at hone
      rw [if_pos rfl] at hset
      rw [if_pos (.inr rfl)]
      omega
    · rw [if_neg (fun heq => hk (Option.some.inj heq).symm)] at hset
      rw [if_congr (or_iff_left hk) rfl rfl, ← hone]
      omega
  | answer hnone htold hkeys =>
    rw [hnone, if_neg (Option.some_ne_none k).symm] at hset
    rw [htold, if_congr (hkeys k) rfl rfl, ← hone, hnone]
    omega

end

/-! ## In every run -/

namespace Setup

variable {K V : Type} [DecidableEq K] {S : Setup K} {turns : List (Turn (Call K V))}
  {turn : Turn (Call K V)} {t : Nat} {c : Client .layout K V}

omit [DecidableEq K] in
theorem lastCall?_answered? (es : List (Machine.Event (Call K V) (Answer K V))) (t u : Nat)
    (k : Task K V) : lastCall? (es ++ (answered? t k).toList) u = lastCall? es u := by
  unfold answered?
  split
  · cases k.reply? with
    | none => exact congrArg (lastCall? · u) (List.append_nil es)
    | some a => exact Machine.lastCall?_answered ..
  · exact congrArg (lastCall? · u) (List.append_nil es)

/-- A step of a thread goes on with its call. -/
theorem serves_step {luck : Bool} {s : Shared .layout K V} {call : Call K V}
    {vs : List (Errand K V)} (hbusy : c.task.rests = false)
    (h : c.task.stage.Serves (keysOf vs) call) :
    (step S.hash luck s c).2.task.stage.Serves (keysOf (vs ++ c.task.errand?.toList)) call := by
  have hworking := working S.hash luck s c hbusy
  generalize step S.hash luck s c = r at hworking
  rcases r with ⟨s', ⟨place, task⟩⟩
  rcases c with ⟨place', task'⟩
  have hmono := h.mono fun k hk => mem_keysOf_append hk task'.errand?.toList
  cases hworking with
  | pass _ _ _ hstage => exact hstage ▸ hmono
  | look _ _ hlooking _ hdecided =>
    have hnone : call.inserted? = none := by
      have hserves := hmono
      rw [show (⟨place', task'⟩ : Client .layout K V).task.stage = .looking from hlooking] at hserves
      exact hserves
    rw [hdecided]
    intro k hk
    rw [hnone] at hk
    cases hk
  | answer => exact trivial
  | visit e =>
    obtain rfl : call = .errand e := h
    have hmem {k : K} (hk : (Call.errand e).inserted? = some k) : k ∈ keysOf (vs ++ [e]) := by
      rw [keysOf_concat, hk]
      exact List.mem_append_right _ (List.mem_singleton_self k)
    dsimp only [Task.stage]
    generalize ho : e.outcome _ _ _ = o
    cases o with
    | answer a => exact fun k hk => hmem hk
    | pushed n =>
      have hcall := Errand.inserted?_of_outcome ho
      exact ⟨_, hmem hcall, hcall⟩
  | count => exact trivial
  | countLoaded => exact hmono
  | grow =>
    obtain ⟨k, hk, hcall⟩ := hmono
    intro k' hk'
    obtain rfl : k = k' := Option.some.inj (hcall.symm.trans hk')
    exact hk

theorem serves_after (ht : (S.after turns).threads[t]? = some c) (hbusy : c.task.rests = false) :
    ∃ call, lastCall? (S.history turns) t = some call ∧
      c.task.stage.Serves (keysOf (S.visits turns)) call := by
  induction turns using List.reverseRecOn generalizing t c with
  | nil =>
    rw [eq_of_idle ht] at hbusy
    cases hbusy
  | append_singleton turns turn ih =>
    have hadvance := S.advance turns turn
    generalize S.after (turns ++ [turn]) = p', S.history (turns ++ [turn]) = es,
      S.visits (turns ++ [turn]) = vs at hadvance ht
    cases hadvance with
    | idle => exact ih ht hbusy
    | call call hu =>
      rw [Machine.lastCall?_called]
      rcases (Pool.getElem?_put_iff hu).mp ht with ⟨rfl, rfl⟩ | ⟨hne, ht'⟩
      · rw [if_pos rfl]
        exact ⟨call, rfl, serves_ofCall _ call⟩
      · rw [if_neg (Ne.symm hne)]
        exact ih ht' hbusy
    | step luck hu hbusy' =>
      rw [lastCall?_answered?]
      rcases (Pool.getElem?_put_iff hu).mp ht with ⟨rfl, rfl⟩ | ⟨-, ht'⟩
      · obtain ⟨call, hcall, hserves⟩ := ih hu hbusy'
        exact ⟨call, hcall, serves_step hbusy' hserves⟩
      · obtain ⟨call, hcall, hserves⟩ := ih ht' hbusy
        exact ⟨call, hcall, hserves.mono fun k hk => mem_keysOf_append hk _⟩

/-- Only a visit makes a thread the winner of a key, and only an answer ends that. -/
theorem winning_step {es : List (Machine.Event (Call K V) (Answer K V))} {vs : List (Errand K V)}
    {p : Pool (Shared .layout K V) (Client .layout K V)} {initial : Nat} {call : Call K V}
    (luck : Bool) (hbusy : c.task.rests = false) (hcall : lastCall? es t = some call)
    (hserves : c.task.stage.Serves (keysOf vs) call)
    (h : Accounted S.hash initial (ledgerOf vs) p) :
    Winning es (es ++ (answered? t (step S.hash luck p.shared c).2.task).toList) vs
      (vs ++ c.task.errand?.toList) (winner? es t c)
      (winner? (es ++ (answered? t (step S.hash luck p.shared c).2.task).toList) t
        (step S.hash luck p.shared c).2) := by
  have hworking := working S.hash luck p.shared c hbusy
  generalize step S.hash luck p.shared c = r at hworking
  rcases r with ⟨s', ⟨place, task⟩⟩
  rcases c with ⟨place', task'⟩
  have hquiet {task : Task K V} (hrests : task.rests = false) :
      es ++ (answered? t task).toList = es := by
    rw [answered?, hrests]
    exact List.append_nil es
  have hnone (hno : task'.errand? = none) : vs ++ task'.errand?.toList = vs := by
    rw [hno]
    exact List.append_nil vs
  cases hworking with
  | pass hno _ _ hstage =>
    have hrests : task.rests = false := by
      rw [Bool.eq_false_iff, ne_eq, Task.rests_iff_stage, hstage, ← Task.rests_iff_stage]
      exact Bool.eq_false_iff.mp hbusy
    rw [hquiet hrests, hnone hno]
    refine .same ?_ (fun _ => rfl) fun _ => Iff.rfl
    rw [winner?, winner?, hstage]
  | look _ _ hlooking hnew hdecided =>
    rw [hquiet (Task.rests_of_stage hdecided (by rintro ⟨⟩)),
      hnone (Task.errand?_of_stage hlooking (by rintro e ⟨⟩))]
    refine .same ?_ (fun _ => rfl) fun _ => Iff.rfl
    rw [winner?_of_stage hlooking rfl, winner?_of_stage hdecided hnew]
  | @answer _ _ a _ _ hstage =>
    have hno : task'.errand? = none := by
      rcases hstage with hdecided | ⟨hlooking, -⟩
      · exact Task.errand?_of_stage hdecided (by rintro e ⟨⟩)
      · exact Task.errand?_of_stage hlooking (by rintro e ⟨⟩)
    rw [hnone hno]
    refine .answer (winner?_of_stage rfl rfl) (fun k => ?_) fun _ => Iff.rfl
    change told (es ++ [.answered t a]) k = _
    rw [told_answered a hcall, winner?_of_call hcall]
    rcases hstage with hdecided | ⟨hlooking, hnew⟩
    · rw [show Task.stage _ = .decided a from hdecided]
      cases hnew : a.isNew <;> simp [Stage.isNew, hnew]
    · rw [show Task.stage _ = .looking from hlooking, hnew]
      simp [Stage.isNew]
  | visit e =>
    obtain rfl : call = .errand e := hserves
    rw [hquiet rfl]
    have hout := h.outcome_visit e
    rw [hout]
    cases hadds : e.adds ((ledgerOf vs).lookup e.key) with
    | true =>
      have hwon := Errand.inserted?_of_adds hadds
      refine .put (winner?_of_stage rfl rfl) ((winner?_of_call hcall).trans hwon) (fun _ => rfl)
        (notMem_keysOf_visit hadds) fun k => ?_
      change k ∈ keysOf (vs ++ [e]) ↔ _
      rw [keysOf_concat, hwon]
      simp
    | false =>
      refine .same ?_ (fun _ => rfl) (mem_keysOf_visit hadds)
      rw [winner?_of_stage (c := ⟨place', .visit e⟩) rfl rfl, winner?_of_call hcall]
      cases hinserts : (Call.errand e).inserted? with
      | none => exact ite_self none
      | some k =>
        have hnew := Errand.isNew_answerTo hinserts ((ledgerOf vs).lookup e.key)
        rw [hadds] at hnew
        exact if_neg (by simp [Task.stage, Outcome.stage, Stage.isNew, hnew])
  | count =>
    refine .answer (winner?_of_stage rfl rfl) (fun k => ?_) fun _ => ?_
    · change told (es ++ [.answered t (.found none)]) k = _
      rw [told_answered _ hcall, winner?_of_call hcall]
      simp [Task.stage, Stage.isNew, Answer.isNew]
    · rw [hnone rfl]
  | countLoaded =>
    rw [hquiet rfl, hnone rfl]
    exact .same rfl (fun _ => rfl) fun _ => Iff.rfl
  | grow =>
    rw [hquiet rfl, hnone rfl]
    exact .same rfl (fun _ => rfl) fun _ => Iff.rfl

omit [DecidableEq K] in
theorem notMem_winners_idle (S : Setup K) (es : List (Machine.Event (Call K V) (Answer K V)))
    (k : K) : some k ∉ winners es S.idle := by
  intro hmem
  obtain ⟨t, ht⟩ := List.mem_iff_getElem?.mp hmem
  rw [winners, List.getElem?_mapIdx, Array.getElem?_toList] at ht
  obtain ⟨c, hc, hw⟩ := Option.map_eq_some_iff.mp ht
  rw [eq_of_idle hc] at hw
  cases hw

/-- Each key that was put in has one winner, or one call was answered that there was no value. -/
theorem winners_after (hkeys : (ledgerOf (S.visits turns)).length < 2 ^ 62) (k : K) :
    (winners (S.history turns) (S.after turns)).count (some k) + told (S.history turns) k =
      if k ∈ keysOf (S.visits turns) then 1 else 0 := by
  induction turns using List.reverseRecOn with
  | nil =>
    have hnobody := List.count_eq_zero.mpr
      (notMem_winners_idle S ([] : List (Machine.Event (Call K V) (Answer K V))) k)
    change (winners [] S.idle).count (some k) + 0 = 0
    rw [hnobody]
  | append_singleton turns turn ih =>
    have hfew := Nat.lt_of_le_of_lt (S.length_ledgerOf_le turns turn) hkeys
    have hone := ih hfew
    have hadvance := S.advance turns turn
    generalize S.after (turns ++ [turn]) = p', S.history (turns ++ [turn]) = es,
      S.visits (turns ++ [turn]) = vs at hadvance
    cases hadvance with
    | idle => exact hone
    | @call t c call ht hrest =>
      have hothers (u : Nat) (hu : u ≠ t) :
          lastCall? (S.history turns ++ [.called t call]) u = lastCall? (S.history turns) u := by
        rw [Machine.lastCall?_called, if_neg (Ne.symm hu)]
      rw [winners_put hothers]
      have hwinning : Winning (S.history turns) (S.history turns ++ [.called t call])
          (S.visits turns) (S.visits turns) (winner? (S.history turns) t c)
          (winner? (S.history turns ++ [.called t call]) t { c with task := .ofCall call }) := by
        refine .same ?_ (fun k => ?_) fun _ => Iff.rfl
        · have hstage := Task.stage_ofCall call
          rw [winner?_of_stage ((Task.rests_iff_stage _).mp hrest) rfl]
          cases call <;> exact winner?_of_stage hstage rfl
        · rw [told, Machine.replies_called]
          rfl
      exact hwinning.count (getElem?_winners ht) k hone
    | @step t c luck ht hbusy =>
      obtain ⟨call, hcall, hserves⟩ := serves_after ht hbusy
      rw [winners_put fun u _ => lastCall?_answered? _ t u _]
      exact (winning_step luck hbusy hcall hserves (accounted_after hfew)).count
        (getElem?_winners ht) k hone

end Setup

end Growable.SharedMap
