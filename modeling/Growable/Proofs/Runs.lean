import Growable.Proofs.Alone
import Growable.Proofs.Threads
import Mathlib.Data.List.Induction

/-!
# Watching a run

An observer writes down what it sees of every turn of a run; `Machine.observe` is its list. A thread
finds things out in the middle of a call and answers later, so what it answers was so at some moment
of the call: `Machine.During` says that, and `Machine.busy_invariant` is the induction along a run by
which such statements about the threads under way are proved.
-/

namespace Growable

/-! ## Since -/

/-- `P` held at some moment of the past, and `Q` has held from then on. -/
inductive Since {ε : Type} (Q P : List ε → Prop) : List ε → Prop where
  | now {past : List ε} : Q past → P past → Since Q P past
  | later {past : List ε} {e : ε} : Since Q P past → Q (past ++ [e]) → Since Q P (past ++ [e])

namespace Since

variable {ε : Type} {Q P P' : List ε → Prop} {past : List ε}

theorem mono (h : Since Q P past) (hP : ∀ past, P past → P' past) : Since Q P' past := by
  induction h with
  | now hQ hp => exact .now hQ (hP _ hp)
  | later _ hQ ih => exact .later ih hQ

/-- What held at some moment and is never lost again still holds. -/
theorem lasting (h : Since Q P past) (hP : ∀ past e, P past → P (past ++ [e])) : P past := by
  induction h with
  | now _ hp => exact hp
  | later _ _ ih => exact hP _ _ ih

theorem still (h : Since Q P past) : Q past := by
  cases h with
  | now hQ => exact hQ
  | later _ hQ => exact hQ

end Since

namespace Machine

variable {σ τ κ ρ ε : Type} {m : Machine σ τ κ ρ} {p : Pool σ τ} {i : Nat}
  {turns : List (Turn κ)}

theorem run_concat (m : Machine σ τ κ ρ) (p : Pool σ τ) (turns : List (Turn κ)) (turn : Turn κ) :
    m.run p (turns ++ [turn]) = m.act (m.run p turns) turn := by
  rw [run_append]
  rfl

/-- What a turn does to a pool, whatever is seen of it. -/
inductive Acts (m : Machine σ τ κ ρ) (p : Pool σ τ) : Turn κ → Pool σ τ → Prop
  | idle {turn : Turn κ} : (∀ {i : Nat} {luck : Bool} {t : τ}, turn = .step i luck →
      p.threads[i]? = some t → m.rests t = true) → Acts m p turn p
  | call {i : Nat} {c : κ} {t : τ} : p.threads[i]? = some t → m.rests t = true →
      Acts m p (.call i c) (p.put i p.shared (m.start c t))
  | step {i : Nat} {luck : Bool} {t : τ} : p.threads[i]? = some t → m.rests t = false →
      Acts m p (.step i luck)
        (p.put i (m.step i luck p.shared t).1 (m.step i luck p.shared t).2)

theorem acts (m : Machine σ τ κ ρ) (p : Pool σ τ) (turn : Turn κ) : m.Acts p turn (m.act p turn) := by
  have hmoves := moves_act m p turn
  generalize m.event? p turn = e, m.act p turn = p' at hmoves
  cases hmoves with
  | idle hidle => exact .idle hidle
  | call ht hrest => exact .call ht hrest
  | step ht hrest => exact .step ht hrest

/-- A call is answered by a step of its thread. -/
theorem step_of_answered {turn : Turn κ} {r : ρ} (h : m.event? p turn = some (.answered i r)) :
    ∃ luck t, turn = .step i luck ∧ p.threads[i]? = some t ∧ m.rests t = false ∧
      m.rests (m.step i luck p.shared t).2 = true ∧
      m.reply? (m.step i luck p.shared t).2 = some r := by
  cases turn with
  | call j c =>
    obtain ⟨t, -, hseen⟩ := Option.bind_eq_some_iff.mp h
    obtain ⟨-, hcalled⟩ := Option.ite_none_right_eq_some.mp hseen
    cases hcalled
  | step j luck =>
    obtain ⟨t, ht, hseen⟩ := Option.bind_eq_some_iff.mp h
    obtain ⟨hrests, hreply⟩ := Option.ite_none_right_eq_some.mp hseen
    obtain ⟨hbusy, hrest⟩ := Bool.and_eq_true_iff.mp hrests
    obtain ⟨r', hr, hanswered⟩ := Option.map_eq_some_iff.mp hreply
    cases hanswered
    exact ⟨luck, t, rfl, ht, by simpa using hbusy, hrest, hr⟩

/-- The steps of a thread by itself leave the other threads where they are. -/
theorem run_put_of_goes {me n : Nat} {a b : σ × τ} (h : m.Goes me n a b) (hs : p.shared = a.1)
    (ht : p.threads[me]? = some a.2) :
    ∃ k, m.run p (List.replicate k (.step me true)) = p.put me b.1 b.2 := by
  induction h generalizing p with
  | refl n a =>
    obtain ⟨hlt, hget⟩ := Array.getElem?_eq_some_iff.mp ht
    refine ⟨0, ?_⟩
    simp only [List.replicate_zero, run_nil, Pool.put, ← hs, ← hget]
    rw [Array.setIfInBounds, dif_pos hlt, Array.set_getElem_self]
  | @step n a b hrest _ ih =>
    have hact : m.act p (.step me true) = _ := act_step ht hrest
    rw [hs] at hact
    have hthread : (m.act p (.step me true)).threads[me]? = some (m.step me true a.1 a.2).2 := by
      rw [hact]
      exact (Pool.getElem?_put_iff ht).mpr (.inl ⟨rfl, rfl⟩)
    obtain ⟨k, hend⟩ := ih (congrArg Pool.shared hact) hthread
    refine ⟨k + 1, ?_⟩
    rw [hact] at hend
    rw [List.replicate_succ, run, List.foldl_cons, ← run, hact, hend]
    simp [Pool.put]

/-- The steps of a thread by itself are turns that only it takes. -/
theorem run_of_goes {me n : Nat} {a b : σ × τ} (h : m.Goes me n a b) {p : Pool σ τ}
    (hs : p.shared = a.1) (ht : p.threads[me]? = some a.2) :
    ∃ k, (m.run p (List.replicate k (.step me true))).shared = b.1 ∧
      (m.run p (List.replicate k (.step me true))).threads[me]? = some b.2 := by
  obtain ⟨k, hrun⟩ := run_put_of_goes h hs ht
  refine ⟨k, ?_⟩
  rw [hrun]
  exact ⟨rfl, (Pool.getElem?_put_iff ht).mpr (.inl ⟨rfl, rfl⟩)⟩

/-! ## Observers -/

/-- What is seen of the step that a turn lets a thread take. -/
def seenOfStep? (seen? : Nat → σ → τ → Option ε) (p : Pool σ τ) : Turn κ → Option ε
  | .call .. => none
  | .step i _ => p.threads[i]?.bind (seen? i p.shared)

theorem seenOfStep?_of_step {seen? : Nat → σ → τ → Option ε} {luck : Bool} {t : τ}
    (ht : p.threads[i]? = some t) :
    seenOfStep? seen? p (.step i luck : Turn κ) = seen? i p.shared t := by
  rw [seenOfStep?, ht]
  rfl

/-- Of threads at rest nothing is seen. -/
theorem seenOfStep?_of_idle {seen? : Nat → σ → τ → Option ε} {turn : Turn κ}
    (hseen : ∀ i s t, m.rests t = true → seen? i s t = none)
    (hidle : ∀ {i : Nat} {luck : Bool} {t : τ}, turn = .step i luck → p.threads[i]? = some t →
      m.rests t = true) : seenOfStep? seen? p turn = none := by
  cases turn with
  | call => rfl
  | step i luck =>
    cases ht : p.threads[i]? with
    | none => rw [seenOfStep?, ht]; rfl
    | some t =>
      rw [seenOfStep?_of_step ht]
      exact hseen i _ t (hidle rfl ht)

/-- What an observer of the turns of a run writes down, the earliest first. -/
def observe (m : Machine σ τ κ ρ) (seen? : Pool σ τ → Turn κ → Option ε) (p : Pool σ τ) :
    List (Turn κ) → List ε
  | [] => []
  | turn :: turns => (seen? p turn).toList ++ m.observe seen? (m.act p turn) turns

theorem observe_append (m : Machine σ τ κ ρ) (seen? : Pool σ τ → Turn κ → Option ε)
    (p : Pool σ τ) (turns more : List (Turn κ)) :
    m.observe seen? p (turns ++ more) =
      m.observe seen? p turns ++ m.observe seen? (m.run p turns) more := by
  induction turns generalizing p with
  | nil => rfl
  | cons first turns ih => rw [List.cons_append, observe, ih, observe, List.append_assoc]; rfl

theorem observe_concat (m : Machine σ τ κ ρ) (seen? : Pool σ τ → Turn κ → Option ε)
    (p : Pool σ τ) (turns : List (Turn κ)) (turn : Turn κ) :
    m.observe seen? p (turns ++ [turn]) =
      m.observe seen? p turns ++ (seen? (m.run p turns) turn).toList := by
  rw [observe_append, observe, observe, List.append_nil]

/-- What was written down stays. -/
theorem observe_mono (m : Machine σ τ κ ρ) (seen? : Pool σ τ → Turn κ → Option ε)
    (p : Pool σ τ) {past : List (Turn κ)} (h : past <+: turns) :
    m.observe seen? p past <+: m.observe seen? p turns := by
  obtain ⟨more, rfl⟩ := h
  rw [observe_append]
  exact List.prefix_append ..

theorem history_eq_observe (m : Machine σ τ κ ρ) (p : Pool σ τ) (turns : List (Turn κ)) :
    m.history p turns = m.observe m.event? p turns := by
  induction turns generalizing p with
  | nil => rfl
  | cons turn turns ih => rw [history, ih, observe]

theorem history_concat (m : Machine σ τ κ ρ) (p : Pool σ τ) (turns : List (Turn κ))
    (turn : Turn κ) : m.history p (turns ++ [turn]) =
      m.history p turns ++ (m.event? (m.run p turns) turn).toList := by
  rw [history_eq_observe, observe_concat, history_eq_observe]

/-! ## Calls and their answers -/

/-- The calls that were handed out. -/
def calls (es : List (Event κ ρ)) : List κ :=
  es.filterMap fun
    | .called _ c => some c
    | .answered .. => none

/-- The call that an answer is given to. -/
def answeredCall? (past : List (Event κ ρ)) : Event κ ρ → Option (κ × ρ)
  | .called .. => none
  | .answered i r => (lastCall? past i).map (·, r)

/-- The calls that were answered after what was seen in the past, with their answers. -/
def repliesAfter (past : List (Event κ ρ)) : List (Event κ ρ) → List (κ × ρ)
  | [] => []
  | e :: es => (answeredCall? past e).toList ++ repliesAfter (past ++ [e]) es

/-- The calls that were answered, with their answers. -/
def replies (es : List (Event κ ρ)) : List (κ × ρ) := repliesAfter [] es

theorem calls_concat (es : List (Event κ ρ)) (i : Nat) (c : κ) :
    calls (es ++ [.called i c]) = calls es ++ [c] := by
  simp [calls]

theorem calls_answered (es : List (Event κ ρ)) (i : Nat) (r : ρ) :
    calls (es ++ [.answered i r]) = calls es := by
  simp [calls]

theorem repliesAfter_concat (past es : List (Event κ ρ)) (e : Event κ ρ) :
    repliesAfter past (es ++ [e]) =
      repliesAfter past es ++ (answeredCall? (past ++ es) e).toList := by
  induction es generalizing past with
  | nil => simp [repliesAfter]
  | cons first es ih =>
    rw [List.cons_append, repliesAfter, repliesAfter, ih, List.append_assoc, List.append_assoc]
    rfl

theorem replies_called (es : List (Event κ ρ)) (i : Nat) (c : κ) :
    replies (es ++ [.called i c]) = replies es := by
  rw [replies, repliesAfter_concat]
  exact List.append_nil _

theorem replies_answered {es : List (Event κ ρ)} {i : Nat} {c : κ} (r : ρ)
    (hcall : lastCall? es i = some c) :
    replies (es ++ [.answered i r]) = replies es ++ [(c, r)] := by
  rw [replies, repliesAfter_concat, List.nil_append, answeredCall?, hcall]
  rfl

/-- The last call of a thread was handed out. -/
theorem mem_calls_of_lastCall? {es : List (Event κ ρ)} {c : κ} (h : lastCall? es i = some c) :
    c ∈ calls es := by
  obtain ⟨e, hmem, he⟩ := List.exists_of_findSome?_eq_some h
  cases e with
  | answered => cases he
  | called j d =>
    obtain ⟨-, hd⟩ := Option.ite_none_right_eq_some.mp he
    cases hd
    exact List.mem_filterMap.mpr ⟨_, List.mem_reverse.mp hmem, rfl⟩

/-! ## Threads under way -/

/-- A call of thread `i` is under way. -/
def Busy (m : Machine σ τ κ ρ) (p : Pool σ τ) (i : Nat) : Prop :=
  ∃ t, p.threads[i]? = some t ∧ m.rests t = false

/-- `P` held at some moment of the call that thread `i` is at. -/
def During (m : Machine σ τ κ ρ) (p : Pool σ τ) (i : Nat) (P : List (Turn κ) → Prop) :
    List (Turn κ) → Prop :=
  Since (fun past => m.Busy (m.run p past) i) P

/-- A thread that is under way stays at the call it was handed. -/
theorem lastCall?_of_busy (hbusy : m.Busy (m.run p turns) i) (turn : Turn κ) :
    lastCall? (m.history p (turns ++ [turn])) i = lastCall? (m.history p turns) i := by
  obtain ⟨t, ht, hrest⟩ := hbusy
  rw [history_concat]
  have hmoves := moves_act m (m.run p turns) turn
  generalize m.event? (m.run p turns) turn = e, m.act (m.run p turns) turn = p' at hmoves
  cases hmoves with
  | idle => rw [Option.toList_none, List.append_nil]
  | @call j c u hu hidle =>
    split
    · rw [Option.toList_none, List.append_nil]
    · rw [Option.toList_some, lastCall?_called, if_neg]
      rintro rfl
      rw [Option.some.inj (hu.symm.trans ht), hrest] at hidle
      cases hidle
  | step =>
    split
    · cases m.reply? _ with
      | none => rw [Option.map_none, Option.toList_none, List.append_nil]
      | some r => rw [Option.map_some, Option.toList_some, lastCall?_answered]
    · rw [Option.toList_none, List.append_nil]

theorem lastCall?_of_call {t : τ} (c : κ) (ht : (m.run p turns).threads[i]? = some t)
    (hrest : m.rests t = true) (hstart : m.rests (m.start c t) = false) :
    lastCall? (m.history p (turns ++ [.call i c])) i = some c := by
  rw [history_concat]
  simp [event?, ht, hrest, hstart, lastCall?_called]

/-- The moment of a call, and what was seen of the run since: the thread was handed no call. -/
theorem During.moment {P : List (Turn κ) → Prop} (h : m.During p i P turns) :
    ∃ before es, P before ∧ m.history p turns = m.history p before ++ es ∧
      ∀ c, .called i c ∉ es := by
  induction h with
  | @now past _ hP => exact ⟨past, [], hP, (List.append_nil _).symm, fun c => List.not_mem_nil⟩
  | @later past turn hsince _ ih =>
    obtain ⟨before, es, hP, hhistory, hnot⟩ := ih
    refine ⟨before, es ++ (m.event? (m.run p past) turn).toList, hP, ?_, ?_⟩
    · rw [history_concat, hhistory, List.append_assoc]
    · intro c hmem
      rcases List.mem_append.mp hmem with hold | hnew
      · exact hnot c hold
      · obtain ⟨t, ht, hbusy⟩ := hsince.still
        have hevent := Option.mem_toList.mp hnew
        cases turn with
        | call j d =>
          obtain ⟨u, hu, hseen⟩ := Option.bind_eq_some_iff.mp hevent
          obtain ⟨hrests, hcalled⟩ := Option.ite_none_right_eq_some.mp hseen
          cases hcalled
          rw [Option.some.inj (hu.symm.trans ht), hbusy] at hrests
          cases hrests
        | step j luck =>
          obtain ⟨u, -, hseen⟩ := Option.bind_eq_some_iff.mp hevent
          obtain ⟨-, hreply⟩ := Option.ite_none_right_eq_some.mp hseen
          obtain ⟨r, -, hanswered⟩ := Option.map_eq_some_iff.mp hreply
          cases hanswered

/-- What is said of a thread under way is said of it when it is handed a call, when it has taken a
step that does not lead to rest, and when another turn has passed it by. -/
theorem busy_invariant (Φ : List (Turn κ) → Nat → τ → Prop)
    (hidle : ∀ {i : Nat} {t : τ}, p.threads[i]? = some t → m.rests t = true)
    (hcall : ∀ {turns : List (Turn κ)} {i : Nat} {t : τ} (c : κ),
      (m.run p turns).threads[i]? = some t → m.rests t = true →
      Φ (turns ++ [.call i c]) i (m.start c t))
    (hstep : ∀ {turns : List (Turn κ)} {i : Nat} {t : τ} (luck : Bool),
      (m.run p turns).threads[i]? = some t → m.rests t = false → Φ turns i t →
      m.rests (m.step i luck (m.run p turns).shared t).2 = false →
      Φ (turns ++ [.step i luck]) i (m.step i luck (m.run p turns).shared t).2)
    (hother : ∀ {turns : List (Turn κ)} {i : Nat} {t : τ} (turn : Turn κ),
      (∀ luck, turn ≠ .step i luck) → (m.run p turns).threads[i]? = some t →
      (m.run p (turns ++ [turn])).threads[i]? = some t → m.rests t = false → Φ turns i t →
      Φ (turns ++ [turn]) i t)
    {turns : List (Turn κ)} {i : Nat} {t : τ} (ht : (m.run p turns).threads[i]? = some t)
    (hbusy : m.rests t = false) : Φ turns i t := by
  induction turns using List.reverseRecOn generalizing i t with
  | nil =>
    rw [hidle ht] at hbusy
    cases hbusy
  | append_singleton turns turn ih =>
    have ht' := ht
    rw [run_concat] at ht'
    have hacts := acts m (m.run p turns) turn
    generalize m.act (m.run p turns) turn = p' at hacts ht'
    cases hacts with
    | idle hidle =>
      refine hother turn ?_ ht' ht hbusy (ih ht' hbusy)
      rintro luck rfl
      rw [hidle rfl ht'] at hbusy
      cases hbusy
    | call hu hrest =>
      rcases (Pool.getElem?_put_iff hu).mp ht' with ⟨rfl, rfl⟩ | ⟨-, ht''⟩
      · exact hcall _ hu hrest
      · exact hother _ (by rintro luck ⟨⟩) ht'' ht hbusy (ih ht'' hbusy)
    | step hu hrest =>
      rcases (Pool.getElem?_put_iff hu).mp ht' with ⟨rfl, rfl⟩ | ⟨hne, ht''⟩
      · exact hstep _ hu hrest (ih hu hrest) hbusy
      · refine hother _ ?_ ht'' ht hbusy (ih ht'' hbusy)
        rintro luck ⟨⟩
        exact hne rfl

end Machine

end Growable
