import Growable.Proofs.Lock.Solo
import Growable.Proofs.SharedArray.Parts
import Growable.SharedArray.Monitored

/-!
# An array under a monitor by itself

A thread that has the monitor to itself gets in, does what `Parts.perform` says and leaves the
monitor free again, whether or not an append enters a second time to make room. An access to a slot
the store does not have is broken off.
-/

namespace Growable.SharedArray.Monitored

open Lock (Monitor)

variable {M : Monitor} {α : Type} [Inhabited α]

/-- What the array is to a thread by itself, with this word of the monitor. -/
structure Holds (s : Shared M α) (word : M.Word) (limits : Limits) (allowed : Nat) (p : Parts α) :
    Prop where
  word : s.word = word
  store : s.store = p.store
  length : s.length = p.length
  allowed : s.maxCapacity = allowed
  limits : s.limits = limits

/-- An access past the end of the store is broken off. -/
def beyond (_ : Access α) (_ _ : Nat) : Answer α := .brokenOff

variable {s : Shared M α} {word : M.Word} {place : M.Place} {limits : Limits} {allowed me : Nat}
  {p : Parts α}

theorem makeRoom_ok {required : Nat} {q : Parts α} (h : Holds s word limits allowed p)
    (hq : p.makeRoom limits allowed required = .ok q) :
    ∃ s', makeRoom s required = (s', none) ∧ Holds s' word limits allowed q := by
  have hroom := Parts.room_makeRoom limits allowed p required
  rw [hq] at hroom
  unfold makeRoom
  rw [h.store, h.allowed, h.limits]
  cases hroom with
  | there hfits => exact ⟨s, if_pos hfits, h⟩
  | made hlt hn hholds =>
    simp only [if_neg (Nat.not_le.mpr hlt), hn, hholds, if_true]
    exact ⟨_, rfl, h.word, rfl, h.length, rfl, rfl⟩

theorem makeRoom_error {required : Nat} {a : Answer α} (h : Holds s word limits allowed p)
    (ha : p.makeRoom limits allowed required = .error a) :
    ∃ s', makeRoom s required = (s', some a) ∧ Holds s' word limits allowed p := by
  have hroom := Parts.room_makeRoom limits allowed p required
  rw [ha] at hroom
  unfold makeRoom
  rw [h.store, h.allowed, h.limits]
  cases hroom with
  | refused hlt he => exact ⟨s, by simp only [if_neg (Nat.not_le.mpr hlt), he], h⟩
  | overflowed hlt hn hholds =>
    simp only [if_neg (Nat.not_le.mpr hlt), hn, hholds, Bool.false_eq_true, if_false]
    exact ⟨_, rfl, h.word, rfl, h.length, rfl, rfl⟩

/-- What a thread inside does of a call other than an append. -/
theorem work_spec (h : Holds s word limits allowed p) {c : Call α} (hc : ∀ v, c ≠ .append v) :
    Holds (work s c).1 word limits allowed (p.perform limits allowed p.length beyond c).1 ∧
      (work s c).2 = (p.perform limits allowed p.length beyond c).2 := by
  cases c with
  | append v => exact absurd rfl (hc v)
  | read i =>
    by_cases hlt : i < p.length
    · cases hget : p.store.get? i <;>
        simpa [work, checkBounds, h.length, hlt, h.store, hget, Parts.perform, Parts.access, beyond]
          using h
    · simpa [work, checkBounds, h.length, hlt, Parts.perform, Parts.access] using h
  | write i v =>
    by_cases hlt : i < p.length
    · by_cases hroom : i < p.store.capacity
      · have hget : p.store.get? i = some p.store.slots[i] := Array.getElem?_eq_getElem hroom
        simp only [work, checkBounds, h.length, if_pos hlt, h.store, if_pos hroom, Parts.perform,
          Parts.access, hget, and_true]
        exact ⟨h.word, rfl, rfl, h.allowed, h.limits⟩
      · have hget : p.store.get? i = none := Array.getElem?_eq_none (Nat.le_of_not_lt hroom)
        simpa [work, checkBounds, h.length, hlt, h.store, hroom, hget, Parts.perform, Parts.access,
          beyond] using h
    · simpa [work, checkBounds, h.length, hlt, Parts.perform, Parts.access] using h
  | ensureCapacity n =>
    cases hq : p.makeRoom limits allowed n with
    | ok q =>
      obtain ⟨s', hs', h'⟩ := makeRoom_ok h hq
      simpa [work, hs', Parts.perform, hq] using h'
    | error a =>
      obtain ⟨s', hs', h'⟩ := makeRoom_error h hq
      simpa [work, hs', Parts.perform, hq] using h'
  | toArray => exact ⟨h, by simp [work, Parts.perform, h.store, h.length]⟩
  | length => exact ⟨h, by simp [work, Parts.perform, h.length]⟩
  | capacity => exact ⟨h, by simp [work, Parts.perform, h.store]⟩

/-- What a thread does first inside. -/
def afterEnter : Call α → Task α
  | .append v => .next v
  | call => .work call

/-- A thread on its way in gets there as fast as the monitor lets it. -/
theorem goes_seek {n depth : Nat} {a b : M.Word × M.Place} (task next : Task α)
    (hrest : ∀ p : M.Place, (machine M α).rests ⟨p, task⟩ = false)
    (hstep : ∀ (s : Shared M α) (p : M.Place), step me s ⟨p, task⟩ =
      ({ s with word := (M.seek me s.word p).1 },
        ⟨(M.seek me s.word p).2,
          if M.depth (M.seek me s.word p).2 = depth then next else task⟩))
    (hseeks : M.Seeks me depth n a b) :
    (machine M α).Goes me n ({ s with word := a.1 }, ⟨a.2, task⟩)
      ({ s with word := b.1 }, ⟨b.2, next⟩) := by
  induction hseeks with
  | last hseek hdepth =>
    refine .next (hrest _) ?_ (.refl _ _)
    simp only [machine, hstep, hseek, if_pos hdepth]
  | more hseek hdepth _ ih =>
    refine .next (hrest _) ?_ ih
    simp only [machine, hstep, hseek, if_neg hdepth]

variable (hsolo : M.Solo me word place)

include hsolo

theorem goes_enter (h : Holds s M.free limits allowed p) (call : Call α) :
    ∃ s', (machine M α).Goes me M.patience (s, ⟨M.outside, .enter call⟩)
      (s', ⟨place, afterEnter call⟩) ∧ Holds s' word limits allowed p := by
  have hgoes := goes_seek (s := s) (.enter call) (afterEnter call)
    (fun _ => rfl) (fun s p => by cases call <;> rfl) hsolo.enter
  have hword : ({ s with word := M.free } : Shared M α) = s := by rw [← h.word]
  rw [hword] at hgoes
  exact ⟨_, hgoes, rfl, h.store, h.length, h.allowed, h.limits⟩

theorem goes_leave (h : Holds s word limits allowed p) (a : Answer α) :
    ∃ s', (machine M α).Goes me 1 (s, ⟨place, .leave a⟩) (s', ⟨M.outside, .rest (some a)⟩) ∧
      Holds s' M.free limits allowed p := by
  refine ⟨{ s with word := M.free }, .one rfl ?_, rfl, h.store, h.length, h.allowed, h.limits⟩
  simp only [machine, step, h.word, hsolo.leave, if_pos hsolo.outside]

/-- An append that needs room enters a second time, where the monitor lets it. -/
theorem goes_again (h : Holds s word limits allowed p) (hlt : p.length < allowed)
    (hfull : ¬ p.length < p.store.capacity) (hre : M.reenters = true) (v : α) :
    ∃ w p₂, (machine M α).Goes me (M.patience + 1) (s, ⟨place, .next v⟩)
        ({ s with word := w }, ⟨p₂, .grow p.length v⟩) ∧
      Holds { s with word := w } w limits allowed p ∧ M.leave w p₂ = (word, place) ∧
      M.depth place = 1 := by
  obtain ⟨w, p₂, hseeks, hleave, hdepth⟩ := hsolo.again hre
  have hnext : (machine M α).Goes me 1 (s, ⟨place, .next v⟩)
      (s, ⟨place, .enterAgain p.length v⟩) := by
    refine .one rfl ?_
    simp [machine, step, h.length, h.allowed, h.store, hlt, hre, hfull]
  have hagain := goes_seek (s := s) (.enterAgain p.length v) (.grow p.length v) (fun _ => rfl)
    (fun _ _ => rfl) hseeks
  have hword : ({ s with word := word } : Shared M α) = s := by rw [← h.word]
  rw [hword] at hagain
  exact ⟨w, p₂, (hnext.trans hagain).mono (by omega),
    ⟨rfl, h.store, h.length, h.allowed, h.limits⟩, hleave, hdepth⟩

/-- The thread inside makes room, inside a second time if the monitor is entered again. -/
theorem goes_grow {q : Parts α} {v : α} (h : Holds s word limits allowed p)
    (hlt : p.length < allowed) (hq : p.makeRoom limits allowed (p.length + 1) = .ok q) :
    ∃ s', (machine M α).Goes me (M.patience + 3) (s, ⟨place, .next v⟩)
      (s', ⟨place, .place p.length v⟩) ∧ Holds s' word limits allowed q := by
  cases hre : M.reenters with
  | false =>
    obtain ⟨s', hs', h'⟩ := makeRoom_ok h hq
    refine ⟨s', (Machine.Goes.next rfl (b := (s, ⟨place, .grow p.length v⟩)) ?_
      (.one rfl ?_)).mono (by omega), h'⟩
    · simp [machine, step, h.length, h.allowed, hlt, hre]
    · simp [machine, step, hs', hre]
  | true =>
    by_cases hroom : p.length < p.store.capacity
    · obtain rfl : p = q := by
        simpa only [Parts.makeRoom, Nat.succ_le_of_lt hroom, if_true, Except.ok.injEq] using hq
      refine ⟨s, (Machine.Goes.one rfl ?_).mono (by omega), h⟩
      simp [machine, step, h.length, h.allowed, h.store, hlt, hre, hroom]
    · obtain ⟨w, p₂, hagain, h₁, hleave, -⟩ := goes_again hsolo h hlt hroom hre v
      obtain ⟨s₂, hs₂, h₂⟩ := makeRoom_ok h₁ hq
      have hgrow : (machine M α).Goes me 2 ({ s with word := w }, ⟨p₂, .grow p.length v⟩)
          ({ s₂ with word := word }, ⟨place, .place p.length v⟩) := by
        refine .next rfl (b := (s₂, ⟨p₂, .leaveAgain p.length v⟩)) ?_ (.one rfl ?_)
        · simp [machine, step, hs₂, hre]
        · simp only [machine, step, h₂.word, hleave]
      refine ⟨{ s₂ with word := word }, (hagain.trans hgrow).mono (by omega), ?_⟩
      exact ⟨rfl, h₂.store, h₂.length, h₂.allowed, h₂.limits⟩

/-- No room can be made, so the thread leaves, first of all the inner of two entries. -/
theorem goes_grow_error {a : Answer α} {v : α} (h : Holds s word limits allowed p)
    (hlt : p.length < allowed) (ha : p.makeRoom limits allowed (p.length + 1) = .error a) :
    ∃ s', (machine M α).Goes me (M.patience + 3) (s, ⟨place, .next v⟩) (s', ⟨place, .leave a⟩) ∧
      Holds s' word limits allowed p := by
  cases hre : M.reenters with
  | false =>
    obtain ⟨s', hs', h'⟩ := makeRoom_error h ha
    refine ⟨s', (Machine.Goes.next rfl (b := (s, ⟨place, .grow p.length v⟩)) ?_
      (.one rfl ?_)).mono (by omega), h'⟩
    · simp [machine, step, h.length, h.allowed, hlt, hre]
    · simp [machine, step, hs']
  | true =>
    have hfull : ¬ p.length < p.store.capacity := fun hroom => by
      simp only [Parts.makeRoom, Nat.succ_le_of_lt hroom, if_true] at ha
      cases ha
    obtain ⟨w, p₂, hagain, h₁, hleave, hdepth⟩ := goes_again hsolo h hlt hfull hre v
    obtain ⟨s₂, hs₂, h₂⟩ := makeRoom_error h₁ ha
    have hgrow : (machine M α).Goes me 2 ({ s with word := w }, ⟨p₂, .grow p.length v⟩)
        ({ s₂ with word := word }, ⟨place, .leave a⟩) := by
      refine .next rfl (b := (s₂, ⟨p₂, .leave a⟩)) ?_ (.one rfl ?_)
      · simp [machine, step, hs₂]
      · simp [machine, step, h₂.word, hleave, hdepth]
    refine ⟨{ s₂ with word := word }, (hagain.trans hgrow).mono (by omega), ?_⟩
    exact ⟨rfl, h₂.store, h₂.length, h₂.allowed, h₂.limits⟩

theorem goes_append (h : Holds s word limits allowed p) (v : α) :
    ∃ s', (machine M α).Goes me (M.patience + 5) (s, ⟨place, .next v⟩)
        (s', ⟨place, .leave (p.append limits allowed p.length v).2⟩) ∧
      Holds s' word limits allowed (p.append limits allowed p.length v).1 := by
  unfold Parts.append
  by_cases hlt : p.length < allowed
  · rw [if_pos hlt]
    cases hq : p.makeRoom limits allowed (p.length + 1) with
    | ok q =>
      obtain ⟨s', hgrow, h'⟩ := goes_grow hsolo (v := v) h hlt hq
      have hcap : p.length < q.store.capacity :=
        (Parts.Room.of_ok (hq ▸ Parts.room_makeRoom limits allowed p (p.length + 1))).1
      let s₁ : Shared M α := { s' with store := q.store.set p.length v }
      let s₂ : Shared M α := { s₁ with length := p.length + 1 }
      have hplace : (machine M α).Goes me 2 (s', ⟨place, .place p.length v⟩)
          (s₂, ⟨place, .leave (.index p.length)⟩) := by
        refine .next rfl (b := (s₁, ⟨place, .raise p.length⟩)) ?_ (.one rfl rfl)
        simp [machine, step, h'.store, hcap, s₁]
      exact ⟨s₂, hgrow.trans hplace, h'.word, rfl, rfl, h'.allowed, h'.limits⟩
    | error a =>
      obtain ⟨s', hgrow, h'⟩ := goes_grow_error hsolo (v := v) h hlt hq
      exact ⟨s', hgrow.mono (by omega), h'⟩
  · rw [if_neg hlt]
    refine ⟨s, (Machine.Goes.one rfl ?_).mono (by omega), h⟩
    simp [machine, step, h.length, h.allowed, h.limits, hlt]

/-- A call by itself on an array under a monitor. -/
theorem perform_spec (h : Holds s M.free limits allowed p) (c : Call α) :
    ∃ s', (machine M α).perform me (fuel M) c s {} =
        (s', ⟨M.outside, .rest (some (p.perform limits allowed p.length beyond c).2)⟩) ∧
      Holds s' M.free limits allowed (p.perform limits allowed p.length beyond c).1 := by
  obtain ⟨s₁, henter, h₁⟩ := goes_enter hsolo h c
  obtain ⟨s₂, hinside, h₂⟩ : ∃ s₂, (machine M α).Goes me (M.patience + 5)
      (s₁, ⟨place, afterEnter c⟩)
      (s₂, ⟨place, .leave (p.perform limits allowed p.length beyond c).2⟩) ∧
      Holds s₂ word limits allowed (p.perform limits allowed p.length beyond c).1 := by
    by_cases hc : ∃ v, c = .append v
    · obtain ⟨v, rfl⟩ := hc
      exact goes_append hsolo h₁ v
    · have hc : ∀ v, c ≠ .append v := fun v hv => hc ⟨v, hv⟩
      obtain ⟨hwork, hanswer⟩ := work_spec h₁ hc
      have hafter : afterEnter c = .work c := by
        cases c with
        | append v => exact absurd rfl (hc v)
        | _ => rfl
      refine ⟨(work s₁ c).1, (Machine.Goes.one ?_ ?_).mono (by omega), hwork⟩
      · rw [hafter]
        rfl
      · simp only [hafter, machine, step, hanswer]
  obtain ⟨s₃, hleave, h₃⟩ := goes_leave hsolo h₂ (p.perform limits allowed p.length beyond c).2
  refine ⟨s₃, Machine.perform_of_goes ((henter.trans hinside).trans hleave) rfl ?_, h₃⟩
  unfold fuel
  omega

omit hsolo [Inhabited α] in
theorem holds_ofStore (p : Parts α) (config : Config) (limits : Limits) :
    Holds (ofStore M p.store p.length config limits) M.free limits config.maxCapacity p :=
  ⟨rfl, rfl, rfl, rfl, rfl⟩

end Growable.SharedArray.Monitored
