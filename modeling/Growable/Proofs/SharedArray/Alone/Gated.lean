import Growable.Proofs.Lock.Solo
import Growable.Proofs.SharedArray.Parts
import Growable.SharedArray.Gated

/-!
# An array under a gate by itself

A thread that has the gate to itself finds the reserved and the committed number of elements equal,
and every call of it, refused ones included, leaves them so. What the call comes to is what
`Parts.perform` says. An access to a slot the store does not have is broken off, but a read that was
tried without the gate refuses it.
-/

namespace Growable.SharedArray.Gated

open Lock (Gate Mode)

variable {G : Gate} {α : Type} [Inhabited α]

/-- What the array is to a thread by itself, the indices that are reserved aside. -/
structure Keeps (s : Shared G α) (limits : Limits) (allowed tries : Nat) (p : Parts α) : Prop where
  ends : s.stores.Ends p.store
  committed : s.committed = p.length
  allowed : s.maxCapacity = allowed
  limits : s.limits = limits
  tries : s.tries = tries

/-- What the array is to a thread by itself between its calls, `taken` indices being reserved. -/
structure Holds (s : Shared G α) (limits : Limits) (allowed tries taken : Nat) (p : Parts α) : Prop
    extends Keeps s limits allowed tries p where
  reserved : s.reserved = taken

/-- An access past the end of the store is broken off, except a read without the gate. -/
def beyond (G : Gate) (tries : Nat) (a : Access α) (i len : Nat) : Answer α :=
  match a with
  | .load => if G.optimistic = true ∧ tries ≠ 0 then .refused (.indexOutOfBounds i len) else .brokenOff
  | .store _ => .brokenOff

variable {s : Shared G α} {place : G.Place} {limits : Limits} {allowed tries taken : Nat}
  {p : Parts α} {Lone : G.Word → G.Place → Prop}

omit [Inhabited α] in
theorem Keeps.withGate (h : Keeps s limits allowed tries p) (w : G.Word) :
    Keeps { s with gate := w } limits allowed tries p :=
  ⟨h.ends, h.committed, h.allowed, h.limits, h.tries⟩

omit [Inhabited α] in
theorem Holds.withGate (h : Holds s limits allowed tries taken p) (w : G.Word) :
    Holds { s with gate := w } limits allowed tries taken p :=
  ⟨h.toKeeps.withGate w, h.reserved⟩

omit [Inhabited α] in
theorem Holds.withJournal (h : Holds s limits allowed tries taken p) (journal : List Record) :
    Holds { s with journal } limits allowed tries taken p :=
  ⟨⟨h.ends, h.committed, h.allowed, h.limits, h.tries⟩, h.reserved⟩

/-- Within `n` steps of its own a thread gets to rest with an answer; these are the parts it leaves,
`taken` indices are reserved then, and it is alone again. -/
def Settles (Lone : G.Word → G.Place → Prop) (limits : Limits) (allowed tries taken n : Nat)
    (s : Shared G α) (c : Client G α) (r : Parts α × Answer α) : Prop :=
  ∃ s' place', (machine G α).Goes 0 n (s, c) (s', ⟨place', .rest (some r.2)⟩) ∧
    Holds s' limits allowed tries taken r.1 ∧ Lone s'.gate place'

theorem Settles.after {n k : Nat} {s₁ s₂ : Shared G α} {c₁ c₂ : Client G α}
    {r : Parts α × Answer α} (hgoes : (machine G α).Goes 0 n (s₁, c₁) (s₂, c₂))
    (h : Settles Lone limits allowed tries taken k s₂ c₂ r) :
    Settles Lone limits allowed tries taken (n + k) s₁ c₁ r := by
  obtain ⟨s', place', hrest, h'⟩ := h
  exact ⟨s', place', hgoes.trans hrest, h'⟩

theorem Settles.mono {n k : Nat} {c : Client G α} {r : Parts α × Answer α}
    (h : Settles Lone limits allowed tries taken n s c r) (hk : n ≤ k) :
    Settles Lone limits allowed tries taken k s c r := by
  obtain ⟨s', place', hrest, h'⟩ := h
  exact ⟨s', place', hrest.mono hk, h'⟩

theorem settles_answer (h : Holds s limits allowed tries taken p) (hlone : Lone s.gate place)
    (a : Answer α) :
    Settles Lone limits allowed tries taken 0 s ⟨place, .answer a⟩ (p, a) :=
  ⟨s, place, .refl _ _, h, hlone⟩

/-! ## In and out -/

/-- A thread at a gate that lets it in goes on with the next task. -/
theorem goes_of_seeks {me n : Nat} {m : Mode} {a b : G.Word × G.Place} {task next : Task G α}
    (s : Shared G α) (hrest : task.rests = false)
    (hstep : ∀ (s : Shared G α) (p : G.Place),
      step true s ⟨p, task⟩ = enter m true next s ⟨p, task⟩) (h : G.Seeks m n a b) :
    (machine G α).Goes me n ({ s with gate := a.1 }, ⟨a.2, task⟩)
      ({ s with gate := b.1 }, ⟨b.2, next⟩) := by
  let stand (task : Task G α) (a : G.Word × G.Place) : Shared G α × Client G α :=
    ({ s with gate := a.1 }, ⟨a.2, task⟩)
  refine h.goes (stand task) (stand next) (fun _ => hrest) ?_
  rintro ⟨w, p⟩
  simp only [machine, hstep, enter, stand]
  split <;> rfl

theorem goes_enter (hsolo : G.Solo Lone) (hlone : Lone s.gate place) (m : Mode)
    (task next : Task G α) (hrest : task.rests = false)
    (hstep : ∀ (s : Shared G α) (p : G.Place),
      step true s ⟨p, task⟩ = enter m true next s ⟨p, task⟩) :
    ∃ w place', (machine G α).Goes 0 G.patience (s, ⟨place, task⟩)
        ({ s with gate := w }, ⟨place', next⟩) ∧
      Lone (G.leave w place').1 (G.leave w place').2 := by
  obtain ⟨w, place', hseeks, hleave⟩ := hsolo.enter m s.gate place hlone
  exact ⟨w, place', goes_of_seeks s hrest hstep hseeks, hleave⟩

/-- A thread that leaves is alone again, and goes on with what comes next. -/
theorem settles_leave {n : Nat} {task next : Task G α} {r : Parts α × Answer α}
    (hrest : task.rests = false) (hstep : step true s ⟨place, task⟩ = leave next s ⟨place, task⟩)
    (h : Settles Lone limits allowed tries taken n { s with gate := (G.leave s.gate place).1 }
      ⟨(G.leave s.gate place).2, next⟩ r) :
    Settles Lone limits allowed tries taken (n + 1) s ⟨place, task⟩ r := by
  have hgoes : (machine G α).Goes 0 1 (s, ⟨place, task⟩)
      ({ s with gate := (G.leave s.gate place).1 }, ⟨(G.leave s.gate place).2, next⟩) :=
    .one hrest hstep
  exact (Settles.after hgoes h).mono (by omega)

/-- A thread inside leaves and answers. -/
theorem settles_leave_answer (h : Holds s limits allowed tries taken p)
    (hleave : Lone (G.leave s.gate place).1 (G.leave s.gate place).2) (a : Answer α) :
    Settles Lone limits allowed tries taken 1 s ⟨place, .leave a⟩ (p, a) :=
  settles_leave rfl rfl (settles_answer (h.withGate _) hleave a)

/-! ## Growth -/

theorem goes_copy {st : Store α} (h : s.stores.Ends st) (g : Growth α) (target : Nat) :
    (machine G α).Goes 0 (st.capacity + 1) (s, ⟨place, .copy g s.stores.current target #[]⟩)
      (s, ⟨place, .publish g target st.slots⟩) := by
  refine goes_scan _ _ _ st.slots
    (fun b => (⟨place, .copy g s.stores.current target b⟩ : Client G α)) _ (fun _ => rfl) ?_ ?_
  · intro k hk
    have hsize : (st.slots.extract 0 k).size = k := by simp; omega
    simp [machine, step, h.get?, hsize, Store.get?, hk]
  · simp [machine, step, h.get?, Store.get?]

/-- A growth that is possible makes room and keeps the rest. -/
theorem goes_grow {q : Parts α} (place : G.Place) (h : Keeps s limits allowed tries p)
    (g : Growth α) (hq : p.makeRoom limits allowed g.required = .ok q) :
    ∃ s', (machine G α).Goes 0 (p.store.capacity + 3) (s, ⟨place, .growPointer g⟩)
        (s', ⟨place, .afterGrowth g⟩) ∧ Keeps s' limits allowed tries q ∧ q.length = p.length ∧
      s'.gate = s.gate ∧ s'.reserved = s.reserved := by
  have hroom := Parts.room_makeRoom limits allowed p g.required
  rw [hq] at hroom
  cases hroom with
  | there hfits =>
    refine ⟨s, (Machine.Goes.one rfl ?_).mono (by omega), h, rfl, rfl, rfl⟩
    simp [machine, step, h.ends.capacity, hfits]
  | @made n hlt hn hholds =>
    let s₁ : Shared G α := { s with journal := .growing p.store.capacity n :: s.journal }
    let s₂ : Shared G α := { s₁ with stores := s.stores.publish (p.store.grown n) }
    have hstart : (machine G α).Goes 0 1 (s, ⟨place, .growPointer g⟩)
        (s₁, ⟨place, .copy g s.stores.current n #[]⟩) := by
      refine .one rfl ?_
      simp [machine, step, h.ends.capacity, Nat.not_le.mpr hlt, h.allowed, hn, h.limits, hholds, s₁]
    have hcopy : (machine G α).Goes 0 (p.store.capacity + 1)
        (s₁, ⟨place, .copy g s.stores.current n #[]⟩)
        (s₁, ⟨place, .publish g n p.store.slots⟩) :=
      goes_copy (s := s₁) h.ends g n
    have hpublish : (machine G α).Goes 0 1 (s₁, ⟨place, .publish g n p.store.slots⟩)
        (s₂, ⟨place, .afterGrowth g⟩) := .one rfl rfl
    refine ⟨s₂, ((hstart.trans hcopy).trans hpublish).mono (by omega), ?_, rfl, rfl, rfl⟩
    exact ⟨Stores.ends_publish _ _, h.committed, h.allowed, h.limits, h.tries⟩

/-- A growth that is not possible is given up, with no more than a record of it. -/
theorem goes_grow_error {a : Answer α} (place : G.Place) (h : Keeps s limits allowed tries p)
    (g : Growth α) (ha : p.makeRoom limits allowed g.required = .error a) :
    ∃ journal, (machine G α).Goes 0 1 (s, ⟨place, .growPointer g⟩)
      ({ s with journal }, ⟨place, .leave a⟩) := by
  have hroom := Parts.room_makeRoom limits allowed p g.required
  rw [ha] at hroom
  cases hroom with
  | @refused e hlt he =>
    have hstop : (machine G α).Goes 0 1 (s, ⟨place, .growPointer g⟩)
        (s, ⟨place, .leave (.refused e)⟩) :=
      .one rfl (by simp [machine, step, h.ends.capacity, Nat.not_le.mpr hlt, h.allowed, he])
    exact ⟨s.journal, hstop⟩
  | @overflowed n hlt hn hholds =>
    refine ⟨.growing p.store.capacity n :: s.journal, .one rfl ?_⟩
    simp [machine, step, h.ends.capacity, Nat.not_le.mpr hlt, h.allowed, hn, h.limits, hholds]

/-! ## Calls -/

variable (hsolo : G.Solo Lone)

include hsolo

/-- Room is made in exclusive mode, or refused there. -/
theorem settles_reserve (h : Holds s limits allowed tries taken p) (hlone : Lone s.gate place)
    (n : Nat) :
    Settles Lone limits allowed tries taken (G.patience + p.store.capacity + 4) s
      ⟨place, .growEnter (.reserve n)⟩
      (p.perform limits allowed taken (beyond G tries) (.ensureCapacity n)) := by
  obtain ⟨w, place', henter, hleave⟩ := goes_enter hsolo hlone .exclusive
    (.growEnter (.reserve n)) (.growPointer (.reserve n)) rfl (fun _ _ => rfl)
  cases hq : p.makeRoom limits allowed n with
  | ok q =>
    obtain ⟨s', hgrow, h', -, hgate, hreserved⟩ :=
      goes_grow place' (h.withGate w).toKeeps (.reserve n) hq
    have hq' : Holds s' limits allowed tries taken q := ⟨h', hreserved.trans h.reserved⟩
    simp only [Parts.perform, hq]
    refine (Settles.after henter (.after hgrow (settles_leave (n := 0) rfl rfl
      (settles_answer (hq'.withGate _) ?_ .done)))).mono (by omega)
    rw [hgate]
    exact hleave
  | error a =>
    obtain ⟨journal, hgrow⟩ := goes_grow_error place' (h.withGate w).toKeeps (.reserve n) hq
    simp only [Parts.perform, hq]
    exact (Settles.after henter (.after hgrow
      (settles_leave_answer ((h.withGate w).withJournal journal) hleave a))).mono (by omega)

theorem settles_ensureCapacity (h : Holds s limits allowed tries taken p)
    (hlone : Lone s.gate place) (n : Nat) :
    Settles Lone limits allowed tries taken (2 * G.patience + p.store.capacity + 8) s
      ⟨place, .measure (some n)⟩
      (p.perform limits allowed taken (beyond G tries) (.ensureCapacity n)) := by
  have hafter : ∀ {w : G.Word} {pl : G.Place}, Lone w pl →
      Settles Lone limits allowed tries taken (G.patience + p.store.capacity + 4)
        { s with gate := w } ⟨pl, .afterMeasure (some n) p.store.capacity⟩
        (p.perform limits allowed taken (beyond G tries) (.ensureCapacity n)) := by
    intro w pl hpl
    by_cases hroom : n ≤ p.store.capacity
    · simp only [Task.afterMeasure, Parts.perform, Parts.makeRoom, if_pos hroom]
      exact (settles_answer (h.withGate w) hpl _).mono (by omega)
    · simp only [Task.afterMeasure, if_neg hroom]
      exact settles_reserve hsolo (h.withGate w) hpl n
  cases hoptimistic : G.optimistic with
  | true =>
    have hlook : (machine G α).Goes 0 1 (s, ⟨place, .measure (some n)⟩)
        (s, ⟨place, .afterMeasure (some n) p.store.capacity⟩) := by
      refine .one rfl ?_
      simp [machine, step, hoptimistic, h.ends.capacity]
    exact (Settles.after hlook (hafter hlone)).mono (by omega)
  | false =>
    obtain ⟨w, place', henter, hleave⟩ := goes_enter hsolo hlone .shared
      (.measure (some n)) (.measureInside (some n)) rfl
      (fun _ _ => by simp [step, hoptimistic])
    have hinside : (machine G α).Goes 0 1 ({ s with gate := w }, ⟨place', .measureInside (some n)⟩)
        ({ s with gate := w }, ⟨place', .measureLeave (some n) p.store.capacity⟩) := by
      refine .one rfl ?_
      simp [machine, step, h.ends.capacity]
    exact (Settles.after henter (.after hinside
      (settles_leave rfl rfl (hafter hleave)))).mono (by omega)

theorem settles_capacity (h : Holds s limits allowed tries taken p) (hlone : Lone s.gate place) :
    Settles Lone limits allowed tries taken (G.patience + 2) s ⟨place, .measure none⟩
      (p, .count p.store.capacity) := by
  cases hoptimistic : G.optimistic with
  | true =>
    have hlook : (machine G α).Goes 0 1 (s, ⟨place, .measure none⟩)
        (s, ⟨place, .answer (.count p.store.capacity)⟩) := by
      refine .one rfl ?_
      simp [machine, step, hoptimistic, h.ends.capacity, Task.afterMeasure]
    exact (Settles.after hlook (settles_answer h hlone _)).mono (by omega)
  | false =>
    obtain ⟨w, place', henter, hleave⟩ := goes_enter hsolo hlone .shared
      (.measure none) (.measureInside none) rfl
      (fun _ _ => by simp [step, hoptimistic])
    have hinside : (machine G α).Goes 0 1 ({ s with gate := w }, ⟨place', .measureInside none⟩)
        ({ s with gate := w }, ⟨place', .measureLeave none p.store.capacity⟩) := by
      refine .one rfl ?_
      simp [machine, step, h.ends.capacity]
    exact (Settles.after henter (.after hinside
      (settles_leave rfl rfl (settles_answer (h.withGate _) hleave _)))).mono (by omega)

omit hsolo in
/-- Nobody else is in between, so the next index to commit is the one reserved. -/
theorem settles_await (h : Keeps s limits allowed tries p) (hreserved : s.reserved = p.length + 1)
    (hlone : Lone s.gate place) :
    Settles Lone limits allowed tries (p.length + 1) 2 s ⟨place, .await p.length⟩
      (⟨p.store, p.length + 1⟩, .index p.length) := by
  refine ⟨{ s with committed := p.length + 1 }, place,
    .next rfl (b := (s, ⟨place, .commit p.length⟩)) ?_ (.one rfl rfl), ?_, hlone⟩
  · simp [machine, step, h.committed]
  · exact ⟨⟨h.ends, rfl, h.allowed, h.limits, h.tries⟩, hreserved⟩

/-- The index is reserved and its slot is there. -/
theorem settles_place (h : Keeps s limits allowed tries p) (hreserved : s.reserved = p.length + 1)
    (hroom : p.length < p.store.capacity) (hlone : Lone s.gate place) (v : α) :
    Settles Lone limits allowed tries (p.length + 1) (G.patience + 5) s
      ⟨place, .placeEnter p.length v⟩
      (⟨p.store.set p.length v, p.length + 1⟩, .index p.length) := by
  obtain ⟨w, place', henter, hleave⟩ := goes_enter hsolo hlone .shared
    (.placeEnter p.length v) (.placePointer p.length v) rfl (fun _ _ => rfl)
  let s₁ : Shared G α := { s with gate := w, stores := s.stores.set s.stores.current p.length v }
  have h₁ : Keeps s₁ limits allowed tries ⟨p.store.set p.length v, p.length⟩ :=
    ⟨h.ends.set _ _, h.committed, h.allowed, h.limits, h.tries⟩
  have hplace : (machine G α).Goes 0 2 ({ s with gate := w }, ⟨place', .placePointer p.length v⟩)
      (s₁, ⟨place', .placeLeave p.length v true⟩) := by
    refine .next rfl (b := ({ s with gate := w },
      ⟨place', .placeSlot p.length v s.stores.current⟩)) rfl (.one rfl ?_)
    simp [machine, step, h.ends.capacityOf, hroom, s₁]
  have hawait := settles_await (h₁.withGate (G.leave w place').1) hreserved hleave
  exact (Settles.after henter (.after hplace (settles_leave rfl rfl hawait))).mono (by omega)

/-- The slot of the index that is reserved is not there yet, so the thread goes on to a growth. -/
theorem goes_miss {i : Nat} (h : Keeps s limits allowed tries p) (hfull : p.store.capacity ≤ i)
    (hlone : Lone s.gate place) (v : α) :
    ∃ w place', (machine G α).Goes 0 (2 * G.patience + 3) (s, ⟨place, .placeEnter i v⟩)
        ({ s with gate := w }, ⟨place', .growPointer (.fit i v)⟩) ∧
      Lone (G.leave w place').1 (G.leave w place').2 := by
  obtain ⟨w, place₁, henter, hleave⟩ := goes_enter hsolo hlone .shared
    (.placeEnter i v) (.placePointer i v) rfl (fun _ _ => rfl)
  have hlook : (machine G α).Goes 0 2 ({ s with gate := w }, ⟨place₁, .placePointer i v⟩)
      ({ s with gate := w }, ⟨place₁, .placeLeave i v false⟩) := by
    refine .next rfl (b := ({ s with gate := w }, ⟨place₁, .placeSlot i v s.stores.current⟩)) rfl
      (.one rfl ?_)
    simp [machine, step, h.ends.capacityOf, Nat.not_lt.mpr hfull]
  let s₁ : Shared G α := { s with gate := (G.leave w place₁).1 }
  have hout : (machine G α).Goes 0 1 ({ s with gate := w }, ⟨place₁, .placeLeave i v false⟩)
      (s₁, ⟨(G.leave w place₁).2, .growEnter (.fit i v)⟩) := .one rfl rfl
  obtain ⟨w₂, place₂, hagain, hleave₂⟩ := goes_enter (s := s₁) hsolo hleave .exclusive
    (.growEnter (.fit i v)) (.growPointer (.fit i v)) rfl (fun _ _ => rfl)
  exact ⟨w₂, place₂, (((henter.trans hlook).trans hout).trans hagain).mono (by omega), hleave₂⟩

/-- The index is reserved and room is made for its slot. -/
theorem settles_fit {q : Parts α} (h : Keeps s limits allowed tries p)
    (hreserved : s.reserved = p.length + 1) (hfull : p.store.capacity ≤ p.length)
    (hq : p.makeRoom limits allowed (p.length + 1) = .ok q) (hlone : Lone s.gate place) (v : α) :
    Settles Lone limits allowed tries (p.length + 1) (2 * G.patience + p.store.capacity + 13) s
      ⟨place, .placeEnter p.length v⟩ (⟨q.store.set p.length v, p.length + 1⟩, .index p.length) := by
  obtain ⟨w, place₁, hmiss, hleave⟩ := goes_miss hsolo h hfull hlone v
  obtain ⟨s₂, hgrow, h₂, hlength, hgate, hsame⟩ := goes_grow place₁ (h.withGate w)
    (.fit p.length v) hq
  have hroom : p.length < q.store.capacity :=
    (Parts.Room.of_ok (hq ▸ Parts.room_makeRoom limits allowed p (p.length + 1))).1
  let s₃ : Shared G α := { s₂ with stores := s₂.stores.set s₂.stores.current p.length v }
  have hfit : (machine G α).Goes 0 2 (s₂, ⟨place₁, .afterGrowth (.fit p.length v)⟩)
      (s₃, ⟨place₁, .growLeave (.fit p.length v)⟩) := by
    refine .next rfl (b := (s₂, ⟨place₁, .fitSlot p.length v s₂.stores.current⟩)) rfl (.one rfl ?_)
    simp [machine, step, h₂.ends.capacityOf, hroom, s₃]
  have h₃ : Keeps s₃ limits allowed tries ⟨q.store.set p.length v, p.length⟩ :=
    ⟨h₂.ends.set _ _, by rw [← hlength]; exact h₂.committed, h₂.allowed, h₂.limits, h₂.tries⟩
  have hreserved₃ : s₃.reserved = p.length + 1 := hsame.trans hreserved
  have hleave₃ : Lone (G.leave s₃.gate place₁).1 (G.leave s₃.gate place₁).2 := by
    rw [show s₃.gate = w from hgate]
    exact hleave
  have hawait := settles_await (h₃.withGate (G.leave s₃.gate place₁).1) hreserved₃ hleave₃
  exact (Settles.after hmiss (.after hgrow
    (.after hfit (settles_leave rfl rfl hawait)))).mono (by omega)

/-- The index is reserved and there can be no room for its slot: the index is lost. -/
theorem settles_lose {i : Nat} {a : Answer α} (h : Holds s limits allowed tries taken p)
    (hfull : p.store.capacity ≤ i) (ha : p.makeRoom limits allowed (i + 1) = .error a)
    (hlone : Lone s.gate place) (v : α) :
    Settles Lone limits allowed tries taken (2 * G.patience + 5) s ⟨place, .placeEnter i v⟩
      (p, a) := by
  obtain ⟨w, place', hmiss, hleave⟩ := goes_miss hsolo h.toKeeps hfull hlone v
  obtain ⟨journal, hgrow⟩ := goes_grow_error place' (h.withGate w).toKeeps (.fit i v) ha
  exact (Settles.after hmiss (.after hgrow
    (settles_leave_answer ((h.withGate w).withJournal journal) hleave a))).mono (by omega)

theorem settles_append (h : Holds s limits allowed tries taken p) (hlone : Lone s.gate place)
    (htaken : p.Taken limits allowed taken) (v : α) :
    Settles Lone limits allowed tries (Parts.takenAfter allowed taken (.append v))
      (2 * G.patience + p.store.capacity + 16) s ⟨place, .reserve v⟩
      (p.append limits allowed taken v) := by
  unfold Parts.append
  rw [Parts.takenAfter]
  by_cases hlt : taken < allowed
  · let s₁ : Shared G α := { s with reserved := taken + 1 }
    have h₁ : Holds s₁ limits allowed tries (taken + 1) p :=
      ⟨⟨h.ends, h.committed, h.allowed, h.limits, h.tries⟩, rfl⟩
    have hreserve : (machine G α).Goes 0 2 (s, ⟨place, .reserve v⟩)
        (s₁, ⟨place, .placeEnter taken v⟩) := by
      refine .next rfl (b := (s, ⟨place, .reserveSwap v taken⟩)) ?_ (.one rfl ?_)
      · simp [machine, step, Task.ofReserved, h.reserved, h.allowed, hlt]
      · simp [machine, step, h.reserved, s₁]
    rw [if_pos hlt, if_pos hlt]
    cases hq : p.makeRoom limits allowed (p.length + 1) with
    | ok q =>
      have hroom := Parts.room_makeRoom limits allowed p (p.length + 1)
      rw [hq] at hroom
      obtain rfl := htaken.eq_length hroom.admits
      by_cases hfull : p.store.capacity ≤ p.length
      · exact (Settles.after hreserve
          (settles_fit hsolo h₁.toKeeps rfl hfull hq hlone v)).mono (by omega)
      · obtain rfl : p = q := by
          cases hroom with
          | there => rfl
          | made hlt => omega
        exact (Settles.after hreserve
          (settles_place hsolo h₁.toKeeps rfl (by omega) hlone v)).mono (by omega)
    | error a =>
      obtain ⟨hfull, ha⟩ := htaken.error hlt hq
      exact (Settles.after hreserve (settles_lose hsolo h₁ hfull ha hlone v)).mono (by omega)
  · have hrefuse : (machine G α).Goes 0 1 (s, ⟨place, .reserve v⟩)
        (s, ⟨place, .answer (.full limits taken allowed)⟩) := by
      refine .one rfl ?_
      simp [machine, step, Task.ofReserved, h.reserved, h.allowed, h.limits, hlt]
    rw [if_neg hlt, if_neg hlt]
    exact (Settles.after hrefuse (settles_answer h hlone _)).mono (by omega)

/-- An access in shared mode. -/
theorem settles_access (h : Holds s limits allowed tries taken p) (hlone : Lone s.gate place)
    (i : Nat) (a : Access α) (hbeyond : beyond G tries a i p.length = .brokenOff) :
    Settles Lone limits allowed tries taken (G.patience + 4) s ⟨place, .accessEnter i a⟩
      (p.access (beyond G tries) i a) := by
  obtain ⟨w, place', henter, hleave⟩ := goes_enter hsolo hlone .shared
    (.accessEnter i a) (.accessLength i a) rfl (fun _ _ => rfl)
  have h₁ := h.withGate w
  by_cases hlt : i < p.length
  · have hlook : (machine G α).Goes 0 2 ({ s with gate := w }, ⟨place', .accessLength i a⟩)
        ({ s with gate := w }, ⟨place', .accessSlot i a s.stores.current⟩) := by
      refine .next rfl (b := ({ s with gate := w }, ⟨place', .accessPointer i a⟩)) ?_ (.one rfl rfl)
      simp [machine, step, h.committed, checkBounds, hlt]
    obtain ⟨s₂, hslot, h₂, hgate⟩ : ∃ s₂, (machine G α).Goes 0 1
        ({ s with gate := w }, ⟨place', .accessSlot i a s.stores.current⟩)
        (s₂, ⟨place', .leave (p.access (beyond G tries) i a).2⟩) ∧
        Holds s₂ limits allowed tries taken (p.access (beyond G tries) i a).1 ∧ s₂.gate = w := by
      cases hget : p.store.get? i with
      | none =>
        refine ⟨{ s with gate := w }, .one rfl ?_, ?_, rfl⟩
        · simp [machine, step, Access.perform, h.ends.get?, hget, Parts.access, hlt, hbeyond]
        · simpa [Parts.access, hlt, hget] using h₁
      | some old =>
        cases a with
        | load =>
          refine ⟨{ s with gate := w }, .one rfl ?_, ?_, rfl⟩
          · simp [machine, step, Access.perform, h.ends.get?, hget, Parts.access, hlt]
          · simpa [Parts.access, hlt, hget] using h₁
        | store v =>
          refine ⟨{ s with gate := w, stores := s.stores.set s.stores.current i v }, .one rfl ?_, ?_,
            rfl⟩
          · simp [machine, step, Access.perform, h.ends.get?, hget, Parts.access, hlt]
          · simp only [Parts.access, if_pos hlt, hget]
            exact ⟨⟨h.ends.set _ _, h.committed, h.allowed, h.limits, h.tries⟩, h.reserved⟩
    subst hgate
    exact (Settles.after henter (.after hlook (.after hslot
      (settles_leave_answer h₂ hleave _)))).mono (by omega)
  · have hrefuse : (machine G α).Goes 0 1 ({ s with gate := w }, ⟨place', .accessLength i a⟩)
        ({ s with gate := w }, ⟨place', .leave (.refused (.indexOutOfBounds i p.length))⟩) := by
      refine .one rfl ?_
      simp [machine, step, h.committed, checkBounds, hlt]
    simp only [Parts.access, if_neg hlt]
    exact (Settles.after henter (.after hrefuse (settles_leave_answer h₁ hleave _))).mono (by omega)

/-- The first try without the gate is valid, since nobody is in between. -/
theorem settles_try (h : Holds s limits allowed tries taken p) (hlone : Lone s.gate place)
    (hoptimistic : G.optimistic = true) (i : Nat) :
    Settles Lone limits allowed tries taken (G.patience + 7) s ⟨place, .tryAll i⟩
      (p.access (beyond G tries) i .load) := by
  have hstart : (machine G α).Goes 0 1 (s, ⟨place, .tryAll i⟩) (s, ⟨place, .tryStamp i tries⟩) := by
    refine .one rfl ?_
    simp [machine, step, h.tries]
  cases tries with
  | zero =>
    have hfall : (machine G α).Goes 0 1 (s, ⟨place, .tryStamp i 0⟩)
        ({ s with journal := .fellBack i :: s.journal }, ⟨place, .accessEnter i .load⟩) :=
      .one rfl rfl
    have haccess := settles_access hsolo (h.withJournal (.fellBack i :: s.journal)) hlone i .load
      (by simp [beyond])
    exact (Settles.after hstart (.after hfall haccess)).mono (by omega)
  | succ left =>
    obtain ⟨stamp, hstamp, hvalid⟩ := hsolo.stamp hoptimistic s.gate place hlone
    have hload : (machine G α).Goes 0 4 (s, ⟨place, .tryStamp i (left + 1)⟩)
        (s, ⟨place, .tryValid i left stamp p.length (p.store.get? i)⟩) := by
      refine .next rfl (b := (s, ⟨place, .tryLength i left stamp⟩)) ?_
        (.next rfl (b := (s, ⟨place, .tryPointer i left stamp p.length⟩)) ?_
        (.next rfl (b := (s, ⟨place, .trySlot i left stamp p.length s.stores.current⟩)) rfl
        (.one rfl ?_)))
      · simp [machine, step, hstamp]
      · simp [machine, step, h.committed]
      · simp [machine, step, h.ends.get?]
    have hcheck : (machine G α).Goes 0 1
        (s, ⟨place, .tryValid i left stamp p.length (p.store.get? i)⟩)
        (s, ⟨place, .answer (p.access (beyond G (left + 1)) i .load).2⟩) := by
      refine .one rfl ?_
      by_cases hlt : i < p.length <;> cases hget : p.store.get? i <;>
        simp [machine, step, hvalid, Task.afterValid, Parts.access, hlt, hget, beyond, hoptimistic]
    have hsame : (p.access (beyond G (left + 1)) i .load).1 = p := by
      by_cases hlt : i < p.length <;> cases hget : p.store.get? i <;>
        simp [Parts.access, hlt, hget]
    have hrest : Settles Lone limits allowed (left + 1) taken 0 s
        ⟨place, .answer (p.access (beyond G (left + 1)) i .load).2⟩
        (p.access (beyond G (left + 1)) i .load) :=
      ⟨s, place, .refl _ _, by rw [hsame]; exact h, hlone⟩
    exact (Settles.after hstart (.after hload (.after hcheck hrest))).mono (by omega)

theorem settles_collect (h : Holds s limits allowed tries taken p) (hlone : Lone s.gate place) :
    Settles Lone limits allowed tries taken (G.patience + p.store.capacity + 4) s
      ⟨place, .collectEnter⟩ (p, .values (p.store.take p.length)) := by
  obtain ⟨w, place', henter, hleave⟩ := goes_enter hsolo hlone .shared
    (.collectEnter) (.collectPointer) rfl (fun _ _ => rfl)
  have hsize : (p.store.take p.length).size = min p.length p.store.capacity := by
    simp [Store.take, Store.capacity]
  have hlook : (machine G α).Goes 0 2 ({ s with gate := w }, ⟨place', .collectPointer⟩)
      ({ s with gate := w },
        ⟨place', .collect s.stores.current (min p.length p.store.capacity) #[]⟩) := by
    refine .next rfl (b := ({ s with gate := w }, ⟨place', .collectLength s.stores.current⟩)) rfl
      (.one rfl ?_)
    simp [machine, step, h.committed, h.ends.capacityOf]
  have hscan := goes_scan (machine G α) 0 { s with gate := w } (p.store.take p.length)
    (fun b => (⟨place', .collect s.stores.current (min p.length p.store.capacity) b⟩ : Client G α))
    ⟨place', .leave (.values (p.store.take p.length))⟩ (fun _ => rfl) ?_ ?_
  · exact (Settles.after henter (.after hlook (.after hscan
      (settles_leave_answer (h.withGate w) hleave _)))).mono (by omega)
  · intro k hk
    have hk' : k < min p.length p.store.capacity := hsize ▸ hk
    have hsize' : ((p.store.take p.length).extract 0 k).size = k := by simp; omega
    have hget : p.store.get? k = some (p.store.take p.length)[k] := by
      simp [Store.get?, Store.take]
    simp only [machine, step, hsize', h.ends.get?, hget, if_pos hk']
  · simp [machine, step, hsize]

theorem settles_call (h : Holds s limits allowed tries taken p) (hlone : Lone s.gate place)
    (htaken : p.Taken limits allowed taken) (c : Call α) :
    Settles Lone limits allowed tries (Parts.takenAfter allowed taken c) (fuel s) s
      ⟨place, .ofCall c⟩
      (p.perform limits allowed taken (beyond G tries) c) := by
  have hfuel : fuel s = 2 * G.patience + p.store.capacity + tries + 32 := by
    rw [fuel, h.ends.capacity, h.tries]
  rw [hfuel]
  cases c with
  | append v => exact (settles_append hsolo h hlone htaken v).mono (by omega)
  | read i =>
    cases hoptimistic : G.optimistic with
    | true =>
      simp only [Task.ofCall, hoptimistic, if_true]
      exact (settles_try hsolo h hlone hoptimistic i).mono (by omega)
    | false =>
      simp only [Task.ofCall, hoptimistic, Bool.false_eq_true, if_false]
      exact (settles_access hsolo h hlone i .load (by simp [beyond, hoptimistic])).mono (by omega)
  | write i v => exact (settles_access hsolo h hlone i (.store v) rfl).mono (by omega)
  | ensureCapacity n => exact (settles_ensureCapacity hsolo h hlone n).mono (by omega)
  | toArray => exact (settles_collect hsolo h hlone).mono (by omega)
  | length =>
    have hlook : (machine G α).Goes 0 1 (s, ⟨place, .ofCall .length⟩)
        (s, ⟨place, .answer (.count p.length)⟩) := by
      refine .one rfl ?_
      simp [machine, step, Task.ofCall, h.committed]
    exact (Settles.after hlook (settles_answer h hlone _)).mono (by omega)
  | capacity => exact (settles_capacity hsolo h hlone).mono (by omega)

/-- A call by itself on an array under a gate. -/
theorem perform_spec (h : Holds s limits allowed tries taken p) (hlone : Lone s.gate place)
    (htaken : p.Taken limits allowed taken) (c : Call α) :
    ∃ s' place', (machine G α).perform 0 (fuel s) c s { place } =
        (s', ⟨place', .rest (some (p.perform limits allowed taken (beyond G tries) c).2)⟩) ∧
      Holds s' limits allowed tries (Parts.takenAfter allowed taken c)
        (p.perform limits allowed taken (beyond G tries) c).1 ∧ Lone s'.gate place' := by
  obtain ⟨s', place', hgoes, h'⟩ := settles_call hsolo h hlone htaken c
  exact ⟨s', place', Machine.perform_of_goes hgoes rfl (Nat.le_refl _), h'⟩

omit hsolo [Inhabited α] in
theorem holds_ofStore (G : Gate) (p : Parts α) (config : Config) (limits : Limits) :
    Holds (ofStore G p.store p.length config limits) limits config.maxCapacity
      config.optimisticRetries p.length p :=
  ⟨⟨Stores.ends_single _, rfl, rfl, rfl, rfl⟩, rfl⟩

end Growable.SharedArray.Gated
