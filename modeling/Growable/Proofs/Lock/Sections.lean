import Growable.Lock.Spin
import Growable.Proofs.Lock.Monitors
import Growable.Proofs.Runs

/-!
# One critical section after the other

A critical section is what a thread does between a swap that got it the lock and its release. Others
swap the bit too meanwhile, and each section is loads and stores of many steps. Still the value is
what comes out if the sections are gone through one after the other, in the order of those swaps.

A list of sections is kept along the run: a swap that found the bit clear begins a section, a store
belongs to the section that its thread has begun and not ended, and a release ends that one. The bit
is set for as long as one section has not ended, which then is the last of the list. So nothing can
be stored in the middle of the list, and no store comes between a load and the store it is for:
`Kept` says so of one moment, and `kept_after` of every run.
-/

namespace Growable.Lock.Spin

variable {α : Type}

/-! ## Sections -/

/-- A step by which a thread changes the bit or the value, or tries to. -/
inductive Access (α : Type) where
  /-- Swapped the bit for a set one, and got back what it was. -/
  | swap (thread : Nat) (found : Bool)
  /-- Stored the image of what had been loaded. -/
  | store (thread : Nat) (f : α → α)
  | release (thread : Nat)

/-- The thread that makes the access. -/
def Access.thread : Access α → Nat
  | swap t _ | store t _ | release t => t

/-- The thread of a swap that found the bit clear. -/
def Access.entered? : Access α → Option Nat
  | swap t found => if found then none else some t
  | _ => none

/-- The function of a store. -/
def Access.stored? : Access α → Option (α → α)
  | store _ f => some f
  | _ => none

/-- What a thread did to the value while it had the lock. -/
structure Section (α : Type) where
  thread : Nat
  /-- The functions of its stores, the first one first. -/
  updates : List (α → α) := []
  /-- The thread has released the lock. -/
  isOver : Bool := false

/-- The value after a section, by what it was before. -/
def Section.apply (v : α) (x : Section α) : α :=
  x.updates.foldl (fun v f => f v) v

/-- The section is one that thread `t` has begun and not ended. -/
def Section.isOf (t : Nat) (x : Section α) : Bool :=
  x.thread == t && !x.isOver

/-- Changes the sections that thread `t` has begun and not ended. -/
def amend (t : Nat) (g : Section α → Section α) (xs : List (Section α)) : List (Section α) :=
  xs.map fun x => if x.isOf t then g x else x

/-- The section with one more update. -/
def Section.update (f : α → α) (x : Section α) : Section α :=
  { x with updates := x.updates ++ [f] }

/-- The section once it has ended. -/
def Section.close (x : Section α) : Section α := { x with isOver := true }

/-- The sections once one more access was made. -/
def record (xs : List (Section α)) : Access α → List (Section α)
  | .swap t found => if found then xs else xs ++ [{ thread := t }]
  | .store t f => amend t (.update f) xs
  | .release t => amend t .close xs

/-- The sections of some accesses, in the order in which the lock was taken. -/
def sections (as : List (Access α)) : List (Section α) := as.foldl record []

/-- Thread `t` is between a swap that got it the lock and its release. -/
def Inside (as : List (Access α)) (t : Nat) : Prop :=
  ∃ x ∈ sections as, x.isOf t = true

/-! ## Runs -/

/-- The access that the next step of a thread makes. -/
def Client.access? (me : Nat) (s : Cell α) (c : Client α) : Option (Access α) :=
  match c.task with
  | .locking .swap | .trying .swap => some (.swap me s.taken)
  | .storing f _ => some (.store me f)
  | .releasing => some (.release me)
  | _ => none

/-- The access that a turn makes. -/
def access? : Pool (Cell α) (Client α) → Turn (Request α) → Option (Access α) :=
  Machine.seenOfStep? Client.access?

/-- Threads that have not used a lock around `v` yet. -/
def idle (n : Nat) (v : α) : Pool (Cell α) (Client α) := ⟨{ value := v }, .replicate n {}⟩

/-- The lock and its threads after some turns. -/
def after (n : Nat) (v : α) (turns : List (Turn (Request α))) : Pool (Cell α) (Client α) :=
  (client α).run (idle n v) turns

/-- The accesses of some turns, in their order. -/
def accesses (n : Nat) (v : α) (turns : List (Turn (Request α))) : List (Access α) :=
  (client α).observe access? (idle n v) turns

variable {n t u : Nat} {v w : α} {f : α → α} {s s' : Cell α} {c d : Client α}
  {a? : Option (Access α)} {xs done : List (Section α)} {x : Section α}
  {p : Pool (Cell α) (Client α)} {turns : List (Turn (Request α))}

theorem after_concat (turn : Turn (Request α)) :
    after n v (turns ++ [turn]) = (client α).act (after n v turns) turn :=
  Machine.run_concat ..

theorem accesses_concat (turn : Turn (Request α)) :
    accesses n v (turns ++ [turn]) =
      accesses n v turns ++ (access? (after n v turns) turn).toList :=
  Machine.observe_concat ..

theorem sections_append (as : List (Access α)) (a? : Option (Access α)) :
    sections (as ++ a?.toList) = a?.toList.foldl record (sections as) :=
  List.foldl_append

/-! ## What a step does -/

/-- What a thread is doing fits what it has, and the value is what it loaded. -/
def Client.Sound (v : α) (c : Client α) : Prop :=
  match c.task with
  | .rest _ => True
  | .locking place | .trying place => place ≠ .inside
  | .loading _ | .releasing => c.holds = true
  | .storing _ old => c.holds = true ∧ old = v

/-- The function of the update that a thread is at. -/
def Client.update? (c : Client α) : Option (α → α) :=
  match c.task with
  | .loading f | .storing f _ => some f
  | _ => none

/-- What a step of thread `me` can do to the lock, to the value and to the thread. -/
inductive Steps (me : Nat) (s : Cell α) (c : Client α) :
    Option (Access α) → Cell α → Client α → Prop
  /-- The thread looks, loads, or swaps a set bit for a set one. -/
  | wait {a? : Option (Access α)} {d : Client α} : d.holds = c.holds → d.Sound s.value →
    (a? = none ∨ a? = some (.swap me true) ∧ s.taken = true) →
    (d.reply? = none ∨ d.reply? = some .refused ∧ s.taken = true) → Steps me s c a? s d
  | enter : s.taken = false →
    Steps me s c (some (.swap me false)) { s with taken := true } ⟨true, .rest (some .granted)⟩
  | store {f : α → α} : c.holds = true → c.update? = some f →
    Steps me s c (some (.store me f)) { s with value := f s.value }
      { c with task := .rest (some (.updated s.value)) }
  | release : c.holds = true →
    Steps me s c (some (.release me)) { s with taken := false } ⟨false, .rest (some .released)⟩

theorem steps (me : Nat) (h : c.Sound s.value) (hbusy : c.rests = false) :
    Steps me s c (c.access? me s) (c.step s).1 (c.step s).2 := by
  rcases c with ⟨holds, task⟩
  rcases s with ⟨taken, value⟩
  cases task with
  | rest => cases hbusy
  | locking place =>
    cases place with
    | out => cases taken <;> exact .wait rfl nofun (.inl rfl) (.inl rfl)
    | swap =>
      cases taken with
      | true => exact .wait rfl nofun (.inr ⟨rfl, rfl⟩) (.inl rfl)
      | false => exact .enter rfl
    | inside => exact absurd rfl h
  | trying place =>
    cases place with
    | out =>
      cases taken with
      | true => exact .wait rfl trivial (.inl rfl) (.inr ⟨rfl, rfl⟩)
      | false => exact .wait rfl nofun (.inl rfl) (.inl rfl)
    | swap =>
      cases taken with
      | true => exact .wait rfl trivial (.inr ⟨rfl, rfl⟩) (.inr ⟨rfl, rfl⟩)
      | false => exact .enter rfl
    | inside => exact absurd rfl h
  | loading f => exact .wait rfl ⟨h, rfl⟩ (.inl rfl) (.inl rfl)
  | storing f old =>
    obtain ⟨hholds, rfl⟩ := h
    exact .store hholds rfl
  | releasing => exact .release h

namespace Steps

variable {me : Nat}

theorem thread (h : Steps me s c a? s' d) {a : Access α} (ha : a? = some a) : a.thread = me := by
  cases h with
  | wait _ _ hwait =>
    rcases hwait with rfl | ⟨rfl, -⟩ <;> cases ha
    rfl
  | _ =>
    cases ha
    rfl

/-- A swap that finds the bit set, and a refusal, change nothing. -/
theorem failed (h : Steps me s c a? s' d)
    (hfailed : a? = some (.swap t true) ∨ d.reply? = some .refused) :
    s.taken = true ∧ s' = s ∧ (a? = none ∨ a? = some (.swap me true)) := by
  cases h with
  | wait _ _ ha hd =>
    refine ⟨?_, rfl, ha.imp id And.left⟩
    rcases hfailed with rfl | hrefused
    · exact (ha.resolve_left nofun).2
    · exact (hd.resolve_left (hrefused ▸ nofun)).2
  | _ => rcases hfailed with h | h <;> cases h

theorem granted_iff (h : Steps me s c a? s' d) :
    d.reply? = some .granted ↔ a? = some (.swap me false) := by
  cases h with
  | wait _ _ ha hd => rcases ha with rfl | ⟨rfl, -⟩ <;> rcases hd with hd | ⟨hd, -⟩ <;> simp [hd]
  | enter => simp [Client.reply?]
  | store | release => simp [Client.reply?]

theorem updated_iff (h : Steps me s c a? s' d) {old : α} :
    d.reply? = some (.updated old) ↔ ∃ f, a? = some (.store me f) ∧ old = s.value := by
  cases h with
  | wait _ _ ha hd => rcases ha with rfl | ⟨rfl, -⟩ <;> rcases hd with hd | ⟨hd, -⟩ <;> simp [hd]
  | store => simp [Client.reply?, eq_comm]
  | enter | release => simp [Client.reply?]

theorem stored (h : Steps me s c a? s' d) (ha : a? = some (.store t f)) :
    c.holds = true ∧ c.update? = some f ∧ s'.value = f s.value := by
  cases h with
  | wait _ _ hwait => rcases hwait with rfl | ⟨rfl, -⟩ <;> cases ha
  | store hholds hupdate =>
    cases ha
    exact ⟨hholds, hupdate, rfl⟩
  | _ => cases ha

theorem released (h : Steps me s c a? s' d) (ha : a? = some (.release t)) : c.holds = true := by
  cases h with
  | wait _ _ hwait => rcases hwait with rfl | ⟨rfl, -⟩ <;> cases ha
  | release hholds => exact hholds
  | _ => cases ha

theorem freed (h : Steps me s c a? s' d) (htaken : s.taken = true) (hfree : s'.taken = false) :
    a? = some (.release me) := by
  cases h with
  | wait | store =>
    rw [htaken] at hfree
    cases hfree
  | enter => cases hfree
  | release => rfl

end Steps

theorem access?_of_rests (me : Nat) (s : Cell α) (c : Client α) (h : (client α).rests c = true) :
    c.access? me s = none := by
  rcases c with ⟨holds, task⟩
  cases task with
  | rest => rfl
  | _ => cases h

namespace Client

/-- A thread without the lock does not mind what the value is. -/
theorem Sound.of_not_holds (h : c.Sound v) (hholds : ¬ c.holds = true) : c.Sound w := by
  rcases c with ⟨holds, task⟩
  cases task with
  | storing f old => exact absurd h.1 hholds
  | _ => exact h

theorem holds_start (r : Request α) (c : Client α) : (c.start r).holds = c.holds := by
  cases r with
  | lock | tryLock => rfl
  | update | release =>
    simp only [start]
    split <;> rfl

theorem sound_start (h : c.rests = true) (r : Request α) : (c.start r).Sound v := by
  have hrest : c.Sound v := by
    rcases c with ⟨holds, task⟩
    cases task with
    | rest => exact trivial
    | _ => cases h
  cases r with
  | lock | tryLock => exact nofun
  | update | release =>
    simp only [start]
    split
    · assumption
    · exact hrest

end Client

/-! ## Who holds the lock -/

theorem get?_toList (ht : p.threads[t]? = some c) : p.threads.toList[t]? = some c := by
  rw [Array.getElem?_toList, ht]

/-- Thread `t` holds the lock. -/
def Holds (p : Pool (Cell α) (Client α)) (t : Nat) : Prop :=
  ∃ c, p.threads[t]? = some c ∧ c.holds = true

theorem holds_put_iff (ht : p.threads[t]? = some c) :
    Holds (p.put t s d) u ↔ (u = t ∧ d.holds = true) ∨ (u ≠ t ∧ Holds p u) := by
  constructor
  · rintro ⟨x, hx, hholds⟩
    rcases (Pool.getElem?_put_iff ht).mp hx with ⟨rfl, rfl⟩ | ⟨hne, hx'⟩
    · exact .inl ⟨rfl, hholds⟩
    · exact .inr ⟨hne, x, hx', hholds⟩
  · rintro (⟨rfl, hholds⟩ | ⟨hne, x, hx, hholds⟩)
    · exact ⟨d, (Pool.getElem?_put_iff ht).mpr (.inl ⟨rfl, rfl⟩), hholds⟩
    · exact ⟨x, (Pool.getElem?_put_iff ht).mpr (.inr ⟨hne, hx⟩), hholds⟩

/-- A thread that moves without being granted the lock and without releasing it. -/
theorem holds_put_of_eq (ht : p.threads[t]? = some c) (h : d.holds = c.holds) :
    Holds (p.put t s d) u ↔ Holds p u := by
  rw [holds_put_iff ht, h]
  constructor
  · rintro (⟨rfl, hholds⟩ | ⟨-, hu⟩)
    · exact ⟨c, ht, hholds⟩
    · exact hu
  · intro hu
    by_cases hut : u = t
    · subst hut
      obtain ⟨x, hx, hholds⟩ := hu
      obtain rfl : c = x := Option.some.inj (ht.symm.trans hx)
      exact .inl ⟨rfl, hholds⟩
    · exact .inr ⟨hut, hu⟩

/-! ## The section that has not ended -/

theorem isOf_of_isOver (h : x.isOver = true) : x.isOf t = false := by
  simp [Section.isOf, h]

theorem amend_concat (g : Section α → Section α) (hdone : ∀ y ∈ done, y.isOver = true)
    (hx : x.isOf t = true) : amend t g (done ++ [x]) = done ++ [g x] := by
  have hsame : amend t g done = done := by
    refine (List.map_congr_left fun y hy => ?_).trans (List.map_id done)
    rw [isOf_of_isOver (hdone y hy)]
    rfl
  rw [amend, List.map_append, ← amend, hsame, List.map_singleton, if_pos hx]

theorem Section.apply_update (v : α) (f : α → α) (x : Section α) :
    (x.update f).apply v = f (x.apply v) := by
  simp [update, apply]

/-- The bit, the value and the sections agree. -/
structure Kept (v : α) (as : List (Access α)) (p : Pool (Cell α) (Client α)) : Prop where
  marks : Monitor.Marks Client.holds p.shared.taken p.threads.toList
  sound : ∀ {t : Nat} {c : Client α}, p.threads[t]? = some c → c.Sound p.shared.value
  /-- While the bit is clear every section has ended, -/
  closed : p.shared.taken = false → ∀ x ∈ sections as, x.isOver = true
  /-- and a thread that holds the lock is at the last one. -/
  last : ∀ {t : Nat}, Holds p t → ∃ done x, sections as = done ++ [x] ∧
    (∀ y ∈ done, y.isOver = true) ∧ x.isOf t = true
  value : p.shared.value = (sections as).foldl Section.apply v
  order : (sections as).map (·.thread) = as.filterMap Access.entered?
  stores : (sections as).flatMap (·.updates) = as.filterMap Access.stored?

variable {as : List (Access α)}

theorem kept_idle (n : Nat) (v : α) : Kept v [] (idle n v) := by
  constructor
  · have hmarks : Monitor.Marks Client.holds false (List.replicate n ({} : Client α)) :=
      Monitor.marks_replicate n rfl
    simpa [idle] using hmarks
  · intro t c ht
    obtain ⟨-, rfl⟩ := Array.getElem?_eq_some_iff.mp ht
    simp [idle, Client.Sound]
  · exact fun _ x hx => absurd hx List.not_mem_nil
  · rintro t ⟨c, ht, hholds⟩
    obtain ⟨_, rfl⟩ := Array.getElem?_eq_some_iff.mp ht
    simp [idle] at hholds
  · rfl
  · rfl
  · rfl

namespace Kept

theorem apart (h : Kept v as p) (ht : Holds p t) (hu : Holds p u) : t = u := by
  obtain ⟨c, hc, hholds⟩ := ht
  obtain ⟨d, hd, hholds'⟩ := hu
  refine Pool.eq_of_countP_le_one ?_ hc hd hholds hholds'
  rw [h.marks]
  split
  · exact Nat.le_refl 1
  · exact Nat.zero_le 1

theorem not_holds (h : Kept v as p) (hfree : p.shared.taken = false) : ¬ Holds p t := by
  intro ht
  obtain ⟨done, x, hsections, -, hx⟩ := h.last ht
  have hover : x.isOver = true := h.closed hfree x (by simp [hsections])
  rw [isOf_of_isOver hover] at hx
  cases hx

theorem taken_of_holds (h : Kept v as p) (ht : Holds p t) : p.shared.taken = true := by
  by_contra hfree
  exact h.not_holds (by simpa using hfree) ht

theorem exists_holds (h : Kept v as p) (htaken : p.shared.taken = true) : ∃ t, Holds p t := by
  have hmarks := h.marks
  rw [htaken, Monitor.Marks, if_pos rfl] at hmarks
  exact Pool.countP_pos_iff.mp (hmarks ▸ Nat.one_pos)

/-- The threads that hold the lock are those inside a section. -/
theorem inside_iff (h : Kept v as p) : Inside as t ↔ Holds p t := by
  constructor
  · rintro ⟨x, hx, hof⟩
    have htaken : p.shared.taken = true := by
      by_contra hfree
      rw [isOf_of_isOver (h.closed (by simpa using hfree) x hx)] at hof
      cases hof
    obtain ⟨u, hu⟩ := h.exists_holds htaken
    obtain ⟨done, y, hsections, hdone, hy⟩ := h.last hu
    rw [hsections, List.mem_append, List.mem_singleton] at hx
    rcases hx with hx | rfl
    · rw [isOf_of_isOver (hdone x hx)] at hof
      cases hof
    · have htu : x.thread = t ∧ x.thread = u := by
        simp only [Section.isOf, Bool.and_eq_true, beq_iff_eq] at hof hy
        exact ⟨hof.1, hy.1⟩
      rw [← htu.1, htu.2]
      exact hu
  · intro ht
    obtain ⟨done, x, hsections, -, hx⟩ := h.last ht
    exact ⟨x, by simp [hsections], hx⟩

/-! ## One turn -/

/-- A swap that finds the bit set is in no section. -/
theorem sections_of_wait (ha : a? = none ∨ a? = some (.swap t true)) :
    sections (as ++ a?.toList) = sections as := by
  rw [sections_append]
  rcases ha with rfl | rfl <;> rfl

theorem wait (h : Kept v as p) (ht : p.threads[t]? = some c) (hholds : d.holds = c.holds)
    (hsound : d.Sound p.shared.value) (ha : a? = none ∨ a? = some (.swap t true)) :
    Kept v (as ++ a?.toList) (p.put t p.shared d) := by
  have hsections : sections (as ++ a?.toList) = sections as := sections_of_wait ha
  constructor
  · rw [Pool.toList_put]
    exact h.marks.move (get?_toList ht) hholds
  · intro u x hu
    rcases (Pool.getElem?_put_iff ht).mp hu with ⟨-, rfl⟩ | ⟨-, hu'⟩
    · exact hsound
    · exact h.sound hu'
  · rw [hsections]
    exact h.closed
  · intro u hu
    rw [hsections]
    exact h.last ((holds_put_of_eq ht hholds).mp hu)
  · rw [hsections]
    exact h.value
  · rw [hsections, h.order]
    rcases ha with rfl | rfl <;> simp [Access.entered?]
  · rw [hsections, h.stores]
    rcases ha with rfl | rfl <;> simp [Access.stored?]

theorem enter (h : Kept v as p) (ht : p.threads[t]? = some c) (hfree : p.shared.taken = false) :
    Kept v (as ++ [.swap t false])
      (p.put t { p.shared with taken := true } ⟨true, .rest (some .granted)⟩) := by
  have hsections : sections (as ++ [.swap t false]) = sections as ++ [{ thread := t }] :=
    sections_append as (some _)
  constructor
  · rw [Pool.toList_put]
    have hmarks := h.marks
    rw [hfree] at hmarks
    exact hmarks.set (get?_toList ht) rfl
  · intro u x hu
    rcases (Pool.getElem?_put_iff ht).mp hu with ⟨-, rfl⟩ | ⟨-, hu'⟩
    · exact trivial
    · exact h.sound hu'
  · exact nofun
  · intro u hu
    rcases (holds_put_iff ht).mp hu with ⟨rfl, -⟩ | ⟨-, hu'⟩
    · exact ⟨_, _, hsections, h.closed hfree, by simp [Section.isOf]⟩
    · exact absurd hu' (h.not_holds hfree)
  · rw [hsections, List.foldl_append, ← h.value]
    rfl
  · rw [hsections, List.map_append, h.order, List.filterMap_append]
    rfl
  · rw [hsections, List.flatMap_append, h.stores, List.filterMap_append]
    rfl

theorem store (h : Kept v as p) (ht : p.threads[t]? = some c) (hholds : c.holds = true)
    (f : α → α) :
    Kept v (as ++ [.store t f]) (p.put t { p.shared with value := f p.shared.value }
      { c with task := .rest (some (.updated p.shared.value)) }) := by
  have hinside : Holds p t := ⟨c, ht, hholds⟩
  obtain ⟨done, x, hbefore, hdone, hx⟩ := h.last hinside
  have hsections : sections (as ++ [.store t f]) = done ++ [x.update f] := by
    rw [← amend_concat _ hdone hx, ← hbefore]
    exact sections_append as (some _)
  constructor
  · rw [Pool.toList_put]
    exact h.marks.move (get?_toList ht) rfl
  · intro u y hu
    rcases (Pool.getElem?_put_iff ht).mp hu with ⟨-, rfl⟩ | ⟨hne, hu'⟩
    · exact trivial
    · -- no other thread is between a load and its store, so none minds the new value
      refine (h.sound hu').of_not_holds ?_
      by_contra hother
      exact hne (h.apart ⟨y, hu', by simpa using hother⟩ hinside)
  · intro hfree
    exact absurd hinside (h.not_holds hfree)
  · intro u hu
    obtain rfl : u = t := h.apart ((holds_put_of_eq ht (by rfl)).mp hu) hinside
    exact ⟨done, x.update f, hsections, hdone, hx⟩
  · rw [Pool.shared_put, h.value, hbefore, hsections, List.foldl_append, List.foldl_append]
    exact (Section.apply_update ..).symm
  · rw [hsections, List.filterMap_append, ← h.order, hbefore]
    simp [Section.update, Access.entered?]
  · rw [hsections, List.filterMap_append, ← h.stores, hbefore]
    simp [Section.update, Access.stored?]

theorem release (h : Kept v as p) (ht : p.threads[t]? = some c) (hholds : c.holds = true) :
    Kept v (as ++ [.release t])
      (p.put t { p.shared with taken := false } ⟨false, .rest (some .released)⟩) := by
  have hinside : Holds p t := ⟨c, ht, hholds⟩
  obtain ⟨done, x, hbefore, hdone, hx⟩ := h.last hinside
  have hsections : sections (as ++ [.release t]) = done ++ [x.close] := by
    rw [← amend_concat _ hdone hx, ← hbefore]
    exact sections_append as (some _)
  constructor
  · rw [Pool.toList_put]
    exact h.marks.clear (get?_toList ht) hholds rfl
  · intro u y hu
    rcases (Pool.getElem?_put_iff ht).mp hu with ⟨-, rfl⟩ | ⟨-, hu'⟩
    · exact trivial
    · exact h.sound hu'
  · intro _ y hy
    rw [hsections, List.mem_append, List.mem_singleton] at hy
    rcases hy with hy | rfl
    · exact hdone y hy
    · rfl
  · intro u hu
    rcases (holds_put_iff ht).mp hu with ⟨-, hnot⟩ | ⟨hne, hu'⟩
    · cases hnot
    · exact absurd (h.apart hu' hinside) hne
  · rw [Pool.shared_put, h.value, hbefore, hsections, List.foldl_append, List.foldl_append]
    rfl
  · rw [hsections, List.filterMap_append, ← h.order, hbefore]
    simp [Section.close, Access.entered?]
  · rw [hsections, List.filterMap_append, ← h.stores, hbefore]
    simp [Section.close, Access.stored?]

theorem act (h : Kept v as p) (turn : Turn (Request α)) :
    Kept v (as ++ (access? p turn).toList) ((client α).act p turn) := by
  have hacts := Machine.acts (client α) p turn
  generalize hafter : (client α).act p turn = p' at hacts
  cases hacts with
  | idle hidle =>
    have hnone : access? p turn = none := Machine.seenOfStep?_of_idle access?_of_rests hidle
    rw [hnone, Option.toList_none, List.append_nil]
    exact h
  | call ht hrest => exact h.wait ht (Client.holds_start ..) (Client.sound_start hrest _) (.inl rfl)
  | @step t luck c ht hbusy =>
    have hseen : access? p (.step t luck) = c.access? t p.shared := Machine.seenOfStep?_of_step ht
    have hsteps := steps t (h.sound ht) hbusy
    rw [hseen]
    show Kept v _ (p.put t (c.step p.shared).1 (c.step p.shared).2)
    generalize c.access? t p.shared = a?, (c.step p.shared).1 = s, (c.step p.shared).2 = d at hsteps
    cases hsteps with
    | wait hholds hsound ha => exact h.wait ht hholds hsound (ha.imp id And.left)
    | enter hfree => exact h.enter ht hfree
    | store hholds _ => exact h.store ht hholds _
    | release hholds => exact h.release ht hholds

end Kept

theorem kept_after (n : Nat) (v : α) (turns : List (Turn (Request α))) :
    Kept v (accesses n v turns) (after n v turns) := by
  induction turns using List.reverseRecOn with
  | nil => exact kept_idle n v
  | append_singleton turns turn ih =>
    rw [accesses_concat, after_concat]
    exact ih.act turn

end Growable.Lock.Spin
