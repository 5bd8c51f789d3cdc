import Growable.ElementType
import Growable.Proofs.SharedArray.Strategy

/-!
# A shared array as a list with a capacity

To a thread by itself a shared array is a list of elements and a number of slots. `Reference` is
that machine: it knows no stores, no strategies and no locks. A shared array that was built from an
accepted configuration answers every sequence of operations as the reference does, whichever kind
of strategy it started with and however often the kind was exchanged in between. The limits of the
machine are never met: a configuration is accepted only if there is room for all it allows.
-/

namespace Growable

/-- The machine has room for as many slots of a type as a configuration may allow. -/
theorem ElementType.suffices (t : ElementType) (carry : Carry) :
    (Limits.ofSlotBytes t.slotBytes carry).Suffices Config.capacityLimit := by
  refine ⟨?_, .inl (by decide)⟩
  cases t <;> rfl

namespace SharedArray

open Lock (Monitors)

/-- What the owner of an array may do with it. -/
inductive Operation (α : Type) where
  | call (c : Call α)
  /-- Exchanges the strategy. -/
  | setKind (k : Kind)
  /-- Gives back replaced stores that are still kept. -/
  | reclaim
  /-- Drops every element. -/
  | clear
  deriving DecidableEq, Repr

/-- What is seen of an array after an operation. -/
structure Outcome (α : Type) where
  answer : Answer α
  length : Nat
  capacity : Nat
  deriving DecidableEq, Repr

/-! ## The reference -/

/-- A list of elements, and the number of slots set aside for them. -/
structure Reference (α : Type) where
  elements : List α
  capacity : Nat
  deriving DecidableEq, Repr

namespace Reference

variable {α : Type}

/-- The capacity once there is room for `required` elements: at least double what it was and at
least sixteen, but never more than is allowed. -/
def roomFor (allowed : Nat) (r : Reference α) (required : Nat) : Nat :=
  if r.capacity < required then min allowed (max (max 16 (2 * r.capacity)) required)
  else r.capacity

/-- What a call comes to. -/
def perform (allowed : Nat) (r : Reference α) : Call α → Reference α × Answer α
  | .append v =>
    if r.elements.length < allowed then
      (⟨r.elements ++ [v], r.roomFor allowed (r.elements.length + 1)⟩, .index r.elements.length)
    else (r, .refused (.capacityOverflow (r.elements.length + 1) allowed))
  | .read i =>
    match r.elements[i]? with
    | some v => (r, .value v)
    | none => (r, .refused (.indexOutOfBounds i r.elements.length))
  | .write i v =>
    if i < r.elements.length then ({ r with elements := r.elements.set i v }, .done)
    else (r, .refused (.indexOutOfBounds i r.elements.length))
  | .ensureCapacity n =>
    if n ≤ r.capacity then (r, .done)
    else if allowed < n then (r, .refused (.capacityOverflow n allowed))
    else ({ r with capacity := r.roomFor allowed n }, .done)
  | .toArray => (r, .values r.elements.toArray)
  | .length => (r, .count r.elements.length)
  | .capacity => (r, .count r.capacity)

/-- What an operation comes to under the limits of a configuration. -/
def operate (config : Config) (r : Reference α) : Operation α → Reference α × Answer α
  | .call c => r.perform config.maxCapacity c
  | .setKind _ => (r, .done)
  | .reclaim => (r, .done)
  | .clear => (⟨[], config.initialCapacity⟩, .done)

/-- What is seen of the reference, operation by operation. -/
def outcomes (config : Config) (r : Reference α) : List (Operation α) → List (Outcome α)
  | [] => []
  | op :: ops =>
    let next := r.operate config op
    ⟨next.2, next.1.elements.length, next.1.capacity⟩ :: next.1.outcomes config ops

end Reference

/-! ## The array -/

/-- What an operation comes to; the operations on the array as a whole have nothing to answer. -/
def operate {L : Monitors} {α : Type} [Inhabited α] (a : SharedArray L α) :
    Operation α → SharedArray L α × Answer α
  | .call c => a.perform c
  | .setKind k => (a.setKind k, .done)
  | .reclaim => (a.reclaim.1, .done)
  | .clear => (a.clear, .done)

/-- What is seen of an array, operation by operation. -/
def outcomes {L : Monitors} {α : Type} [Inhabited α] (a : SharedArray L α) :
    List (Operation α) → List (Outcome α)
  | [] => []
  | op :: ops =>
    let next := operate a op
    ⟨next.2, next.1.length, next.1.capacity⟩ :: outcomes next.1 ops

/-- The ways to build an array. -/
inductive Construction (α : Type) where
  /-- Of a kind, with the other settings at their defaults. -/
  | ofKind (k : Kind)
  | ofConfig (config : Config)
  | ofValues (values : Array α) (config : Config)

namespace Construction

variable {α : Type}

/-- The settings the array is built with. -/
def config : Construction α → Config
  | ofKind k => .ofKind k
  | ofConfig config => config
  | ofValues _ config => config

/-- The elements the array starts with. -/
def values : Construction α → Array α
  | ofKind _ => #[]
  | ofConfig _ => #[]
  | ofValues values _ => values

/-- Builds the array on a machine with these limits. -/
def build {L : Monitors} [Inhabited α] (limits : Limits) :
    Construction α → Except Error (SharedArray L α)
  | ofKind k => .ok (empty (.ofKind k) limits)
  | ofConfig config => SharedArray.ofConfig config limits
  | ofValues values config => SharedArray.ofValues values config limits

/-- The reference the array starts as. -/
def reference (c : Construction α) : Reference α :=
  ⟨c.values.toList, max c.config.initialCapacity c.values.size⟩

end Construction

/-! ## A store and a length as the reference -/

/-- The reference that a store and a length amount to, within what is allowed. -/
structure Parts.Represents {α : Type} (allowed : Nat) (p : Parts α) (r : Reference α) : Prop where
  length : p.length = r.elements.length
  capacity : p.store.capacity = r.capacity
  get? : ∀ i, i < p.length → p.store.get? i = r.elements[i]?
  fits : r.elements.length ≤ r.capacity
  allowed : r.capacity ≤ allowed

namespace Parts.Represents

variable {α : Type} {allowed : Nat} {p : Parts α} {r : Reference α}

/-- The elements are all there, in their order. -/
theorem take (h : p.Represents allowed r) : p.store.take p.length = r.elements.toArray := by
  have hsize : p.length ≤ p.store.slots.size := by
    have hfits := h.fits
    have hcap := h.capacity
    simp only [Store.capacity] at hcap
    rw [h.length]
    omega
  apply Array.ext_getElem?
  intro i
  by_cases hi : i < p.length
  · have hget := h.get? i hi
    rw [Store.get?] at hget
    simp [Store.take, Array.getElem?_extract, hget]
    omega
  · have hnone : r.elements[i]? = none := by
      rw [List.getElem?_eq_none_iff, ← h.length]
      omega
    have hpast : (p.store.take p.length)[i]? = none := by
      rw [Array.getElem?_eq_none_iff]
      simp [Store.take]
      omega
    rw [hpast]
    simp [hnone]

theorem access_of_le (h : p.Represents allowed r) (beyond : Access α → Nat → Nat → Answer α)
    {i : Nat} (hi : r.elements.length ≤ i) (a : Access α) :
    p.access beyond i a = (p, .refused (.indexOutOfBounds i r.elements.length)) := by
  have hnot : ¬ i < p.length := by
    rw [h.length]
    omega
  rw [← h.length]
  cases a <;> simp only [access, if_neg hnot]

theorem read (h : p.Represents allowed r) (beyond : Access α → Nat → Nat → Answer α) (i : Nat) :
    (p.access beyond i .load).2 = (r.perform allowed (.read i)).2 ∧
      (p.access beyond i .load).1.Represents allowed (r.perform allowed (.read i)).1 := by
  by_cases hi : i < r.elements.length
  · have hlt : i < p.length := by
      rw [h.length]
      exact hi
    have hget := h.get? i hlt
    have hsome : r.elements[i]? = some r.elements[i] := List.getElem?_eq_getElem hi
    rw [hsome] at hget
    simp only [access, if_pos hlt, hget, Reference.perform, hsome]
    exact ⟨trivial, h⟩
  · rw [h.access_of_le beyond (by omega)]
    have hnone : r.elements[i]? = none := List.getElem?_eq_none (by omega)
    simp only [Reference.perform, hnone]
    exact ⟨trivial, h⟩

theorem write (h : p.Represents allowed r) (beyond : Access α → Nat → Nat → Answer α) (i : Nat)
    (v : α) :
    (p.access beyond i (.store v)).2 = (r.perform allowed (.write i v)).2 ∧
      (p.access beyond i (.store v)).1.Represents allowed
        (r.perform allowed (.write i v)).1 := by
  by_cases hi : i < r.elements.length
  · have hlen := h.length
    have hcap := h.capacity
    have hfits := h.fits
    have hlt : i < p.length := by omega
    have hget := h.get? i hlt
    rw [List.getElem?_eq_getElem hi] at hget
    simp only [access, if_pos hlt, hget, Reference.perform, if_pos hi, true_and]
    refine ⟨by simp [hlen], by simp [hcap], ?_, by simpa using hfits, h.allowed⟩
    intro j hj
    by_cases hij : i = j
    · subst hij
      rw [Store.get?_set_self _ _ (by omega), List.getElem?_set_self hi]
    · rw [Store.get?_set_of_ne _ _ hij, List.getElem?_set_ne hij]
      exact h.get? j hj
  · rw [h.access_of_le beyond (by omega), Reference.perform, if_neg hi]
    exact ⟨rfl, h⟩

variable [Inhabited α] {limits : Limits} {taken : Nat}

/-- Making room is a matter of the capacity alone. -/
theorem makeRoom (h : p.Represents allowed r) (hlimit : allowed ≤ Config.capacityLimit)
    (hlimits : limits.Suffices allowed) {required : Nat} (hreq : required ≤ allowed) :
    ∃ q, p.makeRoom limits allowed required = .ok q ∧
      q.Represents allowed { r with capacity := r.roomFor allowed required } ∧
      required ≤ q.store.capacity := by
  have hcap := h.capacity
  have hallowed := h.allowed
  by_cases hroom : required ≤ p.store.capacity
  · have hsame : r.roomFor allowed required = r.capacity := if_neg (by omega)
    rw [hsame]
    exact ⟨p, if_pos hroom, h, hroom⟩
  · have hsize : min maxSize (2 * r.capacity) = 2 * r.capacity := by
      have hmax : 2 * Config.capacityLimit ≤ maxSize := by decide
      omega
    have hnext : capacityFor p.store.capacity required allowed =
        .ok (r.roomFor allowed required) := by
      rw [capacityFor, if_neg (by omega), hcap, hsize, Reference.roomFor, if_pos (by omega)]
      rfl
    have hle := le_of_capacityFor hnext
    have hmore : p.store.capacity < r.roomFor allowed required := by omega
    have hgrown : (p.store.grown (r.roomFor allowed required)).capacity =
        r.roomFor allowed required := by
      rw [Store.capacity_grown]
      omega
    have hmade : p.makeRoom limits allowed required =
        .ok { p with store := p.store.grown (r.roomFor allowed required) } := by
      have hholds := Limits.holds_of_le hlimits.holds hle.2
      simp only [Parts.makeRoom, if_neg hroom, hnext, hholds, if_true]
    refine ⟨_, hmade, ⟨h.length, hgrown, ?_, ?_, hle.2⟩, ?_⟩
    · intro i hi
      have hi : i < p.length := hi
      have hlt : i < p.store.capacity := by
        have := h.length
        have := h.fits
        omega
      show (p.store.grown _).get? i = _
      rw [Store.get?_grown_of_lt _ _ hlt]
      exact h.get? i hi
    · have := h.fits
      show r.elements.length ≤ r.roomFor allowed required
      omega
    · show required ≤ (p.store.grown _).capacity
      rw [hgrown]
      exact hle.1

theorem append (h : p.Represents allowed r) (hlimit : allowed ≤ Config.capacityLimit)
    (hlimits : limits.Suffices allowed) (v : α) :
    (p.append limits allowed p.length v).2 = (r.perform allowed (.append v)).2 ∧
      (p.append limits allowed p.length v).1.Represents allowed
        (r.perform allowed (.append v)).1 := by
  have hlen := h.length
  by_cases hmax : p.length < allowed
  · have hreq : p.length + 1 ≤ allowed := hmax
    obtain ⟨q, hq, hrep, hroom⟩ := h.makeRoom hlimit hlimits hreq
    have hqlen : q.length = r.elements.length := hrep.length
    have hqcap : q.store.capacity = r.roomFor allowed (p.length + 1) := hrep.capacity
    have hset : (q.store.set p.length v).capacity = q.store.capacity := Store.capacity_set ..
    rw [Parts.append, if_pos hmax, Reference.perform, if_pos (by omega), hq]
    refine ⟨by rw [hlen], ?_⟩
    constructor
    · simp [hlen]
    · rw [hset, hqcap, hlen]
    · intro i hi
      have hi : i < p.length + 1 := hi
      by_cases hlast : i = p.length
      · subst hlast
        rw [Store.get?_set_self _ _ (by omega)]
        simp [hlen]
      · rw [Store.get?_set_of_ne _ _ (by omega), hrep.get? i (by omega),
          List.getElem?_append_left (by omega)]
    · simp only [List.length_append, List.length_singleton, ← hlen, ← hqcap]
      omega
    · rw [← hlen]
      exact hrep.allowed
  · have hfull := Answer.full_of_suffices (α := α) (hlimits.mono (m := p.length) ?_) allowed
    · rw [Parts.append, if_neg hmax, Reference.perform, if_neg (by omega), hfull, hlen]
      exact ⟨rfl, h⟩
    · have := h.fits
      have := h.allowed
      omega

theorem ensureCapacity (h : p.Represents allowed r) (hlimit : allowed ≤ Config.capacityLimit)
    (hlimits : limits.Suffices allowed) (beyond : Access α → Nat → Nat → Answer α) (n : Nat) :
    (p.perform limits allowed taken beyond (.ensureCapacity n)).2 =
        (r.perform allowed (.ensureCapacity n)).2 ∧
      (p.perform limits allowed taken beyond (.ensureCapacity n)).1.Represents allowed
        (r.perform allowed (.ensureCapacity n)).1 := by
  have hcap := h.capacity
  by_cases hroom : n ≤ r.capacity
  · have hroom' : n ≤ p.store.capacity := hcap ▸ hroom
    simp only [Parts.perform, Parts.makeRoom, if_pos hroom', Reference.perform, if_pos hroom]
    exact ⟨trivial, h⟩
  · by_cases hmax : n ≤ allowed
    · obtain ⟨q, hq, hrep, -⟩ := h.makeRoom hlimit hlimits hmax
      simp only [Parts.perform, hq, Reference.perform, if_neg hroom,
        if_neg (Nat.not_lt.mpr hmax)]
      exact ⟨trivial, hrep⟩
    · have herror : capacityFor p.store.capacity n allowed =
          .error (.capacityOverflow n allowed) :=
        capacityFor_eq_error_iff.mpr (Nat.lt_of_not_le hmax)
      have hroom' : ¬ n ≤ p.store.capacity := hcap ▸ hroom
      simp only [Parts.perform, Parts.makeRoom, if_neg hroom', herror, Reference.perform,
        if_neg hroom, if_pos (Nat.lt_of_not_le hmax)]
      exact ⟨trivial, h⟩

/-- A call on the two parts is the call on the reference. -/
theorem perform (h : p.Represents allowed r) (hlimit : allowed ≤ Config.capacityLimit)
    (hlimits : limits.Suffices allowed) (htaken : p.Taken limits allowed taken)
    (beyond : Access α → Nat → Nat → Answer α) (c : Call α) :
    (p.perform limits allowed taken beyond c).2 = (r.perform allowed c).2 ∧
      (p.perform limits allowed taken beyond c).1.Represents allowed (r.perform allowed c).1 := by
  obtain rfl := htaken.eq_length (Limits.admits_of_holds hlimits.holds)
  cases c with
  | append v => exact h.append hlimit hlimits v
  | read i => exact h.read beyond i
  | write i v => exact h.write beyond i v
  | ensureCapacity n => exact h.ensureCapacity hlimit hlimits beyond n
  | toArray => exact ⟨congrArg Answer.values h.take, h⟩
  | length => exact ⟨congrArg Answer.count h.length, h⟩
  | capacity => exact ⟨congrArg Answer.count h.capacity, h⟩

end Parts.Represents

/-! ## The array as the reference -/

/-- An array that is the reference under the limits of a configuration, whatever its strategy. -/
structure Models {L : Monitors} {α : Type} (config : Config) (limits : Limits) (a : SharedArray L α)
    (r : Reference α) : Prop where
  initial : a.config.initialCapacity = config.initialCapacity
  max : a.config.maxCapacity = config.maxCapacity
  limited : a.limits = limits
  holds : ∃ p : Parts α, a.strategy.Holds limits config.maxCapacity p ∧
    p.Represents config.maxCapacity r

section

variable {L : Monitors} {α : Type} {config : Config} {limits : Limits} {a : SharedArray L α}
  {r : Reference α}

theorem Models.length (h : Models config limits a r) : a.length = r.elements.length := by
  obtain ⟨p, hp, hrep⟩ := h.holds
  exact hp.length.trans hrep.length

theorem Models.capacity (h : Models config limits a r) : a.capacity = r.capacity := by
  obtain ⟨p, hp, hrep⟩ := h.holds
  exact hp.capacity.trans hrep.capacity

/-- Exchanging the strategy carries the reference over. -/
theorem Models.setKind (h : Models config limits a r) (k : Kind) :
    Models config limits (a.setKind k) r := by
  unfold SharedArray.setKind
  split
  · exact h
  · obtain ⟨p, hp, hrep⟩ := h.holds
    obtain ⟨hstore, hlen⟩ := hp.intoParts
    have hnew := Strategy.holds_ofStore (L := L) k p a.config a.limits
    rw [h.max, h.limited, ← hstore, ← hlen] at hnew
    refine ⟨h.initial, h.max, h.limited, p, ?_, hrep⟩
    rw [h.limited]
    exact hnew

variable [Inhabited α]

/-- A new array of no elements is the empty reference. -/
theorem models_empty (hvalid : config.Valid) {c : Config}
    (hinitial : c.initialCapacity = config.initialCapacity)
    (hmax : c.maxCapacity = config.maxCapacity) :
    Models config limits (empty c limits : SharedArray L α)
      (⟨[], config.initialCapacity⟩ : Reference α) := by
  refine ⟨hinitial, hmax, rfl, ⟨⟨.ofCapacity c.initialCapacity, 0⟩, ?_, ?_⟩⟩
  · rw [← hmax]
    exact Strategy.holds_ofStore c.strategy ⟨.ofCapacity c.initialCapacity, 0⟩ c limits
  · refine ⟨rfl, ?_, ?_, Nat.zero_le _, hvalid.2.2⟩
    · rw [Store.capacity_ofCapacity, hinitial]
    · intro i hi
      cases hi

theorem models_ofValues (hvalid : config.Valid) (values : Array α)
    (hsize : values.size ≤ config.maxCapacity) {journal : List Record} :
    Models config limits
      (⟨config, limits, .ofStore config.strategy (.ofValues values config.initialCapacity)
        values.size config limits, journal⟩ : SharedArray L α)
      (⟨values.toList, Max.max config.initialCapacity values.size⟩ : Reference α) := by
  refine ⟨rfl, rfl, rfl, ⟨⟨.ofValues values config.initialCapacity, values.size⟩, ?_, ?_⟩⟩
  · exact Strategy.holds_ofStore config.strategy
      ⟨.ofValues values config.initialCapacity, values.size⟩ config limits
  · refine ⟨by simp, Store.capacity_ofValues .., ?_, ?_, ?_⟩
    · intro i hi
      have hi : i < values.size := hi
      simp [Store.get?, Store.ofValues, Array.getElem?_append, hi]
    · show values.toList.length ≤ Max.max config.initialCapacity values.size
      rw [Array.length_toList]
      omega
    · have := hvalid.2.2
      show Max.max config.initialCapacity values.size ≤ config.maxCapacity
      omega

variable (hL : L.Lawful) (hlimits : limits.Suffices Config.capacityLimit)

include hL hlimits

/-- One operation on the array is the operation on the reference. -/
theorem Models.operate (h : Models config limits a r) (hvalid : config.Valid) (op : Operation α) :
    (operate a op).2 = (r.operate config op).2 ∧
      Models config limits (operate a op).1 (r.operate config op).1 := by
  cases op with
  | call c =>
    obtain ⟨p, hp, hrep⟩ := h.holds
    obtain ⟨hanswer, hp', -, -, -⟩ := hp.perform hL c
    obtain ⟨hsame, hrep'⟩ := hrep.perform hvalid.2.1 (hlimits.mono hvalid.2.1) hp.taken
      a.strategy.beyond c
    exact ⟨hanswer.trans hsame, h.initial, h.max, h.limited, _, hp', hrep'⟩
  | setKind k => exact ⟨rfl, h.setKind k⟩
  | reclaim =>
    obtain ⟨p, hp, hrep⟩ := h.holds
    exact ⟨rfl, h.initial, h.max, h.limited, p, hp.reclaim, hrep⟩
  | clear =>
    obtain ⟨hinitial, hmax, -, hholds⟩ : Models config limits
        (empty a.config limits : SharedArray L α) ⟨[], config.initialCapacity⟩ :=
      models_empty hvalid h.initial h.max
    refine ⟨rfl, hinitial, hmax, h.limited, ?_⟩
    rw [← h.limited] at hholds ⊢
    exact hholds

theorem Models.outcomes (h : Models config limits a r) (hvalid : config.Valid)
    (ops : List (Operation α)) : outcomes a ops = r.outcomes config ops := by
  induction ops generalizing a r with
  | nil => rfl
  | cons op ops ih =>
    obtain ⟨hanswer, hnext⟩ := h.operate hL hlimits hvalid op
    simp only [SharedArray.outcomes, Reference.outcomes]
    rw [hanswer, hnext.length, hnext.capacity, ih hnext]

end

/-! ## From construction on -/

/-- An array that is built from an accepted configuration, and from no more values than it allows,
answers every sequence of operations as the reference does. -/
theorem outcomes_build {L : Monitors} (hL : L.Lawful) {α : Type} [Inhabited α] {limits : Limits}
    (hlimits : limits.Suffices Config.capacityLimit) (c : Construction α)
    (haccepted : c.config.validate = .ok ()) (hsize : c.values.size ≤ c.config.maxCapacity) :
    ∃ a : SharedArray L α, c.build limits = .ok a ∧
      ∀ ops, outcomes a ops = c.reference.outcomes c.config ops := by
  have hvalid := (Config.validate_eq_ok_iff c.config).mp haccepted
  have hreference (c : Construction α) (hnone : c.values = #[]) :
      c.reference = ⟨[], c.config.initialCapacity⟩ := by
    simp [Construction.reference, hnone]
  cases c with
  | ofKind k =>
    refine ⟨empty (.ofKind k) limits, rfl, ?_⟩
    rw [hreference _ rfl]
    exact (models_empty hvalid rfl rfl).outcomes hL hlimits hvalid
  | ofConfig config =>
    have hbuild : SharedArray.ofConfig config limits =
        .ok (empty config limits : SharedArray L α) := by
      have haccepted : config.validate = .ok () := haccepted
      rw [SharedArray.ofConfig, haccepted]
      rfl
    refine ⟨_, hbuild, ?_⟩
    rw [hreference _ rfl]
    exact (models_empty hvalid rfl rfl).outcomes hL hlimits hvalid
  | ofValues values config =>
    have haccepted : config.validate = .ok () := haccepted
    have hsize : values.size ≤ config.maxCapacity := hsize
    refine ⟨⟨config, limits, .ofStore config.strategy (.ofValues values config.initialCapacity)
      values.size config limits, []⟩, ?_, ?_⟩
    · simp only [Construction.build, SharedArray.ofValues, haccepted, bind, Except.bind,
        if_neg (Nat.not_lt.mpr hsize)]
      rfl
    · exact (models_ofValues hvalid values hsize).outcomes hL hlimits hvalid

/-- A full array of 64-bit numbers, its strategy exchanged twice. -/
theorem outcomes_build_full :
    ∃ a : SharedArray {} UInt64, (Construction.ofValues #[3, 5]
        { strategy := .stampedLock, initialCapacity := 2, maxCapacity := 3 }).build
          (.ofSlotBytes ElementType.uint64.slotBytes .wraps) = .ok a ∧
      outcomes a [.call (.append 8), .setKind .reentrantLock, .call (.append 9), .call (.read 3),
          .setKind .fastLayoutLock, .call (.write 0 7), .call .toArray, .clear] =
        [⟨.index 2, 3, 3⟩, ⟨.done, 3, 3⟩, ⟨.refused (.capacityOverflow 4 3), 3, 3⟩,
          ⟨.refused (.indexOutOfBounds 3 3), 3, 3⟩, ⟨.done, 3, 3⟩, ⟨.done, 3, 3⟩,
          ⟨.values #[7, 5, 8], 3, 3⟩, ⟨.done, 0, 2⟩] := by
  obtain ⟨a, hbuild, hsame⟩ := outcomes_build (α := UInt64) Monitors.lawful_default
    (ElementType.uint64.suffices .wraps)
    (.ofValues #[3, 5] { strategy := .stampedLock, initialCapacity := 2, maxCapacity := 3 })
    ((Config.validate_eq_ok_iff _).mpr (by decide)) (by decide)
  exact ⟨a, hbuild, (hsame _).trans (by decide)⟩

end SharedArray

end Growable
