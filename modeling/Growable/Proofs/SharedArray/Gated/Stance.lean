import Growable.Proofs.Lock.Flagged
import Growable.Proofs.Lock.Stance
import Growable.SharedArray.Strategy

/-!
# Threads under the gate of an array

Every step of a thread that uses an array goes through the gate of its strategy. So while one thread
grows the store no other is inside.
-/

namespace Growable.SharedArray

/-! ## The gates of the strategies -/

/-- The word of a gate fits the places of all threads. -/
def GateKind.Fits : (k : GateKind) → k.gate.Word → List k.gate.Place → Prop
  | stamped => Lock.Stamped.Fits
  | layout => Lock.Layout.Fits
  | flagged => Lock.Flagged.Fits

/-- The places outside a gate and on the way into a mode. -/
def GateKind.Toward : (k : GateKind) → Lock.Mode → k.gate.Place → Prop
  | stamped => Lock.Stamped.Toward
  | layout => Lock.Layout.Toward
  | flagged => Lock.Flagged.Toward

theorem GateKind.excludes : (k : GateKind) → k.gate.Excludes k.Fits k.Toward
  | stamped => Lock.Gate.excludes_stamped
  | layout => Lock.Gate.excludes_layout
  | flagged => Lock.Gate.excludes_flagged

namespace Gated

open Lock (Gate Gating Mode Stance)

/-! ## Stances -/

/-- The stance of a task. -/
def Task.stance {G : Gate} {α : Type} : Task G α → Stance
  | .rest _ | .length | .reserve _ | .reserveSwap .. | .await _ | .commit _ | .tryAll _
  | .tryStamp .. | .tryLength .. | .tryPointer .. | .trySlot .. | .tryValid .. => .outside
  | .measure _ => if G.optimistic then .outside else .toward .shared
  | .placeEnter .. | .accessEnter .. | .collectEnter => .toward .shared
  | .growEnter _ => .toward .exclusive
  | .measureInside _ | .measureLeave .. | .placePointer .. | .placeSlot .. | .placeLeave ..
  | .accessLength .. | .accessPointer .. | .accessSlot .. | .collectPointer | .collectLength _
  | .collect .. => .holding .shared
  | .growPointer _ | .copy .. | .publish .. | .fitPointer .. | .fitSlot .. | .growLeave _ =>
    .holding .exclusive
  | .leave _ => .inside

/-- What of an array and its threads concerns the gate. -/
def view (G : Gate) (α : Type) : Lock.View G (Shared G α) (Client G α) where
  word := Shared.gate
  place := Client.place
  stance c := c.task.stance

/-- The places of all threads. -/
def places {G : Gate} {α : Type} (p : Pool (Shared G α) (Client G α)) : List G.Place :=
  (view G α).places p

/-- The word fits the places, and the places fit the tasks. -/
def Orderly {G : Gate} {α : Type} (Fits : G.Word → List G.Place → Prop)
    (Toward : Mode → G.Place → Prop) (p : Pool (Shared G α) (Client G α)) : Prop :=
  (view G α).Orderly Fits Toward p

section

variable {G : Gate} {α : Type}

theorem stance_ofCall (c : Call α) : Stance.Allows .outside (Task.ofCall (G := G) c).stance := by
  cases c with
  | read i =>
    simp only [Task.ofCall]
    split <;> exact trivial
  | ensureCapacity n =>
    simp only [Task.ofCall, Task.stance]
    split <;> exact trivial
  | capacity =>
    simp only [Task.ofCall, Task.stance]
    split <;> exact trivial
  | _ => exact trivial

theorem stance_afterMeasure (need? : Option Nat) (found : Nat) :
    Stance.Allows .outside (Task.afterMeasure (G := G) (α := α) need? found).stance := by
  cases need? with
  | none => exact trivial
  | some n =>
    simp only [Task.afterMeasure]
    split <;> exact trivial

theorem stance_afterGrowth (g : Growth α) :
    (Task.afterGrowth (G := G) g).stance = .holding .exclusive := by
  cases g <;> rfl

theorem stance_afterValid (i len : Nat) (v? : Option α) :
    (Task.afterValid (G := G) i len v?).stance = .outside := by
  cases v? with
  | none => rfl
  | some v =>
    simp only [Task.afterValid]
    split <;> rfl

theorem stance_ofReserved (limits : Limits) (v : α) (reserved maxCapacity : Nat) :
    (Task.ofReserved (G := G) limits v reserved maxCapacity).stance = .outside := by
  unfold Task.ofReserved
  split <;> rfl

end

section

variable {G : Gate} {α : Type} [Inhabited α]

omit [Inhabited α] in
/-- On the way into a mode a thread stays at its task, or gets to the next one. -/
theorem enter_task {P : Task G α → Prop} {m : Mode} {luck : Bool} {next : Task G α}
    {s : Shared G α} {c : Client G α} (hnext : P next) (hstay : P c.task) :
    P (enter m luck next s c).2.task := by
  simp only [enter]
  split
  · exact hnext
  · exact hstay

omit [Inhabited α] in
theorem gating_enter (m : Mode) (luck : Bool) (s : Shared G α) {c : Client G α} {next : Task G α}
    (hstance : c.task.stance = .toward m) (hnext : next.stance = .holding m) :
    Gating luck s.gate c.place c.task.stance (enter m luck next s c).1.gate
      (enter m luck next s c).2.place (enter m luck next s c).2.task.stance := by
  have hentered : (enter m luck next s c).2.task.stance =
      if G.holds m (G.seek m luck s.gate c.place).2 then .holding m else .toward m := by
    simp only [enter]
    split
    · exact hnext
    · exact hstance
  rw [hentered]
  exact .enter m hstance

/-- Every step goes through the gate. -/
theorem gating (luck : Bool) (s : Shared G α) (c : Client G α) :
    Gating luck s.gate c.place c.task.stance (step luck s c).1.gate (step luck s c).2.place
      (step luck s c).2.task.stance := by
  rcases c with ⟨place, task⟩
  cases task with
  | measure need? =>
    simp only [step]
    split
    · rename_i hopt
      refine .go ?_
      rw [show (Task.measure need? : Task G α).stance = .outside by simp [Task.stance, hopt]]
      exact stance_afterMeasure need? _
    · rename_i hopt
      have htoward : (Task.measure need? : Task G α).stance = .toward .shared := by
        simp [Task.stance, hopt]
      exact gating_enter (c := ⟨place, .measure need?⟩) .shared luck s htoward rfl
  | measureLeave need? found => exact .leave rfl (stance_afterMeasure need? found)
  | reserve v =>
    simp only [step]
    refine .go ?_
    rw [stance_ofReserved]
    exact trivial
  | reserveSwap v seen =>
    simp only [step]
    split
    · exact .go trivial
    · refine .go ?_
      rw [stance_ofReserved]
      exact trivial
  | placeEnter i v => exact gating_enter .shared luck s rfl rfl
  | placeSlot i v p =>
    simp only [step]
    split
    · exact .go rfl
    · exact .go rfl
  | placeLeave i v written =>
    simp only [step]
    refine .leave rfl ?_
    split <;> exact trivial
  | growEnter g => exact gating_enter .exclusive luck s rfl rfl
  | growPointer g =>
    simp only [step]
    split
    · refine .go ?_
      rw [stance_afterGrowth]
      exact rfl
    · split
      · exact .go trivial
      · refine .go ?_
        dsimp only
        split
        · exact rfl
        · exact trivial
  | copy g p target buffer =>
    simp only [step]
    split
    · exact .go rfl
    · exact .go rfl
  | publish g target buffer =>
    simp only [step]
    refine .go ?_
    rw [stance_afterGrowth]
    exact rfl
  | fitSlot i v p =>
    simp only [step]
    split
    · exact .go rfl
    · exact .go trivial
  | growLeave g =>
    refine .leave rfl ?_
    cases g <;> exact trivial
  | await i =>
    simp only [step]
    refine .go ?_
    split <;> exact trivial
  | tryStamp i left =>
    cases left with
    | zero => exact .go trivial
    | succ left =>
      simp only [step]
      refine .go ?_
      split <;> exact trivial
  | tryValid i left stamp len v? =>
    simp only [step]
    refine .go ?_
    split
    · rw [stance_afterValid]
      exact trivial
    · exact trivial
  | accessEnter i a => exact gating_enter .shared luck s rfl rfl
  | accessLength i a =>
    simp only [step]
    refine .go ?_
    split
    · exact rfl
    · exact trivial
  | accessSlot i a p =>
    simp only [step]
    split
    · exact .go trivial
    · exact .go trivial
  | collectEnter => exact gating_enter .shared luck s rfl rfl
  | collect p n buffer =>
    simp only [step]
    split
    · split
      · exact .go rfl
      · exact .go trivial
    · exact .go trivial
  | leave a => exact .leave rfl trivial
  | rest | length | commit | tryAll | tryLength | tryPointer | trySlot => exact .go trivial
  | _ => exact .go rfl

end

/-! ## In every run -/

/-- An array around a store that holds `len` elements, and threads that have not used it yet. -/
def idle (G : Gate) {α : Type} (store : Store α) (len : Nat) (config : Config) (threads : Nat)
    (limits : Limits := {}) : Pool (Shared G α) (Client G α) :=
  ⟨ofStore G store len config limits, Array.replicate threads {}⟩

theorem idle_get? {G : Gate} {α : Type} {store : Store α} {len : Nat} {config : Config}
    {threads t : Nat} {limits : Limits} {c : Client G α}
    (h : (idle G store len config threads limits).threads[t]? = some c) : c = {} := by
  obtain ⟨-, rfl⟩ := Array.getElem?_eq_some_iff.mp h
  simp [idle]

section

variable {G : Gate} {α : Type} {Fits : G.Word → List G.Place → Prop}
  {Toward : Mode → G.Place → Prop} {p : Pool (Shared G α) (Client G α)} {t : Nat} {c : Client G α}

theorem places_get? (h : p.threads[t]? = some c) : (places p)[t]? = some c.place :=
  Lock.View.places_get? h

theorem Orderly.fits (h : Orderly Fits Toward p) : Fits p.shared.gate (places p) :=
  Lock.View.Orderly.fits h

theorem Orderly.stands (h : Orderly Fits Toward p) (ht : p.threads[t]? = some c) :
    c.task.stance.Fits Toward c.place :=
  Lock.View.Orderly.stands h ht

/-- While one thread is in exclusive mode no other is inside. -/
theorem Orderly.apart (hG : G.Excludes Fits Toward) (h : Orderly Fits Toward p) {u : Nat}
    {d : Client G α} (htu : t ≠ u) (ht : p.threads[t]? = some c) (hu : p.threads[u]? = some d)
    (hc : c.task.stance = .holding .exclusive) : d.task.stance.isInside = false :=
  Lock.View.Orderly.apart hG h htu ht hu hc

theorem orderly_idle (hG : G.Excludes Fits Toward) (store : Store α) (len : Nat) (config : Config)
    (threads : Nat) (limits : Limits) :
    Orderly Fits Toward (idle G store len config threads limits) :=
  Lock.View.orderly_idle hG rfl rfl rfl threads

variable [Inhabited α]

theorem follows (G : Gate) (α : Type) [Inhabited α] : (view G α).Follows (machine G α) where
  start := by
    rintro call ⟨place, task⟩ hrest
    cases task with
    | rest last? => exact ⟨rfl, stance_ofCall call⟩
    | _ => cases hrest
  step _ luck s c _ := gating luck s c

theorem Orderly.act (hG : G.Excludes Fits Toward) (h : Orderly Fits Toward p)
    (turn : Turn (Call α)) : Orderly Fits Toward ((machine G α).act p turn) :=
  Lock.View.Orderly.act hG (follows G α) h turn

end

end Gated

end Growable.SharedArray
