import Growable.Proofs.Lock.Exclusion
import Growable.Proofs.Runs

/-!
# Threads that use a gate

However many threads use a gate, a turn moves at most one of them, in one of the few ways that
`Gate.Shift` lists: a step into a mode or out of it, the beginning of a single attempt, its failure,
or a step that concerns what the thread keeps between two uses. What all of these keep of the word
and of the places where the threads stand is so in every run.
-/

namespace Growable

/-- The thread whose turn it is. -/
def Turn.thread {κ : Type} : Turn κ → Nat
  | .call i _ | .step i _ => i

namespace Lock.Gate

/-- The places of all threads. -/
def places {G : Gate} (p : Pool G.Word (Client G)) : List G.Place :=
  p.threads.toList.map Client.place

/-- What a thread is doing goes with where it stands. -/
def Client.Stands {G : Gate} (Toward : Mode → G.Place → Prop) (c : Client G) : Prop :=
  match c.task with
  | .entering m | .attempting m => Toward m c.place
  | .leaving => G.inside c.place = true
  | _ => True

/-- What a turn does to the word and to the place of the thread that it moves. -/
inductive Shift (G : Gate) (Toward : Mode → G.Place → Prop) (w : G.Word) (p : G.Place) :
    G.Word → G.Place → Prop
  | stay : Shift G Toward w p w p
  /-- A single attempt begins. -/
  | attempt {m : Mode} {q : G.Place} : G.outside p = true → G.attempt? m = some q →
    Shift G Toward w p w q
  | seek (m : Mode) (luck : Bool) : Toward m p →
    Shift G Toward w p (G.seek m luck w p).1 (G.seek m luck w p).2
  /-- A single attempt fails. -/
  | retreat (m : Mode) (luck : Bool) {q : G.Place} : Toward m p →
    G.retreat? (G.seek m luck w p).2 = some q → Shift G Toward w p (G.seek m luck w p).1 q
  | leave : G.inside p = true → Shift G Toward w p (G.leave w p).1 (G.leave w p).2
  | enroll : Shift G Toward w p (G.enroll w p).1 (G.enroll w p).2
  | retire : Shift G Toward w p (G.retire w p).1 (G.retire w p).2

/-- A turn moves the thread whose turn it is, or none. -/
inductive Moved {G : Gate} (Toward : Mode → G.Place → Prop) (p : Pool G.Word (Client G))
    (turn : Turn (Request G.Stamp)) : Pool G.Word (Client G) → Prop
  | stay : Moved Toward p turn p
  | shift {c d : Client G} {w : G.Word} : p.threads[turn.thread]? = some c → d.Stands Toward →
    Shift G Toward p.shared c.place w d.place → Moved Toward p turn (p.put turn.thread w d)

variable {G : Gate} {Fits : G.Word → List G.Place → Prop} {Toward : Mode → G.Place → Prop}
  {p p' : Pool G.Word (Client G)} {c d : Client G} {w : G.Word} {i : Nat}
  {turn : Turn (Request G.Stamp)}

theorem places_get? (h : p.threads[i]? = some c) : (places p)[i]? = some c.place := by
  rw [places, List.getElem?_map, Array.getElem?_toList, h]
  rfl

theorem places_put (p : Pool G.Word (Client G)) (i : Nat) (w : G.Word) (c : Client G) :
    places (p.put i w c) = (places p).set i c.place := by
  rw [places, places, Pool.toList_put, List.map_set]

theorem places_idle (n : Nat) : places (idle G n) = .replicate n G.fresh := by
  simp [places, idle]

/-! ## One turn -/

namespace Client

theorem stands_of_rests (h : c.rests = true) : c.Stands Toward := by
  rcases c with ⟨place, task⟩
  cases task with
  | rest => exact trivial
  | _ => cases h

/-- To be handed a request is to stay, or to begin a single attempt. -/
theorem shift_start (hG : G.Excludes Fits Toward)
    (hattempt : ∀ {m : Mode} {q : G.Place}, G.attempt? m = some q → Toward m q)
    (hrest : c.rests = true) (r : Request G.Stamp) :
    (c.start r).Stands Toward ∧ Shift G Toward w c.place w (c.start r).place := by
  have hidle : c.Stands Toward ∧ Shift G Toward w c.place w c.place :=
    ⟨stands_of_rests hrest, .stay⟩
  cases r with
  | enter m =>
    simp only [start]
    split
    · rename_i hout
      exact ⟨hG.outside m hout, .stay⟩
    · exact hidle
  | attempt m =>
    simp only [start]
    split
    · rename_i hout
      split
      · rename_i q hq
        exact ⟨hattempt hq, .attempt hout hq⟩
      · exact hidle
    · exact hidle
  | leave =>
    simp only [start]
    split
    · rename_i hinside
      exact ⟨hinside, .stay⟩
    · exact hidle
  | stamp | validate s => exact ⟨trivial, .stay⟩
  | enroll | retire =>
    simp only [start]
    split
    · exact ⟨trivial, .stay⟩
    · exact hidle

theorem shift_step (hG : G.Excludes Fits Toward) (h : c.Stands Toward) (luck : Bool)
    (w : G.Word) : (c.step luck w).2.Stands Toward ∧
      Shift G Toward w c.place (c.step luck w).1 (c.step luck w).2.place := by
  rcases c with ⟨place, task⟩
  cases task with
  | rest last? => exact ⟨trivial, .stay⟩
  | entering m =>
    have hway : Toward m place := h
    refine ⟨?_, .seek m luck hway⟩
    simp only [step]
    split
    · exact trivial
    · rename_i hnot
      exact (hG.toward m luck hway).resolve_left hnot
  | attempting m =>
    have hway : Toward m place := h
    simp only [step]
    split
    · exact ⟨trivial, .seek m luck hway⟩
    · rename_i hnot
      split
      · rename_i q hq
        exact ⟨trivial, .retreat m luck hway hq⟩
      · exact ⟨(hG.toward m luck hway).resolve_left hnot, .seek m luck hway⟩
  | leaving => exact ⟨trivial, .leave h⟩
  | stamping | validating s => exact ⟨trivial, .stay⟩
  | enrolling =>
    refine ⟨?_, .enroll⟩
    simp only [step]
    split <;> exact trivial
  | retiring => exact ⟨trivial, .retire⟩

/-- What a thread finds out of the word by a stamp, it finds out in the step that answers it. -/
theorem of_reply? {luck : Bool} {r : Reply G.Stamp} (hbusy : c.rests = false)
    (h : (c.step luck w).2.reply? = some r) :
    (∀ s?, r = .stamp s? → s? = G.stamp? w) ∧
      ∀ b, r = .valid b → ∃ s, c.task = .validating s ∧ b = G.valid w s := by
  rcases c with ⟨place, task⟩
  cases task with
  | rest => cases hbusy
  | entering m =>
    simp only [step] at h
    split at h <;> cases h
    exact ⟨nofun, nofun⟩
  | attempting m =>
    simp only [step] at h
    split at h
    · cases h
      exact ⟨nofun, nofun⟩
    · split at h <;> cases h
      exact ⟨nofun, nofun⟩
  | leaving =>
    cases h
    exact ⟨nofun, nofun⟩
  | stamping =>
    cases h
    refine ⟨?_, nofun⟩
    rintro s? ⟨⟩
    rfl
  | validating s =>
    cases h
    refine ⟨nofun, ?_⟩
    rintro b ⟨⟩
    exact ⟨s, rfl, rfl⟩
  | enrolling =>
    simp only [step] at h
    split at h <;> cases h
    exact ⟨nofun, nofun⟩
  | retiring =>
    cases h
    exact ⟨nofun, nofun⟩

theorem eq_validate_of_start {r : Request G.Stamp} {s : G.Stamp} (hrest : c.rests = true)
    (h : (c.start r).task = .validating s) : r = .validate s := by
  have hidle : c.task ≠ .validating s := by
    intro htask
    rw [rests, htask] at hrest
    cases hrest
  cases r with
  | validate s' =>
    cases h
    rfl
  | stamp => cases h
  | attempt m =>
    simp only [start] at h
    split at h
    · split at h
      · cases h
      · exact absurd h hidle
    · exact absurd h hidle
  | _ =>
    simp only [start] at h
    split at h
    · cases h
    · exact absurd h hidle

theorem task_step_ne_validating {luck : Bool} {s : G.Stamp} (hbusy : c.rests = false) :
    (c.step luck w).2.task ≠ .validating s := by
  rcases c with ⟨place, task⟩
  cases task with
  | rest => cases hbusy
  | entering m | enrolling =>
    simp only [step]
    split <;> exact nofun
  | attempting m =>
    simp only [step]
    split
    · exact nofun
    · split <;> exact nofun
  | _ => exact nofun

end Client

/-! ## What is seen of a turn -/

/-- The thread that a turn takes from a place of one sort to a place of another. -/
def passes? (source target : G.Place → Bool) (p : Pool G.Word (Client G))
    (turn : Turn (Request G.Stamp)) : Option Nat :=
  if (p.threads[turn.thread]?.any fun c => source c.place) &&
      ((client G).act p turn).threads[turn.thread]?.any fun c => target c.place then
    some turn.thread
  else none

variable {source target : G.Place → Bool}

theorem passes?_of_stay (hdisjoint : ∀ q, source q = true → target q = false)
    (hact : (client G).act p turn = p) : passes? source target p turn = none := by
  rw [passes?, hact, if_neg]
  cases p.threads[turn.thread]? with
  | none => exact Bool.false_ne_true
  | some c =>
    rw [Option.any_some, Option.any_some, Bool.and_eq_true]
    rintro ⟨hsource, htarget⟩
    rw [hdisjoint _ hsource] at htarget
    cases htarget

theorem passes?_of_shift (hc : p.threads[turn.thread]? = some c)
    (hact : (client G).act p turn = p.put turn.thread w d) :
    passes? source target p turn =
      if source c.place && target d.place then some turn.thread else none := by
  have hd : (p.put turn.thread w d).threads[turn.thread]? = some d :=
    (Pool.getElem?_put_iff hc).mpr (.inl ⟨rfl, rfl⟩)
  rw [passes?, hact, hc, hd, Option.any_some, Option.any_some]

theorem shift_of_passes? (hmoved : Moved Toward p turn ((client G).act p turn))
    (hdisjoint : ∀ q, source q = true → target q = false)
    (h : passes? source target p turn = some i) :
    ∃ c d w, turn.thread = i ∧ p.threads[i]? = some c ∧
      (client G).act p turn = p.put i w d ∧ Shift G Toward p.shared c.place w d.place ∧
      source c.place = true ∧ target d.place = true := by
  generalize hact : (client G).act p turn = p' at hmoved
  cases hmoved with
  | stay =>
    rw [passes?_of_stay hdisjoint hact] at h
    cases h
  | @shift c d w hc _ hshift =>
    rw [passes?_of_shift hc hact] at h
    obtain ⟨hpasses, hthread⟩ := Option.ite_none_right_eq_some.mp h
    obtain ⟨hsource, htarget⟩ := Bool.and_eq_true_iff.mp hpasses
    cases hthread
    exact ⟨c, d, w, rfl, hc, rfl, hshift, hsource, htarget⟩

/-! ## In every run -/

/-- The lock after some turns of threads that had not used it before. -/
def after (G : Gate) (n : Nat) (turns : List (Turn (Request G.Stamp))) :
    Pool G.Word (Client G) :=
  (client G).run (idle G n) turns

theorem after_append (n : Nat) (turns more : List (Turn (Request G.Stamp))) :
    after G n (turns ++ more) = (client G).run (after G n turns) more :=
  Machine.run_append ..

theorem after_concat (n : Nat) (turns : List (Turn (Request G.Stamp)))
    (turn : Turn (Request G.Stamp)) :
    after G n (turns ++ [turn]) = (client G).act (after G n turns) turn :=
  Machine.run_concat ..

/-- The threads stand where their tasks say, and the word and the places agree. -/
structure Kept (Inv : G.Word → List G.Place → Prop) (Toward : Mode → G.Place → Prop)
    (p : Pool G.Word (Client G)) : Prop where
  inv : Inv p.shared (places p)
  stands : ∀ {i : Nat} {c : Client G}, p.threads[i]? = some c → c.Stands Toward

section

variable (hG : G.Excludes Fits Toward)
  (hattempt : ∀ {m : Mode} {q : G.Place}, G.attempt? m = some q → Toward m q)
  {Inv : G.Word → List G.Place → Prop}
  (hshift : ∀ {w w' : G.Word} {ps : List G.Place} {i : Nat} {q q' : G.Place}, Inv w ps →
    ps[i]? = some q → Shift G Toward w q w' q' → Inv w' (ps.set i q'))

include hG hattempt

theorem Kept.moved (h : Kept Inv Toward p) (turn : Turn (Request G.Stamp)) :
    Moved Toward p turn ((client G).act p turn) := by
  have hacts := Machine.acts (client G) p turn
  generalize (client G).act p turn = p' at hacts
  cases hacts with
  | idle => exact .stay
  | call hc hrest =>
    obtain ⟨hnext, hshift⟩ := Client.shift_start hG hattempt hrest _
    exact .shift hc hnext hshift
  | step hc _ =>
    obtain ⟨hnext, hshift⟩ := Client.shift_step hG (h.stands hc) _ p.shared
    exact .shift hc hnext hshift

include hshift

theorem Kept.act (h : Kept Inv Toward p) (turn : Turn (Request G.Stamp)) :
    Kept Inv Toward ((client G).act p turn) := by
  have hmoved := h.moved hG hattempt turn
  generalize (client G).act p turn = p' at hmoved
  cases hmoved with
  | stay => exact h
  | shift hc hstands hmove =>
    refine ⟨?_, ?_⟩
    · rw [places_put]
      exact hshift h.inv (places_get? hc) hmove
    · intro j x hj
      rcases (Pool.getElem?_put_iff hc).mp hj with ⟨-, rfl⟩ | ⟨-, hj'⟩
      · exact hstands
      · exact h.stands hj'

theorem kept_after (hfree : ∀ n, Inv G.free (.replicate n G.fresh)) (n : Nat)
    (turns : List (Turn (Request G.Stamp))) :
    Kept Inv Toward (after G n turns) := by
  refine Machine.Reaches.invariant (fun _ turn h => h.act hG hattempt hshift turn) ⟨turns, rfl⟩ ?_
  refine ⟨?_, ?_⟩
  · rw [places_idle]
    exact hfree n
  · intro i c hc
    obtain ⟨-, rfl⟩ := Array.getElem?_eq_some_iff.mp hc
    simp [idle, Client.Stands]

end

/-- A thread that checks a stamp was asked to. -/
theorem lastCall?_of_validating {n : Nat} {turns : List (Turn (Request G.Stamp))} {s : G.Stamp}
    (hc : (after G n turns).threads[i]? = some c)
    (hvalidating : c.task = .validating s) :
    Machine.lastCall? ((client G).history (idle G n) turns) i = some (.validate s) := by
  have hbusy : (client G).rests c = false := by
    show c.rests = false
    rw [Client.rests, hvalidating]
  refine Machine.busy_invariant (m := client G) (p := idle G n) (fun turns i c => ∀ s,
    c.task = .validating s →
      Machine.lastCall? ((client G).history (idle G n) turns) i = some (.validate s))
    ?_ ?_ ?_ ?_ hc hbusy s hvalidating
  · intro i c hc
    obtain ⟨-, rfl⟩ := Array.getElem?_eq_some_iff.mp hc
    simp [idle, client, Client.rests]
  · intro turns i c r hc hrest s hs
    obtain rfl := Client.eq_validate_of_start hrest hs
    exact Machine.lastCall?_of_call _ hc hrest rfl
  · intro turns i c luck _ hbusy _ _ s hs
    exact absurd hs (Client.task_step_ne_validating hbusy)
  · intro turns i c turn _ hc _ hbusy ih s hs
    rw [Machine.lastCall?_of_busy ⟨c, hc, hbusy⟩]
    exact ih s hs

end Lock.Gate

end Growable
