import Growable.Proofs.Lock.Sections

/-!
# What a spin lock promises

At any moment of any run at most one thread is inside a critical section, a failed attempt to enter
changes nothing, and the value is the outcome of the sections in the order in which the lock was
taken. A thread that is granted the lock or has its update answered learns so by the very step that
took the lock or stored the new value.
-/

namespace Growable.Lock.Spin

variable {α : Type} {n t u : Nat} {v : α} {f : α → α} {s : Cell α} {c : Client α}
  {as : List (Access α)} {p : Pool (Cell α) (Client α)} {turns : List (Turn (Request α))}

/-! ## Answers -/

namespace Client

theorem reply?_of_busy (hbusy : c.rests = false) : c.reply? = none := by
  rcases c with ⟨holds, task⟩
  cases task with
  | rest => cases hbusy
  | _ => rfl

theorem rests_of_update? (h : c.update? = some f) : c.rests = false := by
  rcases c with ⟨holds, task⟩
  cases task with
  | rest => cases h
  | _ => rfl

theorem eq_update_of_start {r : Request α} (hrest : c.rests = true)
    (h : (c.start r).update? = some f) : r = .update f := by
  have hidle : c.update? ≠ some f := by
    rcases c with ⟨holds, task⟩
    cases task with
    | rest => exact nofun
    | _ => cases hrest
  cases r with
  | lock | tryLock => cases h
  | update g =>
    simp only [start] at h
    split at h
    · cases h
      rfl
    · exact absurd h hidle
  | release =>
    simp only [start] at h
    split at h
    · cases h
    · exact absurd h hidle

theorem update?_of_step (h : (c.step s).2.update? = some f) : c.update? = some f := by
  rcases c with ⟨holds, task⟩
  cases task with
  | rest | storing | releasing => cases h
  | loading g => exact h
  | locking place =>
    simp only [step] at h
    split at h <;> cases h
  | trying place =>
    simp only [step] at h
    split at h <;> cases h

end Client

/-- A thread that is at an update was asked for it. -/
theorem lastCall?_of_update? (hc : (after n v turns).threads[t]? = some c)
    (h : c.update? = some f) :
    Machine.lastCall? ((client α).history (idle n v) turns) t = some (.update f) := by
  refine Machine.busy_invariant (m := client α) (p := idle n v) (fun turns t c => ∀ f,
    c.update? = some f →
      Machine.lastCall? ((client α).history (idle n v) turns) t = some (.update f))
    ?_ ?_ ?_ ?_ hc (Client.rests_of_update? h) f h
  · intro t c hc
    obtain ⟨_, rfl⟩ := Array.getElem?_eq_some_iff.mp hc
    simp [idle, client, Client.rests]
  · intro turns t c r hc hrest f hf
    obtain rfl := Client.eq_update_of_start hrest hf
    exact Machine.lastCall?_of_call _ hc hrest (Client.rests_of_update? hf)
  · intro turns t c luck hc hbusy ih _ f hf
    rw [Machine.lastCall?_of_busy ⟨c, hc, hbusy⟩]
    exact ih f (Client.update?_of_step hf)
  · intro turns t c turn _ hc _ hbusy ih f hf
    rw [Machine.lastCall?_of_busy ⟨c, hc, hbusy⟩]
    exact ih f hf

/-- What is seen of a turn is seen of a step. -/
theorem Kept.follows (h : Kept v as p) (turn : Turn (Request α)) :
    (access? p turn = none ∧ ((client α).act p turn).shared = p.shared ∧
        ∀ t r, (client α).event? p turn ≠ some (.answered t r)) ∨
      ∃ t c s d, p.threads[t]? = some c ∧ (client α).act p turn = p.put t s d ∧
        Steps t p.shared c (access? p turn) s d ∧
        ∀ u r, (client α).event? p turn = some (.answered u r) ↔ u = t ∧ d.reply? = some r := by
  have hmoves := Machine.moves_act (client α) p turn
  generalize (client α).event? p turn = e?, (client α).act p turn = p' at hmoves
  cases hmoves with
  | idle hidle => exact .inl ⟨Machine.seenOfStep?_of_idle access?_of_rests hidle, rfl, nofun⟩
  | call ht hrest =>
    refine .inl ⟨rfl, rfl, ?_⟩
    split <;> nofun
  | @step t luck c ht hbusy =>
    have hsteps := steps t (h.sound ht) hbusy
    have hseen : access? p (.step t luck) = c.access? t p.shared := Machine.seenOfStep?_of_step ht
    refine .inr ⟨t, c, _, _, ht, rfl, hseen ▸ hsteps, ?_⟩
    intro u r
    split
    · rw [Option.map_eq_some_iff]
      constructor
      · rintro ⟨r', hr, ⟨⟩⟩
        exact ⟨rfl, hr⟩
      · rintro ⟨rfl, hr⟩
        exact ⟨r, hr, rfl⟩
    · rename_i hbusy
      have hnone : ((client α).step t luck p.shared c).2.reply? = none :=
        Client.reply?_of_busy (Bool.eq_false_iff.mpr hbusy)
      simp [hnone]

/-! ## What the lock promises -/

/-- What is promised to the threads that use a value under a spin lock. -/
structure Serial (n : Nat) (v : α) (turns : List (Turn (Request α))) : Prop where
  /-- The bit is set exactly while one thread is between a swap that found it clear and its
  release, -/
  taken_iff : (after n v turns).shared.taken = true ↔ ∃! t, Inside (accesses n v turns) t
  /-- and never are two. -/
  alone : ∀ t u, Inside (accesses n v turns) t → Inside (accesses n v turns) u → t = u
  /-- There is a section for each such swap, in their order, -/
  order : (sections (accesses n v turns)).map (·.thread) =
    (accesses n v turns).filterMap Access.entered?
  /-- and every store is in one. -/
  stores : (sections (accesses n v turns)).flatMap (·.updates) =
    (accesses n v turns).filterMap Access.stored?
  /-- All sections but the last have ended, and that one has if the bit is clear. -/
  ended : (∀ x ∈ (sections (accesses n v turns)).dropLast, x.isOver = true) ∧
    ((after n v turns).shared.taken = false →
      ∀ x ∈ sections (accesses n v turns), x.isOver = true)
  /-- The value is the outcome of the sections, one after the other. -/
  value : (after n v turns).shared.value = (sections (accesses n v turns)).foldl Section.apply v
  /-- A swap that finds the bit set, and a refusal, leave the bit set, the value as it was, and every
  thread as far inside its section as before. -/
  failed : ∀ {turn : Turn (Request α)} {t : Nat},
    access? (after n v turns) turn = some (.swap t true) ∨
      (client α).event? (after n v turns) turn = some (.answered t .refused) →
    (after n v turns).shared.taken = true ∧
      (after n v (turns ++ [turn])).shared = (after n v turns).shared ∧
      sections (accesses n v (turns ++ [turn])) = sections (accesses n v turns)
  /-- Only a release clears the bit, and only a thread inside its section releases the lock. -/
  freed : ∀ {turn : Turn (Request α)}, (after n v turns).shared.taken = true →
    (after n v (turns ++ [turn])).shared.taken = false →
    ∃ t, access? (after n v turns) turn = some (.release t)
  released : ∀ {turn : Turn (Request α)} {t : Nat},
    access? (after n v turns) turn = some (.release t) → Inside (accesses n v turns) t
  /-- The lock is granted by a swap that finds the bit clear. -/
  granted : ∀ {turn : Turn (Request α)} {t : Nat},
    (client α).event? (after n v turns) turn = some (.answered t .granted) ↔
      access? (after n v turns) turn = some (.swap t false)
  /-- A store is by a thread inside its section and is for the update it was asked for; the value
  is still the one that was loaded. -/
  stored : ∀ {turn : Turn (Request α)} {t : Nat} {f : α → α},
    access? (after n v turns) turn = some (.store t f) →
    Inside (accesses n v turns) t ∧
      Machine.lastCall? ((client α).history (idle n v) turns) t = some (.update f) ∧
      (after n v (turns ++ [turn])).shared.value = f (after n v turns).shared.value
  /-- An update is answered, with the value it was applied to, by its store. -/
  updated : ∀ {turn : Turn (Request α)} {t : Nat} {old : α},
    (client α).event? (after n v turns) turn = some (.answered t (.updated old)) ↔
      (∃ f, access? (after n v turns) turn = some (.store t f)) ∧
        old = (after n v turns).shared.value

/-- However threads take the lock, use the value and release the lock, their sections are as good as
one after the other. -/
theorem serial_after (n : Nat) (v : α) (turns : List (Turn (Request α))) : Serial n v turns := by
  have h := kept_after n v turns
  constructor
  · constructor
    · intro htaken
      obtain ⟨t, ht⟩ := h.exists_holds htaken
      exact ⟨t, h.inside_iff.mpr ht, fun u hu => h.apart (h.inside_iff.mp hu) ht⟩
    · rintro ⟨t, ht, -⟩
      exact h.taken_of_holds (h.inside_iff.mp ht)
  · intro t u ht hu
    exact h.apart (h.inside_iff.mp ht) (h.inside_iff.mp hu)
  · exact h.order
  · exact h.stores
  · refine ⟨?_, h.closed⟩
    intro x hx
    cases htaken : (after n v turns).shared.taken with
    | false => exact h.closed htaken x (List.dropLast_subset _ hx)
    | true =>
      obtain ⟨t, ht⟩ := h.exists_holds htaken
      obtain ⟨done, y, hsections, hdone, -⟩ := h.last ht
      rw [hsections, List.dropLast_concat] at hx
      exact hdone x hx
  · exact h.value
  · intro turn t hfailed
    rw [after_concat, accesses_concat]
    rcases h.follows turn with ⟨hnone, -, hnever⟩ | ⟨u, c, s, d, -, hact, hsteps, hevent⟩
    · rcases hfailed with hswap | hrefused
      · cases hnone.symm.trans hswap
      · exact absurd hrefused (hnever _ _)
    · obtain ⟨htaken, rfl, ha⟩ := hsteps.failed (hfailed.imp_right fun h => ((hevent ..).mp h).2)
      rw [hact]
      exact ⟨htaken, rfl, Kept.sections_of_wait ha⟩
  · intro turn htaken hfree
    rw [after_concat] at hfree
    rcases h.follows turn with ⟨-, hshared, -⟩ | ⟨u, c, s, d, -, hact, hsteps, -⟩
    · rw [hshared, htaken] at hfree
      cases hfree
    · rw [hact] at hfree
      exact ⟨u, hsteps.freed htaken hfree⟩
  · intro turn t ha
    rcases h.follows turn with ⟨hnone, -⟩ | ⟨u, c, s, d, hc, -, hsteps, -⟩
    · cases hnone.symm.trans ha
    · obtain rfl : t = u := hsteps.thread ha
      exact h.inside_iff.mpr ⟨c, hc, hsteps.released ha⟩
  · intro turn t
    rcases h.follows turn with ⟨hnone, -, hnever⟩ | ⟨u, c, s, d, -, -, hsteps, hevent⟩
    · rw [hnone]
      exact ⟨fun hanswered => absurd hanswered (hnever _ _), nofun⟩
    · rw [hevent]
      constructor
      · rintro ⟨rfl, hreply⟩
        exact hsteps.granted_iff.mp hreply
      · intro ha
        obtain rfl : t = u := hsteps.thread ha
        exact ⟨rfl, hsteps.granted_iff.mpr ha⟩
  · intro turn t f ha
    rcases h.follows turn with ⟨hnone, -⟩ | ⟨u, c, s, d, hc, hact, hsteps, -⟩
    · cases hnone.symm.trans ha
    · obtain rfl : t = u := hsteps.thread ha
      obtain ⟨hholds, hupdate, hvalue⟩ := hsteps.stored ha
      rw [after_concat, hact]
      exact ⟨h.inside_iff.mpr ⟨c, hc, hholds⟩, lastCall?_of_update? hc hupdate, hvalue⟩
  · intro turn t old
    rcases h.follows turn with ⟨hnone, -, hnever⟩ | ⟨u, c, s, d, -, -, hsteps, hevent⟩
    · rw [hnone]
      refine ⟨fun hanswered => absurd hanswered (hnever _ _), ?_⟩
      rintro ⟨⟨f, ⟨⟩⟩, -⟩
    · rw [hevent]
      constructor
      · rintro ⟨rfl, hreply⟩
        obtain ⟨f, ha, hold⟩ := hsteps.updated_iff.mp hreply
        exact ⟨⟨f, ha⟩, hold⟩
      · rintro ⟨⟨f, ha⟩, hold⟩
        obtain rfl : t = u := hsteps.thread ha
        exact ⟨rfl, hsteps.updated_iff.mpr ⟨f, ha, hold⟩⟩

/-- Thread 1 finds the bit clear, but swaps it after thread 0 has, and its update waits. -/
example : ((after 2 5 [.call 0 .lock, .call 1 .lock, .step 0 true, .step 1 true, .step 0 true,
    .step 1 true, .call 0 (.update (· + 1)), .step 0 true, .step 1 true, .step 0 true,
    .call 0 .release, .step 0 true, .step 1 true, .step 1 true, .call 1 (.update (2 * ·)),
    .step 1 true, .step 1 true]).shared : Cell Nat) = { taken := true, value := 12 } := by
  decide +kernel

end Growable.Lock.Spin
