import Growable.Proofs.Lock.Exclusion

/-!
# Exclusion by flags

Why a change of the layout lock with flags is alone, although an access in the usual case touches
nothing but its own flag. Three things are kept by every step of every thread: the base counts its
holders, no two threads have the same index, and a flag that is not turned over is minded. Minded
means that the next change is told of it, or a thread that still holds the base is about to tell, or
a change is on its way and has not come past the flag. So a change that finds nothing told has
nothing to turn over, and a change that was granted finds every flag turned over.
-/

namespace Growable.Lock.Flagged

/-! ## What a place says -/

/-- The index a thread has. -/
def Place.index? : Place → Option Nat
  | .draw => none
  | .out index? | .claim index? _ | .ask index? | .bound index? | .block index? _ _
  | .turn index? _ _ | .change index? => index?
  | .install i | .raise i | .recover i _ | .mark i | .announce i | .release i | .access i
  | .borrow i _ => some i

/-- Where the thread stands at the base. -/
def Place.base : Place → Stamped.Place
  | .recover _ p | .borrow _ p | .claim _ p => p
  | .mark _ | .announce _ | .release _ => .shared
  | .ask _ | .bound _ | .block .. | .turn .. | .change _ => .exclusive
  | _ => .out

/-- The flag a thread works with exists, and so does its block once it is put in place. -/
def Place.Placed (w : Flagged) : Place → Prop
  | .install i => i < Roster.flagged
  | .raise i | .recover i _ | .mark i | .announce i | .release i | .access i =>
    i < Roster.flagged ∧ w.hasBlock (i / blockSize) = true
  | _ => True

/-- The flag a thread keeps at `access`. -/
def Place.raised? : Place → Option Nat
  | .announce i | .release i | .access i => some i
  | _ => none

/-- The thread has yet to tell of a flag, or is about to turn flags over. -/
def Place.minds : Place → Bool
  | .announce _ | .bound _ | .block .. | .turn .. => true
  | _ => false

/-- A flag that a change under way may still find as it was. -/
def Place.Faces : Place → Nat → Prop
  | .block _ limit b, i => b * blockSize ≤ i ∧ i < limit
  | .turn _ limit j, i => j ≤ i ∧ i < limit
  | .change _, _ => False
  | _, _ => True

theorem Place.index?_of_raised? {p : Place} {i : Nat} (h : p.raised? = some i) :
    p.index? = some i := by
  cases p with
  | announce | release | access => exact h
  | _ => cases h

theorem Place.Placed.mono {w w' : Flagged} {p : Place} (h : p.Placed w)
    (hblocks : ∀ b, w.hasBlock b = true → w'.hasBlock b = true) : p.Placed w' := by
  cases p with
  | raise | recover | mark | announce | release | access => exact ⟨h.1, hblocks _ h.2⟩
  | _ => exact h

/-- Only a thread that holds the base exclusively has flags behind it. -/
theorem Place.faces_of_base {p : Place} (h : p.base.owns = false) (i : Nat) : p.Faces i := by
  cases p with
  | block | turn | change => cases h
  | _ => trivial

/-! ## Indices -/

/-- No two threads have the same index, and none has one that was given back. -/
structure Enlisted (r : Roster) (ps : List Place) : Prop where
  distinct : ∀ {t u : Nat} {p q : Place} {i : Nat}, ps[t]? = some p → ps[u]? = some q →
    p.index? = some i → q.index? = some i → t = u
  known : ∀ {t : Nat} {p : Place} {i : Nat}, ps[t]? = some p → p.index? = some i →
    i < r.next ∧ i ∉ r.free
  free : ∀ i ∈ r.free, i < r.next
  nodup : r.free.Nodup

namespace Enlisted

variable {r : Roster} {ps : List Place} {t : Nat} {p q : Place}

theorem keep (h : Enlisted r ps) (hp : ps[t]? = some p) (hq : q.index? = p.index?) :
    Enlisted r (ps.set t q) := by
  refine ⟨?_, ?_, h.free, h.nodup⟩
  · intro a b x y i ha hb hx hy
    rcases (getElem?_set_iff hp).mp ha with ⟨rfl, rfl⟩ | ⟨-, ha'⟩
    · rcases (getElem?_set_iff hp).mp hb with ⟨rfl, rfl⟩ | ⟨-, hb'⟩
      · rfl
      · exact h.distinct hp hb' (hq ▸ hx) hy
    · rcases (getElem?_set_iff hp).mp hb with ⟨rfl, rfl⟩ | ⟨-, hb'⟩
      · exact h.distinct ha' hp hx (hq ▸ hy)
      · exact h.distinct ha' hb' hx hy
  · intro a x i ha hx
    rcases (getElem?_set_iff hp).mp ha with ⟨rfl, rfl⟩ | ⟨-, ha'⟩
    · exact h.known hp (hq ▸ hx)
    · exact h.known ha' hx

/-- A thread gets an index that no thread had and that is not given back. -/
theorem gain (h : Enlisted r ps) (hp : ps[t]? = some p) {r' : Roster} {i : Nat}
    (hq : q.index? = some i) (hfresh : ∀ {u : Nat} {x : Place}, ps[u]? = some x → x.index? ≠ some i)
    (hnext : r.next ≤ r'.next) (hi : i < r'.next ∧ i ∉ r'.free)
    (hsub : ∀ j ∈ r'.free, j ∈ r.free) (hnodup : r'.free.Nodup) :
    Enlisted r' (ps.set t q) := by
  refine ⟨?_, ?_, ?_, hnodup⟩
  · intro a b x y j ha hb hx hy
    rcases (getElem?_set_iff hp).mp ha with ⟨rfl, rfl⟩ | ⟨-, ha'⟩
    · rcases (getElem?_set_iff hp).mp hb with ⟨rfl, rfl⟩ | ⟨-, hb'⟩
      · rfl
      · exact absurd (hy.trans (hx.symm.trans hq)) (hfresh hb')
    · rcases (getElem?_set_iff hp).mp hb with ⟨rfl, rfl⟩ | ⟨-, hb'⟩
      · exact absurd (hx.trans (hy.symm.trans hq)) (hfresh ha')
      · exact h.distinct ha' hb' hx hy
  · intro a x j ha hx
    rcases (getElem?_set_iff hp).mp ha with ⟨rfl, rfl⟩ | ⟨-, ha'⟩
    · obtain rfl : j = i := Option.some.inj (hx.symm.trans hq)
      exact hi
    · obtain ⟨hlt, hnot⟩ := h.known ha' hx
      exact ⟨by omega, fun hmem => hnot (hsub j hmem)⟩
  · intro j hj
    have := h.free j (hsub j hj)
    omega

theorem scan (h : Enlisted r ps) (hp : ps[t]? = some p) {i : Nat} (hmin : r.free.min? = some i) :
    Enlisted { r with free := r.free.erase i } (ps.set t (.out (some i))) := by
  have hmem : i ∈ r.free := List.min?_mem hmin
  refine h.gain hp rfl ?_ (Nat.le_refl _) ⟨h.free i hmem, h.nodup.not_mem_erase⟩ ?_
    (h.nodup.erase i)
  · intro u x hu hx
    exact (h.known hu hx).2 hmem
  · intro j hj
    exact List.mem_of_mem_erase hj

theorem draw (h : Enlisted r ps) (hp : ps[t]? = some p) :
    Enlisted { r with next := r.next + 1 } (ps.set t (.out (some r.next))) := by
  refine h.gain hp rfl ?_ (Nat.le_succ _) ⟨Nat.lt_succ_self _, ?_⟩ (fun j hj => hj) h.nodup
  · intro u x hu hx
    have := (h.known hu hx).1
    omega
  · intro hmem
    have := h.free _ hmem
    omega

theorem release (h : Enlisted r ps) {i : Nat} (hp : ps[t]? = some (.out (some i))) :
    Enlisted (r.release i) (ps.set t (.out none)) := by
  obtain ⟨hi, hnot⟩ := h.known hp rfl
  refine ⟨?_, ?_, ?_, List.nodup_cons.mpr ⟨hnot, h.nodup⟩⟩
  · intro a b x y j ha hb hx hy
    rcases (getElem?_set_iff hp).mp ha with ⟨rfl, rfl⟩ | ⟨-, ha'⟩
    · cases hx
    · rcases (getElem?_set_iff hp).mp hb with ⟨rfl, rfl⟩ | ⟨-, hb'⟩
      · cases hy
      · exact h.distinct ha' hb' hx hy
  · intro a x j ha hx
    rcases (getElem?_set_iff hp).mp ha with ⟨rfl, rfl⟩ | ⟨hne, ha'⟩
    · cases hx
    · obtain ⟨hlt, hfree⟩ := h.known ha' hx
      refine ⟨hlt, ?_⟩
      intro hmem
      rcases List.mem_cons.mp hmem with rfl | hmem
      · exact hne (h.distinct ha' hp hx rfl)
      · exact hfree hmem
  · intro j hj
    rcases List.mem_cons.mp hj with rfl | hj
    · exact hi
    · exact h.free j hj

end Enlisted

/-! ## Flags -/

/-- The flags fit where the threads stand. -/
structure Minded (w : Flagged) (ps : List Place) : Prop where
  raised : ∀ {t : Nat} {p : Place} {i : Nat}, ps[t]? = some p → p.raised? = some i →
    w.flag i = .access
  held : ∀ {i : Nat}, w.flag i = .access → ∃ (t : Nat) (p : Place), ps[t]? = some p ∧ p.raised? = some i
  placed : ∀ {t : Nat} {p : Place}, ps[t]? = some p → p.Placed w
  found : ∀ {i : Nat}, w.flag i ≠ .change →
    i < w.roster.next ∧ w.hasBlock (i / blockSize) = true
  minded : ∀ {i : Nat}, w.flag i ≠ .change →
    w.needToRecover = true ∨ ∃ (t : Nat) (p : Place), ps[t]? = some p ∧ p.minds = true
  faced : ∀ {t : Nat} {p : Place} {i : Nat}, ps[t]? = some p → w.flag i ≠ .change → p.Faces i

namespace Minded

variable {w w' : Flagged} {ps : List Place} {t : Nat} {p q : Place}

/-- A thread moves without setting a flag. -/
theorem move (h : Minded w ps) (hp : ps[t]? = some p) (hflags : w'.flags = w.flags)
    (hblocks : ∀ b, w.hasBlock b = true → w'.hasBlock b = true)
    (hnext : w.roster.next ≤ w'.roster.next) (hraised : q.raised? = p.raised?)
    (hplaced : q.Placed w')
    (hminded : ∀ i, w.flag i ≠ .change → w'.needToRecover = true ∨ q.minds = true ∨
      w'.needToRecover = w.needToRecover ∧ p.minds = false)
    (hfaced : ∀ i, w.flag i ≠ .change → q.Faces i) : Minded w' (ps.set t q) := by
  obtain ⟨hlt, -⟩ := List.getElem?_eq_some_iff.mp hp
  have hself : (ps.set t q)[t]? = some q := List.getElem?_set_self hlt
  have hflag := flag_congr hflags
  refine ⟨?_, ?_, ?_, ?_, ?_, ?_⟩
  · intro u x i hu hx
    rw [hflag]
    rcases (getElem?_set_iff hp).mp hu with ⟨-, rfl⟩ | ⟨-, hu'⟩
    · exact h.raised hp (hraised ▸ hx)
    · exact h.raised hu' hx
  · intro i hi
    rw [hflag] at hi
    exact exists_getElem?_set hp hraised.trans (h.held hi)
  · intro u x hu
    rcases (getElem?_set_iff hp).mp hu with ⟨-, rfl⟩ | ⟨-, hu'⟩
    · exact hplaced
    · exact (h.placed hu').mono hblocks
  · intro i hi
    rw [hflag] at hi
    obtain ⟨hlt, hblock⟩ := h.found hi
    exact ⟨by omega, hblocks _ hblock⟩
  · intro i hi
    rw [hflag] at hi
    rcases hminded i hi with hneed | hminds | ⟨hneed, hnot⟩
    · exact .inl hneed
    · exact .inr ⟨t, q, hself, hminds⟩
    · rw [hneed]
      rcases h.minded hi with htold | hmind
      · exact .inl htold
      · exact .inr (exists_getElem?_set hp (fun hx => by simp [hnot] at hx) hmind)
  · intro u x i hu hi
    rw [hflag] at hi
    rcases (getElem?_set_iff hp).mp hu with ⟨-, rfl⟩ | ⟨-, hu'⟩
    · exact hfaced i hi
    · exact h.faced hu' hi

/-- A thread moves without touching flags, and keeps what it works with. -/
theorem pass (h : Minded w ps) (hp : ps[t]? = some p) (hflags : w'.flags = w.flags)
    (hblocks : w'.blocks = w.blocks) (hnext : w.roster.next ≤ w'.roster.next)
    (hneed : w'.needToRecover = w.needToRecover) (hraised : q.raised? = p.raised?)
    (hplaced : p.Placed w → q.Placed w) (hminds : p.minds = false ∨ q.minds = true)
    (hfaced : ∀ i, q.Faces i) : Minded w' (ps.set t q) := by
  have hblock (b : Nat) (hb : w.hasBlock b = true) : w'.hasBlock b = true := by
    rw [hasBlock_congr hblocks]
    exact hb
  refine h.move hp hflags hblock hnext hraised ((hplaced (h.placed hp)).mono hblock) ?_
    (fun i _ => hfaced i)
  intro i hi
  rcases hminds with hnot | hminds
  · exact .inr (.inr ⟨hneed, hnot⟩)
  · exact .inr (.inl hminds)

/-- A thread sets a flag that no other thread keeps raised. -/
theorem set (h : Minded w ps) (hp : ps[t]? = some p) {i : Nat} {f : Flag}
    (hw : w' = w.setFlag i f) (hi : i < Roster.flagged)
    (hother : ∀ {u : Nat} {x : Place}, u ≠ t → ps[u]? = some x → x.raised? ≠ some i)
    (hself : ∀ j, p.raised? = some j → j = i)
    (hraised : ∀ j, q.raised? = some j ↔ j = i ∧ f = .access)
    (hplaced : p.Placed w → q.Placed w)
    (hfound : i < w.roster.next ∧ w.hasBlock (i / blockSize) = true)
    (hminded : q.minds = true ∨ p.minds = false ∧ w.flag i ≠ .change)
    (hbehind : w.flag i ≠ .change ∨
      ∀ {u : Nat} {x : Place}, u ≠ t → ps[u]? = some x → x.Faces i)
    (hfaced : ∀ j, w'.flag j ≠ .change → q.Faces j) : Minded w' (ps.set t q) := by
  obtain ⟨hlt, -⟩ := List.getElem?_eq_some_iff.mp hp
  have hset : (ps.set t q)[t]? = some q := List.getElem?_set_self hlt
  have hnew : w'.flag i = f := by
    rw [hw]
    exact flag_setFlag_self f hi
  have hold {j : Nat} (hj : j ≠ i) : w'.flag j = w.flag j := by
    rw [hw]
    exact flag_setFlag_of_ne f (Ne.symm hj)
  have hblock (b : Nat) : w'.hasBlock b = w.hasBlock b := by
    rw [hw]
    rfl
  have hnext : w'.roster = w.roster := by
    rw [hw]
    rfl
  have hneed : w'.needToRecover = w.needToRecover := by
    rw [hw]
    rfl
  refine ⟨?_, ?_, ?_, ?_, ?_, ?_⟩
  · intro u x j hu hx
    rcases (getElem?_set_iff hp).mp hu with ⟨-, rfl⟩ | ⟨hut, hu'⟩
    · obtain ⟨rfl, rfl⟩ := (hraised j).mp hx
      exact hnew
    · have hj : j ≠ i := by
        rintro rfl
        exact hother hut hu' hx
      rw [hold hj]
      exact h.raised hu' hx
  · intro j hj
    by_cases hji : j = i
    · subst hji
      exact ⟨t, q, hset, (hraised j).mpr ⟨rfl, hnew ▸ hj⟩⟩
    · rw [hold hji] at hj
      exact exists_getElem?_set hp (fun hx => absurd (hself j hx) hji) (h.held hj)
  · intro u x hu
    have hmono {y : Place} (hy : y.Placed w) : y.Placed w' := by
      apply hy.mono
      intro b hb
      rw [hblock]
      exact hb
    rcases (getElem?_set_iff hp).mp hu with ⟨-, rfl⟩ | ⟨-, hu'⟩
    · exact hmono (hplaced (h.placed hp))
    · exact hmono (h.placed hu')
  · intro j hj
    rw [hblock, hnext]
    by_cases hji : j = i
    · subst hji
      exact hfound
    · rw [hold hji] at hj
      exact h.found hj
  · intro j hj
    rw [hneed]
    rcases hminded with hminds | ⟨hnot, hleft⟩
    · exact .inr ⟨t, q, hset, hminds⟩
    · rcases h.minded hleft with htold | hmind
      · exact .inl htold
      · exact .inr (exists_getElem?_set hp (fun hx => by simp [hnot] at hx) hmind)
  · intro u x j hu hj
    rcases (getElem?_set_iff hp).mp hu with ⟨-, rfl⟩ | ⟨hut, hu'⟩
    · exact hfaced j hj
    · by_cases hji : j = i
      · subst hji
        rcases hbehind with hleft | hahead
        · exact h.faced hu' hleft
        · exact hahead hut hu'
      · rw [hold hji] at hj
        exact h.faced hu' hj

end Minded

end Growable.Lock.Flagged
