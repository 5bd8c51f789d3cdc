import Growable.Lock.Flagged
import Growable.Lock.Layout
import Mathlib.Algebra.Group.Nat.Defs

/-!
# Lock words as numbers

What the tests on a lock's word say of the word as a number, and what is read of a flag or a block
after another was set.
-/

namespace Growable.Lock.Stamped

theorem toNat_exclusiveBit : exclusiveBit.toNat = 65536 := rfl

theorem isExclusive_iff (w : Stamped) : w.isExclusive = true ↔ w.state.toNat / 65536 % 2 = 1 := by
  simp [isExclusive, ← UInt64.toNat_inj]

theorem isFree_iff (w : Stamped) : w.isFree = true ↔ w.state.toNat % 131072 = 0 := by
  simp [isFree, ← UInt64.toNat_inj]

theorem admits_iff (w : Stamped) :
    w.admits = true ↔ w.state.toNat / 65536 % 2 = 0 ∧ w.state.toNat % 65536 < 65535 := by
  rw [admits, Bool.and_eq_true, Bool.not_eq_true', ← Bool.not_eq_true, isExclusive_iff]
  simp [readers, UInt64.lt_iff_toNat_lt]

end Growable.Lock.Stamped

namespace Growable.Lock.Layout

theorem toNat_changeBit : changeBit.toNat = 0x8000000000000000 := rfl

theorem admits_iff (w : Layout) : w.admits = true ↔ w.state.toNat < 0x7fffffffffffffff := by
  have hword : w.state.toNat < 2 ^ 64 := w.state.toNat_lt
  have hroom : (changeBit - 1).toNat = 0x7fffffffffffffff := rfl
  have hone : (1 : UInt64).toNat = 1 := rfl
  rw [admits, Bool.and_eq_true, Bool.not_eq_true', isChanging, accessors, beq_eq_false_iff_ne, ne_eq,
    ← UInt64.toNat_inj, UInt64.toNat_div, toNat_changeBit, hone, decide_eq_true_iff,
    UInt64.lt_iff_toNat_lt, UInt64.toNat_mod, toNat_changeBit, hroom]
  omega

end Growable.Lock.Layout

namespace Growable.Lock.Flagged

variable {w w' : Flagged} {i j : Nat}

theorem flag_congr (h : w'.flags = w.flags) (i : Nat) : w'.flag i = w.flag i := by
  rw [flag, flag, h]

theorem hasBlock_congr (h : w'.blocks = w.blocks) (b : Nat) : w'.hasBlock b = w.hasBlock b := by
  rw [hasBlock, hasBlock, h]

theorem flag_setFlag_self (f : Flag) (h : i < Roster.flagged) :
    (w.setFlag i f).flag i = f := by
  simp [flag, setFlag, h]

theorem flag_setFlag_of_ne (f : Flag) (h : i ≠ j) : (w.setFlag i f).flag j = w.flag j := by
  simp [flag, setFlag, Vector.getElem?_setIfInBounds_ne h]

/-- There are no flags beyond the last one. -/
theorem flag_of_le (h : Roster.flagged ≤ i) : w.flag i = .change := by
  simp [flag, Vector.getElem?_eq_none h]

theorem lt_of_flag_ne (h : w.flag i ≠ .change) : i < Roster.flagged :=
  Nat.lt_of_not_le fun hge => h (flag_of_le hge)

theorem hasBlock_install {b : Nat} (hb : b < 32)
    (h : w'.blocks = w.blocks.setIfInBounds b true) : w'.hasBlock b = true := by
  simp [hasBlock, h, hb]

theorem hasBlock_of_install {b c : Nat} (h : w'.blocks = w.blocks.setIfInBounds b true)
    (hc : w.hasBlock c = true) : w'.hasBlock c = true := by
  rw [hasBlock] at hc ⊢
  rw [h]
  by_cases hbc : b = c
  · subst hbc
    cases hget : w.blocks[b]? with
    | none => simp [hget] at hc
    | some x =>
      obtain ⟨hlt, -⟩ := Vector.getElem?_eq_some_iff.mp hget
      simp [hlt]
  · rw [Vector.getElem?_setIfInBounds_ne hbc]
    exact hc

end Growable.Lock.Flagged
