import Growable.Proofs.SharedMap.Reference

/-!
# How far a table grows

A table grows by doubling, and only while it has too few buckets. Which numbers of buckets it goes
through therefore depends on where it started, and where it stops on how many entries there are:
however the entries are counted and whenever the table is looked at, it never gets larger than they
need.
-/

namespace Growable.SharedMap

variable {initial len len' buckets buckets' : Nat}

/-- Below 2⁶² entries no product is cut off. -/
theorem isOverLoaded_iff (hlen : len < 2 ^ 62) (buckets : Nat) :
    isOverLoaded len buckets = true ↔ 3 * buckets < 4 * len := by
  have hmax : maxSize = 2 ^ 64 - 1 := rfl
  rw [isOverLoaded, cappedMul, cappedMul, decide_eq_true_iff]
  omega

/-- A table of fewer buckets is loaded no less. -/
theorem isOverLoaded_of_le (h : isOverLoaded len buckets = true) (hle : buckets' ≤ buckets) :
    isOverLoaded len buckets' = true := by
  rw [isOverLoaded, cappedMul, cappedMul, decide_eq_true_iff] at h ⊢
  omega

/-- The number of buckets comes from the initial one by doublings, each of which the entries
needed. -/
def Grown (initial len buckets : Nat) : Prop :=
  ∃ e, buckets = 2 ^ e * initial ∧ ∀ i < e, 3 * (2 ^ i * initial) < 4 * len

theorem grown_initial (initial len : Nat) : Grown initial len initial :=
  ⟨0, (Nat.one_mul _).symm, fun _ hi => absurd hi (Nat.not_lt_zero _)⟩

namespace Grown

theorem mono (h : Grown initial len buckets) (hle : len ≤ len') : Grown initial len' buckets := by
  obtain ⟨e, he, hneeded⟩ := h
  refine ⟨e, he, fun i hi => ?_⟩
  have := hneeded i hi
  omega

theorem double (h : Grown initial len buckets) (hload : 3 * buckets < 4 * len) :
    Grown initial len (2 * buckets) := by
  obtain ⟨e, rfl, hneeded⟩ := h
  refine ⟨e + 1, by rw [Nat.pow_succ']; exact (Nat.mul_assoc ..).symm, fun i hi => ?_⟩
  rcases Nat.lt_succ_iff_lt_or_eq.mp hi with hlt | rfl
  · exact hneeded i hlt
  · exact hload

theorem doubled (hlen : len < 2 ^ 62) (h : Grown initial len buckets) (times : Nat) :
    Grown initial len (doubled len times buckets) := by
  induction times generalizing buckets with
  | zero => exact h
  | succ times ih =>
    unfold SharedMap.doubled
    split
    · rename_i hload
      exact ih (h.double ((isOverLoaded_iff hlen _).mp hload))
    · exact h

theorem roomFor (hlen : len < 2 ^ 62) (h : Grown initial len buckets) :
    Grown initial len (roomFor len buckets) := by
  unfold SharedMap.roomFor
  split
  · rename_i hload
    exact (h.double ((isOverLoaded_iff hlen _).mp hload)).doubled hlen 64
  · exact h

/-- Where the entries fit in, no fewer doublings would have done. -/
theorem isLeast (h : Grown initial len buckets) (hfits : 4 * len ≤ 3 * buckets) :
    ∃ e, buckets = 2 ^ e * initial ∧ IsLeast {e | 4 * len ≤ 3 * (2 ^ e * initial)} e := by
  obtain ⟨e, rfl, hneeded⟩ := h
  refine ⟨e, rfl, hfits, fun i hi => Nat.le_of_not_lt fun hlt => ?_⟩
  exact absurd (hneeded i hlt) (Nat.not_lt.mpr hi)

end Grown

/-- With enough doublings to hand, one of them is enough for the entries. -/
theorem fits_doubled (hlen : len < 2 ^ 62) {times : Nat} (henough : 4 * len ≤ 2 ^ times * buckets) :
    4 * len ≤ 3 * doubled len times buckets := by
  induction times generalizing buckets with
  | zero =>
    rw [Nat.pow_zero, Nat.one_mul] at henough
    unfold doubled
    omega
  | succ times ih =>
    unfold doubled
    split
    · rw [Nat.pow_succ, Nat.mul_assoc] at henough
      exact ih henough
    · rename_i hload
      have := mt (isOverLoaded_iff hlen buckets).mpr hload
      omega

/-- A table that was looked at has room for the entries. -/
theorem fits_roomFor (hlen : len < 2 ^ 62) (hpos : 0 < buckets) :
    4 * len ≤ 3 * roomFor len buckets := by
  unfold roomFor
  split
  · refine fits_doubled hlen ?_
    have : 2 ^ 64 * 1 ≤ 2 ^ 64 * (2 * buckets) := Nat.mul_le_mul_left _ (by omega)
    omega
  · rename_i hload
    have := mt (isOverLoaded_iff hlen buckets).mpr hload
    omega

theorem le_roomFor (len buckets : Nat) : buckets ≤ roomFor len buckets := by
  obtain ⟨i, hi⟩ := roomFor_eq len buckets
  rw [hi]
  exact Nat.le_mul_of_pos_left _ (Nat.two_pow_pos i)

end Growable.SharedMap
