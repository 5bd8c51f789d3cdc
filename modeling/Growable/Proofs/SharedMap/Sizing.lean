import Growable.Proofs.SharedMap.Room

/-!
# The least number of buckets

A map that is asked for room gets a power of two of buckets, and one that grows gets the least
doubling of them that its entries fit into. Fitting in is monotone in the entries and antitone in
the buckets, so growing step by step comes to the same as growing once. The largest power of two
that is a size is never loaded too much, because products of sizes are cut off there; that is where
every growth ends.
-/

namespace Growable.SharedMap

variable {initial mid len len' buckets : Nat}

/-! ## Powers of two -/

theorem powerFrom_eq {n k : Nat} (hlt : 2 ^ k < n) (hle : n ≤ 2 ^ (k + 1)) :
    powerFrom n = 2 ^ (k + 1) := by
  have hpos := Nat.two_pow_pos k
  have hlog : (n - 1).log2 = k := (Nat.log2_eq_iff (by omega)).mpr ⟨by omega, by omega⟩
  rw [powerFrom, if_neg (by omega), hlog, Nat.one_shiftLeft]

theorem exists_pow_lt {n : Nat} (hn : 1 < n) : ∃ k, 2 ^ k < n ∧ n ≤ 2 ^ (k + 1) := by
  obtain ⟨hle, hlt⟩ := (Nat.log2_eq_iff (by omega : n - 1 ≠ 0)).mp rfl
  exact ⟨(n - 1).log2, by omega, by omega⟩

/-- A new map has between 2⁴ and 2⁶³ buckets, and a power of two of them. -/
theorem bucketsFor_bounds (capacity : Nat) : ∃ k, 4 ≤ k ∧ k ≤ 63 ∧ bucketsFor capacity = 2 ^ k := by
  have hmax : maxSize = 2 ^ 64 - 1 := rfl
  rw [bucketsFor, cappedMul, defaultBuckets]
  generalize hn : max 16 ((min maxSize (capacity * 4) + 2) / 3) = n
  obtain ⟨k, hlt, hle⟩ := exists_pow_lt (by omega : 1 < n)
  have hlow : 2 ^ 3 < 2 ^ (k + 1) := by omega
  have hhigh : 2 ^ k < 2 ^ 63 := by omega
  have hlow := (Nat.pow_lt_pow_iff_right (by omega)).mp hlow
  have hhigh := (Nat.pow_lt_pow_iff_right (by omega)).mp hhigh
  exact ⟨k + 1, hlow, hhigh, powerFrom_eq hlt hle⟩

theorem isOverLoaded_of_len_le (h : isOverLoaded len buckets = true) (hle : len ≤ len') :
    isOverLoaded len' buckets = true := by
  rw [isOverLoaded, cappedMul, cappedMul, decide_eq_true_iff] at h ⊢
  omega

/-- What the largest size is cut off at, no number of entries exceeds. -/
theorem isOverLoaded_of_maxSize_le (len : Nat) (h : maxSize ≤ buckets * 3) :
    isOverLoaded len buckets = false := by
  rw [isOverLoaded, cappedMul, cappedMul, decide_eq_false_iff_not]
  omega

/-! ## Growth -/

/-- The number of buckets comes from the initial one by as few doublings as the entries need. -/
def Snug (initial len buckets : Nat) : Prop :=
  ∃ e, buckets = 2 ^ e * initial ∧ IsLeast {e | isOverLoaded len (2 ^ e * initial) = false} e

namespace Snug

theorem of_not_isOverLoaded (h : isOverLoaded len initial = false) : Snug initial len initial := by
  refine ⟨0, (Nat.one_mul _).symm, ?_, fun _ _ => Nat.zero_le _⟩
  rw [Set.mem_ofPred_eq, Nat.pow_zero, Nat.one_mul]
  exact h

/-- A number of buckets that the entries do not fit into is doubled. -/
theorem of_double (hload : isOverLoaded len initial = true) (h : Snug (2 * initial) len buckets) :
    Snug initial len buckets := by
  have hdouble (e : Nat) : 2 ^ e * (2 * initial) = 2 ^ (e + 1) * initial := by
    rw [Nat.pow_succ, Nat.mul_assoc]
  obtain ⟨e, rfl, hfits, hleast⟩ := h
  refine ⟨e + 1, hdouble e, ?_, ?_⟩
  · rw [Set.mem_ofPred_eq, ← hdouble]
    exact hfits
  · intro i hi
    cases i with
    | zero =>
      rw [Set.mem_ofPred_eq, Nat.pow_zero, Nat.one_mul, hload] at hi
      cases hi
    | succ i =>
      rw [Set.mem_ofPred_eq, ← hdouble] at hi
      exact Nat.succ_le_succ (hleast hi)

theorem doubled {times : Nat} (henough : isOverLoaded len (2 ^ times * initial) = false) :
    Snug initial len (doubled len times initial) := by
  induction times generalizing initial with
  | zero =>
    rw [Nat.pow_zero, Nat.one_mul] at henough
    exact .of_not_isOverLoaded henough
  | succ times ih =>
    unfold SharedMap.doubled
    split
    · rename_i hload
      refine .of_double hload (ih ?_)
      rw [← henough, Nat.pow_succ, Nat.mul_assoc]
    · rename_i hload
      exact .of_not_isOverLoaded (Bool.eq_false_iff.mpr hload)

/-- A table that is looked at gets no more buckets than its entries need. -/
theorem roomFor (hpos : 0 < initial) (len : Nat) : Snug initial len (roomFor len initial) := by
  unfold SharedMap.roomFor
  split
  · rename_i hload
    refine .of_double hload (.doubled (isOverLoaded_of_maxSize_le len ?_))
    have hmax : maxSize = 2 ^ 64 - 1 := rfl
    omega
  · rename_i hload
    exact .of_not_isOverLoaded (Bool.eq_false_iff.mpr hload)

/-- Growing for more entries later comes to the same as growing for them at once. -/
theorem trans (h : Snug initial len mid) (h' : Snug mid len' buckets) (hle : len ≤ len') :
    Snug initial len' buckets := by
  obtain ⟨e, rfl, -, hleast⟩ := h
  obtain ⟨e', rfl, hfits', hleast'⟩ := h'
  have hadd (j : Nat) : 2 ^ j * (2 ^ e * initial) = 2 ^ (j + e) * initial := by
    rw [Nat.pow_add, Nat.mul_assoc]
  refine ⟨e' + e, hadd e', ?_, ?_⟩
  · rw [Set.mem_ofPred_eq, ← hadd]
    exact hfits'
  · intro i hi
    -- what is enough for more entries was enough for fewer
    have hei : e ≤ i := by
      refine hleast (Bool.eq_false_iff.mpr fun hload => ?_)
      rw [Set.mem_ofPred_eq, isOverLoaded_of_len_le hload hle] at hi
      cases hi
    obtain ⟨j, rfl⟩ : ∃ j, i = j + e := ⟨i - e, by omega⟩
    rw [Set.mem_ofPred_eq, ← hadd] at hi
    exact Nat.add_le_add_right (hleast' hi) e

/-- Where the entries fit in already, there is no growth. -/
theorem eq_of_not_isOverLoaded (h : Snug initial len buckets)
    (hfits : isOverLoaded len initial = false) : buckets = initial := by
  obtain ⟨e, rfl, -, hleast⟩ := h
  have he : e ≤ 0 := hleast (by rwa [Set.mem_ofPred_eq, Nat.pow_zero, Nat.one_mul])
  rw [Nat.le_zero.mp he, Nat.pow_zero, Nat.one_mul]

/-- A map never has more than 2⁶³ buckets. -/
theorem bounds {k : Nat} (h : Snug (2 ^ k) len buckets) (hk : k ≤ 63) :
    ∃ j, k ≤ j ∧ j ≤ 63 ∧ buckets = 2 ^ j := by
  obtain ⟨e, rfl, -, hleast⟩ := h
  refine ⟨e + k, Nat.le_add_left k e, ?_, (Nat.pow_add ..).symm⟩
  have hmax : maxSize = 2 ^ 64 - 1 := rfl
  have hfits : isOverLoaded len (2 ^ (63 - k) * 2 ^ k) = false := by
    rw [← Nat.pow_add, Nat.sub_add_cancel hk]
    exact isOverLoaded_of_maxSize_le len (by omega)
  have he : e ≤ 63 - k := hleast hfits
  omega

end Snug

end Growable.SharedMap
