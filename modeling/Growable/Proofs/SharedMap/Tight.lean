import Growable.Proofs.SharedMap.Inserts
import Growable.Proofs.SharedMap.Order

/-!
# As many buckets as needed, and no more

A new map gets the least power of two of buckets that the entries it is to hold fit into, and a table
that is loaded too much the least doubling of what it has. Both stay within a size. Products are cut
off at the largest size, so 2⁶³ buckets are never loaded too much, and fewer than that can be doubled
once more: the loop that doubles them ends before it could leave the range.
-/

namespace Growable.SharedMap

variable {capacity len len' buckets buckets' last initial k : Nat}

/-! ## The least power of two -/

theorem powerFrom_le_iff {n : Nat} : powerFrom n ≤ 2 ^ k ↔ n ≤ 2 ^ k := by
  rcases Nat.lt_or_ge 1 n with hn | hn
  · obtain ⟨j, hlt, hle⟩ := exists_pow_lt hn
    rw [powerFrom_eq hlt hle]
    constructor
    · exact Nat.le_trans hle
    · intro h
      have hjk : j < k := (Nat.pow_lt_pow_iff_right (by omega)).mp (Nat.lt_of_lt_of_le hlt h)
      exact Nat.pow_le_pow_right (by omega) hjk
  · have hpos := Nat.two_pow_pos k
    rw [powerFrom, if_pos hn]
    omega

/-- From sixteen on, a power of two of buckets is enough for so many entries if and only if a new map
that is to hold them gets no more. -/
theorem bucketsFor_le_iff (hk : 4 ≤ k) :
    bucketsFor capacity ≤ 2 ^ k ↔ isOverLoaded capacity (2 ^ k) = false := by
  have hmax : maxSize = 2 ^ 64 - 1 := rfl
  have hlow := Nat.pow_le_pow_right (by omega : 0 < 2) hk
  rw [bucketsFor, powerFrom_le_iff, isOverLoaded, cappedMul, cappedMul, defaultBuckets,
    decide_eq_false_iff_not]
  omega

/-- What a new map is to hold fits in, and so does less. -/
theorem not_isOverLoaded_bucketsFor (hle : len ≤ capacity) :
    isOverLoaded len (bucketsFor capacity) = false := by
  obtain ⟨k, hlow, -, hk⟩ := bucketsFor_bounds capacity
  have hfits := (bucketsFor_le_iff hlow).mp (Nat.le_of_eq hk)
  refine Bool.eq_false_iff.mpr fun hload => ?_
  rw [hk] at hload
  rw [isOverLoaded_of_len_le hload hle] at hfits
  cases hfits

/-! ## The loop that doubles -/

/-- As long as the entries do not fit in, the buckets are doubled; this ends with `last` buckets, and
every number on the way is a size. -/
inductive Doubles (len : Nat) : (buckets last : Nat) → Prop
  | stop {buckets : Nat} : isOverLoaded len buckets = false → Doubles len buckets buckets
  | again {buckets last : Nat} : isOverLoaded len buckets = true → 2 * buckets ≤ maxSize →
      Doubles len (2 * buckets) last → Doubles len buckets last

/-- Buckets that are loaded too much may be doubled. -/
theorem two_mul_le_of_isOverLoaded (h : isOverLoaded len buckets = true) :
    2 * buckets ≤ maxSize := by
  have hlt : buckets * 3 < maxSize := by
    by_contra hge
    rw [isOverLoaded_of_maxSize_le len (Nat.not_lt.mp hge)] at h
    cases h
  omega

theorem Doubles.unique {last' : Nat} (h : Doubles len buckets last)
    (h' : Doubles len buckets last') : last = last' := by
  induction h with
  | stop hfits =>
    cases h' with
    | stop => rfl
    | again hload => cases hfits.symm.trans hload
  | again hload _ _ ih =>
    cases h' with
    | stop hfits => cases hfits.symm.trans hload
    | again _ _ hrest => exact ih hrest

theorem doubles_doubled {times : Nat} (henough : isOverLoaded len (2 ^ times * initial) = false) :
    Doubles len initial (doubled len times initial) := by
  induction times generalizing initial with
  | zero =>
    rw [Nat.pow_zero, Nat.one_mul] at henough
    exact .stop henough
  | succ times ih =>
    unfold doubled
    split
    · rename_i hload
      refine .again hload (two_mul_le_of_isOverLoaded hload) (ih ?_)
      rw [← henough, Nat.pow_succ, Nat.mul_assoc]
    · rename_i hload
      exact .stop (Bool.eq_false_iff.mpr hload)

/-! ## Room from the first -/

/-- What has room for the entries there are has not grown. -/
theorem Grown.eq_of_fits (h : Grown initial len buckets) (hfits : 4 * len ≤ 3 * initial) :
    buckets = initial := by
  obtain ⟨e, rfl, hneeded⟩ := h
  cases e with
  | zero => rw [Nat.pow_zero, Nat.one_mul]
  | succ e =>
    have := hneeded 0 (Nat.zero_lt_succ e)
    omega

section

variable {K V : Type} [DecidableEq K]

theorem length_ledgerAfter (calls : List (Call K V)) :
    (ledgerAfter calls).length = (insertedKeys calls).toFinset.card := by
  obtain ⟨r, h, -⟩ := represents_ledgerAfter (fun _ => 0) 0 calls
  rw [← List.length_map Prod.fst, ← List.toFinset_card_of_nodup h.lists.distinct, keys_ledgerAfter]
  congr 1
  ext k
  simp [keysInOrder]

/-- Calls by one thread with no more keys than a map is to hold add no buckets. -/
theorem capacity_after_of_card_le (hash : K → UInt64) {calls : List (Call K V)}
    (hfew : (insertedKeys calls).toFinset.card ≤ capacity) :
    ((ofCapacity hash capacity).after calls).capacity = bucketsFor capacity := by
  have hfits : isOverLoaded (ledgerAfter calls).length (bucketsFor capacity) = false := by
    rw [length_ledgerAfter]
    exact not_isOverLoaded_bucketsFor hfew
  rw [← capacity_of_upFront hfits calls.length, List.take_length]

/-- Nor do calls by many threads. -/
theorem Setup.size_after_of_card_le (S : Setup K) {turns : List (Turn (Call K V))}
    (hfew : (S.askedKeys turns).toFinset.card ≤ S.capacity)
    (hlt : (S.askedKeys turns).toFinset.card < 2 ^ 62) :
    (S.after turns).shared.table.size = bucketsFor S.capacity := by
  have h := accounted_after (length_ledgerOf_lt hlt)
  refine h.grown.eq_of_fits ?_
  have hlen : (S.after turns).shared.length ≤ (S.askedKeys turns).toFinset.card := by
    have hcount := h.count
    have hle := length_ledgerOf_le_card S turns
    omega
  have hfits := not_isOverLoaded_bucketsFor (Nat.le_trans hlen hfew)
  have := mt (isOverLoaded_iff (Nat.lt_of_le_of_lt hlen hlt) _).mpr (Bool.eq_false_iff.mp hfits)
  omega

end

/-! ## What is promised -/

/-- What is promised of the number of buckets of a new map that is to hold `capacity` entries. -/
structure Allots (K V : Type) [DecidableEq K] (capacity buckets : Nat) : Prop where
  power : buckets.isPowerOfTwo
  /-- It is at least sixteen and a size. -/
  bounds : 16 ≤ buckets ∧ buckets ≤ 2 ^ 63
  fits : isOverLoaded capacity buckets = false
  least : ∀ buckets', buckets'.isPowerOfTwo → 16 ≤ buckets' →
    isOverLoaded capacity buckets' = false → buckets ≤ buckets'
  /-- As long as the keys are no more than that, none is added, whoever inserts them. -/
  alone : ∀ (hash : K → UInt64) (calls : List (Call K V)),
    (insertedKeys calls).toFinset.card ≤ capacity →
    ((ofCapacity hash capacity).after calls).capacity = buckets
  together : ∀ (S : Setup K) (turns : List (Turn (Call K V))), S.capacity = capacity →
    (S.askedKeys turns).toFinset.card ≤ capacity → (S.askedKeys turns).toFinset.card < 2 ^ 62 →
    (S.after turns).shared.table.size = buckets

/-- What is promised of the number of buckets that a table grows to for `len` entries. -/
structure Regrows (len current buckets : Nat) : Prop where
  /-- The loop ends with it, and with nothing else, and comes by sizes only. -/
  ends : ∀ last, Doubles len current last ↔ last = buckets
  bounds : 2 * current ≤ buckets ∧ buckets ≤ 2 ^ 63
  /-- No fewer doublings would have done. -/
  snug : Snug current len buckets

theorem allots (K V : Type) [DecidableEq K] (capacity : Nat) :
    Allots K V capacity (bucketsFor capacity) := by
  obtain ⟨k, hlow, hhigh, hk⟩ := bucketsFor_bounds capacity
  refine ⟨⟨k, hk⟩, ?_, not_isOverLoaded_bucketsFor (Nat.le_refl _), ?_,
    fun hash calls => capacity_after_of_card_le hash, ?_⟩
  · have hle : 2 ^ 4 ≤ 2 ^ k := Nat.pow_le_pow_right (by omega) hlow
    have hle' : 2 ^ k ≤ 2 ^ 63 := Nat.pow_le_pow_right (by omega) hhigh
    rw [hk]
    exact ⟨hle, hle'⟩
  · rintro _ ⟨j, rfl⟩ hj hfits
    have hj : 4 ≤ j := (Nat.pow_le_pow_iff_right (by omega : 1 < 2)).mp (show 2 ^ 4 ≤ 2 ^ j from hj)
    exact (bucketsFor_le_iff hj).mpr hfits
  · rintro S turns rfl hfew hlt
    exact S.size_after_of_card_le hfew hlt

theorem regrows {current : Nat} (hpower : current.isPowerOfTwo)
    (hload : isOverLoaded len current = true) :
    Regrows len current (grownBuckets len (2 * current)) := by
  have hmax : maxSize = 2 ^ 64 - 1 := rfl
  obtain ⟨k, rfl⟩ := hpower
  have hpos := Nat.two_pow_pos k
  have hsize := two_mul_le_of_isOverLoaded hload
  have hk : k ≤ 63 := by
    have hlt : 2 ^ k < 2 ^ 64 := by omega
    have := (Nat.pow_lt_pow_iff_right (by omega : 1 < 2)).mp hlt
    omega
  have hloop : Doubles len (2 ^ k) (grownBuckets len (2 * 2 ^ k)) :=
    .again hload hsize (doubles_doubled (isOverLoaded_of_maxSize_le len (by omega)))
  have hsnug : Snug (2 ^ k) len (grownBuckets len (2 * 2 ^ k)) := by
    have hroom := Snug.roomFor hpos len
    rwa [roomFor, if_pos hload] at hroom
  refine ⟨fun last => ⟨fun h => h.unique hloop, ?_⟩, ⟨?_, ?_⟩, hsnug⟩
  · rintro rfl
    exact hloop
  · obtain ⟨i, hi⟩ := doubled_eq len 64 (2 * 2 ^ k)
    rw [grownBuckets, hi]
    exact Nat.le_mul_of_pos_left _ (Nat.two_pow_pos i)
  · obtain ⟨j, -, hj, hbuckets⟩ := hsnug.bounds hk
    rw [hbuckets]
    exact Nat.pow_le_pow_right (by omega) hj

/-- The number of buckets, of a new map and of one that grows, is a size and the least that will do;
more entries need no fewer buckets, and more buckets are not loaded more. -/
theorem tight_buckets (K V : Type) [DecidableEq K] :
    (∀ capacity, Allots K V capacity (bucketsFor capacity)) ∧
    (∀ len current, current.isPowerOfTwo → 16 ≤ current → isOverLoaded len current = true →
      Regrows len current (grownBuckets len (2 * current))) ∧
    (∀ buckets, Monotone fun len => isOverLoaded len buckets) ∧
    ∀ len, Antitone fun buckets => isOverLoaded len buckets := by
  refine ⟨allots K V, fun len current hpower _ hload => regrows hpower hload, ?_, ?_⟩
  · intro buckets len len' hle
    exact Bool.le_iff_imp.mpr fun hload => isOverLoaded_of_len_le hload hle
  · intro len buckets buckets' hle
    exact Bool.le_iff_imp.mpr fun hload => isOverLoaded_of_le hload hle

/-- At the end of the range: as many entries as there are sizes. -/
theorem tight_buckets_largest :
    (2 ^ 62).isPowerOfTwo ∧ 16 ≤ 2 ^ 62 ∧ isOverLoaded maxSize (2 ^ 62) = true ∧
    Regrows maxSize (2 ^ 62) (2 ^ 63) ∧ Allots Nat Nat maxSize (2 ^ 63) := by
  have hgrown : grownBuckets maxSize (2 * 2 ^ 62) = 2 ^ 63 := by decide +kernel
  have hnew : bucketsFor maxSize = 2 ^ 63 := by decide +kernel
  have hload : isOverLoaded maxSize (2 ^ 62) = true := by decide +kernel
  obtain ⟨hallots, hregrows, -⟩ := tight_buckets Nat Nat
  refine ⟨⟨62, rfl⟩, by omega, hload, ?_, ?_⟩
  · rw [← hgrown]
    exact hregrows maxSize (2 ^ 62) ⟨62, rfl⟩ (by omega) hload
  · rw [← hnew]
    exact hallots maxSize

end Growable.SharedMap
