import Growable.Text.Blank
import Growable.Text.Numeral
import Mathlib.Data.List.DropRight

/-!
# What is a numeral, and what trimming leaves

The forms that readers of texts accept, said without the readers. A trimmed text is the one that
blank characters were put around, and a numeral is an optional plus sign and decimal digits, however
many zeros they begin with. Both readers are shown to accept just these forms, and a text that is no
numeral below a bound is refused for one of three reasons, of which each text has exactly one.
-/

namespace Growable.Text

/-! ## Blank characters around a text -/

/-- `s` is `t` with blank characters put before it and after it. -/
def Padded (s t : List Char) : Prop :=
  ∃ before after, s = before ++ t ++ after ∧ (∀ c ∈ before, isBlank c = true) ∧
    ∀ c ∈ after, isBlank c = true

/-- The text neither begins nor ends with a blank character. -/
structure Bare (t : List Char) : Prop where
  head : ∀ c ∈ t.head?, isBlank c = false
  last : ∀ c ∈ t.getLast?, isBlank c = false

variable {s t u : List Char} {bound v n : Nat} {cs : List Char}

theorem toList_trim (s : String) :
    (trim s).toList = (s.toList.dropWhile isBlank).rdropWhile isBlank := by
  rw [trim, String.toList_ofList, List.rdropWhile]

theorem padded_trim (s : String) : Padded s.toList (trim s).toList := by
  refine ⟨s.toList.takeWhile isBlank, (s.toList.dropWhile isBlank).rtakeWhile isBlank, ?_, ?_, ?_⟩
  · rw [toList_trim, List.append_assoc, List.rdropWhile_append_rtakeWhile,
      List.takeWhile_append_dropWhile]
  · exact fun c hc => List.mem_takeWhile_imp hc
  · exact fun c hc => List.mem_rtakeWhile_imp hc

theorem bare_trim (s : String) : Bare (trim s).toList := by
  rw [toList_trim]
  constructor
  · intro c hc
    -- what is dropped from the end leaves the beginning as it is
    have hhead := List.head?_dropWhile_not isBlank s.toList
    obtain ⟨rest, hprefix⟩ := List.rdropWhile_prefix isBlank (l := s.toList.dropWhile isBlank)
    rw [← hprefix] at hhead
    rw [List.head?_append, Option.mem_def.mp hc] at hhead
    exact hhead
  · intro c hc
    obtain ⟨hne, rfl⟩ := List.mem_getLast?_eq_getLast hc
    simpa using List.rdropWhile_last_not isBlank (s.toList.dropWhile isBlank) hne

/-- Blank characters around a text that has none at its ends are what is trimmed. -/
theorem Padded.trim_eq {s t : String} (h : Padded s.toList t.toList) (ht : Bare t.toList) :
    trim s = t := by
  obtain ⟨before, after, hs, hbefore, hafter⟩ := h
  have hafter' : ∀ c ∈ after.reverse, isBlank c = true := fun c hc =>
    hafter c (List.mem_reverse.mp hc)
  apply String.toList_inj.mp
  rw [toList_trim, hs, List.append_assoc, List.dropWhile_append_of_pos hbefore]
  generalize t.toList = cs at ht
  cases cs with
  | nil =>
    rw [List.nil_append, List.dropWhile_eq_nil_iff.mpr hafter]
    rfl
  | cons c cs =>
    have hhead : ¬ isBlank c = true := by simpa using ht.head c rfl
    rw [List.cons_append, List.dropWhile_cons_of_neg hhead, ← List.cons_append, List.rdropWhile,
      List.reverse_append, List.dropWhile_append_of_pos hafter', ← List.rdropWhile,
      List.rdropWhile_eq_self_iff]
    intro hne
    simpa using ht.last _ (List.getLast_mem_getLast? hne)

theorem Padded.trans (h : Padded s t) (h' : Padded t u) : Padded s u := by
  obtain ⟨before, after, rfl, hbefore, hafter⟩ := h
  obtain ⟨before', after', rfl, hbefore', hafter'⟩ := h'
  refine ⟨before ++ before', after' ++ after, by simp, ?_, ?_⟩
  · intro c hc
    exact (List.mem_append.mp hc).elim (hbefore c) (hbefore' c)
  · intro c hc
    exact (List.mem_append.mp hc).elim (hafter' c) (hafter c)

/-! ## Numerals -/

/-- There is no sign, or it is a plus sign. -/
def IsSign (sign : List Char) : Prop := sign = [] ∨ sign = ['+']

/-- An optional plus sign and one decimal digit or more, which write `n` out. -/
def Numeral (cs : List Char) (n : Nat) : Prop :=
  ∃ sign digits, cs = sign ++ digits ∧ IsSign sign ∧ digits ≠ [] ∧
    (∀ c ∈ digits, c.isDigit = true) ∧ Nat.ofDigitChars 10 digits 0 = n

/-- After an optional plus sign come digits that write out a number from `bound` on, whatever comes
after them. -/
def Exceeds (bound : Nat) (cs : List Char) : Prop :=
  ∃ sign digits rest, cs = sign ++ digits ++ rest ∧ IsSign sign ∧
    (∀ c ∈ digits, c.isDigit = true) ∧ bound ≤ Nat.ofDigitChars 10 digits 0

/-- What is wrong with a text that is no numeral below `bound`. -/
def NumeralFault.Of (bound : Nat) (cs : List Char) : NumeralFault → Prop
  | .empty => cs = []
  | .tooLarge => Exceeds bound cs
  | .badDigit => cs ≠ [] ∧ ¬ Exceeds bound cs ∧ ∀ n, ¬ Numeral cs n

theorem digit?_eq (c : Char) :
    digit? c = if c.isDigit = true then some (c.toNat - '0'.toNat) else none := by
  simp only [digit?, Char.isDigit, Char.le_def, ge_iff_le, Bool.and_eq_true, decide_eq_true_eq]

theorem le_ofDigitChars (v : Nat) (cs : List Char) : v ≤ Nat.ofDigitChars 10 cs v := by
  rw [Nat.ofDigitChars_eq_ofDigitChars_zero]
  have hpos : 0 < 10 ^ cs.length := Nat.pow_pos (by decide)
  exact Nat.le_add_right_of_le (Nat.le_mul_of_pos_left v hpos)

/-- The digits that are read so far are checked against the bound one by one, which comes to the
same as checking the whole, since more digits never write out less. -/
theorem readDigits_eq_ok_iff (hv : v < bound) : readDigits bound v cs = .ok n ↔
    (∀ c ∈ cs, c.isDigit = true) ∧ Nat.ofDigitChars 10 cs v = n ∧ n < bound := by
  induction cs generalizing v with
  | nil =>
    simp only [readDigits, Except.ok.injEq, Nat.ofDigitChars_nil]
    constructor
    · rintro rfl
      exact ⟨nofun, rfl, hv⟩
    · rintro ⟨-, rfl, -⟩
      rfl
  | cons c cs ih =>
    rw [readDigits, digit?_eq]
    cases hc : c.isDigit with
    | false => simp [hc]
    | true =>
      rw [if_pos rfl]
      dsimp only
      rw [Nat.ofDigitChars_cons]
      split
      · rename_i hlt
        rw [ih hlt]
        simp [hc]
      · rename_i hle
        have hgrows := le_ofDigitChars (10 * v + (c.toNat - '0'.toNat)) cs
        constructor
        · nofun
        · rintro ⟨-, rfl, hlt⟩
          omega

theorem readDigits_eq_tooLarge_iff (hv : v < bound) : readDigits bound v cs = .error .tooLarge ↔
    ∃ digits rest, cs = digits ++ rest ∧ (∀ c ∈ digits, c.isDigit = true) ∧
      bound ≤ Nat.ofDigitChars 10 digits v := by
  induction cs generalizing v with
  | nil =>
    constructor
    · nofun
    · rintro ⟨digits, rest, hnil, -, hle⟩
      obtain ⟨rfl, rfl⟩ := List.append_eq_nil_iff.mp hnil.symm
      exact absurd hle (Nat.not_le.mpr hv)
  | cons c cs ih =>
    rw [readDigits, digit?_eq]
    cases hc : c.isDigit with
    | false =>
      constructor
      · nofun
      · rintro ⟨digits, rest, hcs, hdigits, hle⟩
        cases digits with
        | nil => exact absurd hle (Nat.not_le.mpr hv)
        | cons d digits =>
          obtain ⟨rfl, -⟩ := List.cons.inj hcs
          rw [hdigits c List.mem_cons_self] at hc
          cases hc
    | true =>
      rw [if_pos rfl]
      dsimp only
      split
      · rename_i hlt
        rw [ih hlt]
        constructor
        · rintro ⟨digits, rest, rfl, hdigits, hle⟩
          exact ⟨c :: digits, rest, rfl, List.forall_mem_cons.mpr ⟨hc, hdigits⟩, hle⟩
        · rintro ⟨digits, rest, hcs, hdigits, hle⟩
          cases digits with
          | nil => exact absurd hle (Nat.not_le.mpr hv)
          | cons d digits =>
            obtain ⟨rfl, rfl⟩ := List.cons.inj hcs
            exact ⟨digits, rest, rfl, fun e he => hdigits e (List.mem_cons_of_mem _ he), hle⟩
      · rename_i hle
        refine ⟨fun _ => ⟨[c], cs, rfl, by simpa using hc, Nat.le_of_not_lt hle⟩, fun _ => rfl⟩

theorem readDigits_ne_empty (bound v : Nat) (cs : List Char) :
    readDigits bound v cs ≠ .error .empty := by
  induction cs generalizing v with
  | nil => nofun
  | cons c cs ih =>
    rw [readDigits]
    split
    · nofun
    · split
      · exact ih _
      · nofun

/-! ## Reading a numeral -/

/-- Digits may follow a sign. -/
theorem readNumeral_of_isSign {sign : List Char} {c : Char} (h : IsSign sign)
    (hc : c.isDigit = true) :
    readNumeral bound (sign ++ c :: cs) = readDigits bound 0 (c :: cs) := by
  have hplus : c ≠ '+' := by
    rintro rfl
    cases hc
  rcases h with rfl | rfl
  · simp [readNumeral, hplus]
  · rfl

/-- Whatever is read as more than a sign is read as digits. -/
theorem readNumeral_cases (bound : Nat) (cs : List Char) :
    (cs = [] ∧ readNumeral bound cs = .error .empty) ∨
      (cs ≠ [] ∧ readNumeral bound cs = .error .badDigit) ∨
        ∃ sign digits, cs = sign ++ digits ∧ IsSign sign ∧ digits ≠ [] ∧
          readNumeral bound cs = readDigits bound 0 digits := by
  rw [readNumeral.eq_def]
  split
  · exact .inl ⟨rfl, rfl⟩
  · exact .inr (.inl ⟨nofun, rfl⟩)
  · rename_i hne
    exact .inr (.inr ⟨['+'], _, rfl, .inr rfl, hne, rfl⟩)
  · rename_i hne _ _
    exact .inr (.inr ⟨[], cs, rfl, .inl rfl, hne, rfl⟩)

theorem readNumeral_eq_ok_iff (hbound : 0 < bound) :
    readNumeral bound cs = .ok n ↔ Numeral cs n ∧ n < bound := by
  constructor
  · intro h
    rcases readNumeral_cases bound cs with ⟨-, h'⟩ | ⟨-, h'⟩ | ⟨sign, digits, hcs, hsign, hne, h'⟩
    · cases h.symm.trans h'
    · cases h.symm.trans h'
    · obtain ⟨hdigits, hn, hlt⟩ := (readDigits_eq_ok_iff hbound).mp (h'.symm.trans h)
      exact ⟨⟨sign, digits, hcs, hsign, hne, hdigits, hn⟩, hlt⟩
  · rintro ⟨⟨sign, digits, rfl, hsign, hne, hdigits, hn⟩, hlt⟩
    cases digits with
    | nil => exact absurd rfl hne
    | cons c digits =>
      rw [readNumeral_of_isSign hsign (hdigits c List.mem_cons_self)]
      exact (readDigits_eq_ok_iff hbound).mpr ⟨hdigits, hn, hlt⟩

theorem readNumeral_eq_tooLarge_iff (hbound : 0 < bound) :
    readNumeral bound cs = .error .tooLarge ↔ Exceeds bound cs := by
  constructor
  · intro h
    rcases readNumeral_cases bound cs with ⟨-, h'⟩ | ⟨-, h'⟩ | ⟨sign, body, hcs, hsign, -, h'⟩
    · cases h.symm.trans h'
    · cases h.symm.trans h'
    · obtain ⟨digits, rest, rfl, hdigits, hle⟩ :=
        (readDigits_eq_tooLarge_iff hbound).mp (h'.symm.trans h)
      exact ⟨sign, digits, rest, by rw [hcs, List.append_assoc], hsign, hdigits, hle⟩
  · rintro ⟨sign, digits, rest, rfl, hsign, hdigits, hle⟩
    cases digits with
    | nil => exact absurd hle (Nat.not_le.mpr hbound)
    | cons c digits =>
      rw [List.append_assoc, List.cons_append,
        readNumeral_of_isSign hsign (hdigits c List.mem_cons_self)]
      exact (readDigits_eq_tooLarge_iff hbound).mpr ⟨c :: digits, rest, rfl, hdigits, hle⟩

theorem readNumeral_eq_empty_iff : readNumeral bound cs = .error .empty ↔ cs = [] := by
  constructor
  · intro h
    rcases readNumeral_cases bound cs with ⟨hnil, -⟩ | ⟨-, h'⟩ | ⟨sign, digits, -, -, -, h'⟩
    · exact hnil
    · cases h.symm.trans h'
    · exact absurd (h'.symm.trans h) (readDigits_ne_empty bound 0 digits)
  · rintro rfl
    rfl

/-- A numeral is below the bound, or its digits write out too much. -/
theorem Numeral.lt_of_not_exceeds (h : Numeral cs n) (hnot : ¬ Exceeds bound cs) : n < bound := by
  obtain ⟨sign, digits, rfl, hsign, -, hdigits, rfl⟩ := h
  by_contra hle
  exact hnot ⟨sign, digits, [], (List.append_nil _).symm, hsign, hdigits, Nat.le_of_not_lt hle⟩

/-- A text is refused for the reason that is its own. -/
theorem readNumeral_eq_error_iff (hbound : 0 < bound) {f : NumeralFault} :
    readNumeral bound cs = .error f ↔ f.Of bound cs := by
  cases f with
  | empty => exact readNumeral_eq_empty_iff
  | tooLarge => exact readNumeral_eq_tooLarge_iff hbound
  | badDigit =>
    constructor
    · intro h
      have hnot : ¬ Exceeds bound cs := fun hexceeds => by
        cases h.symm.trans ((readNumeral_eq_tooLarge_iff hbound).mpr hexceeds)
      refine ⟨?_, hnot, ?_⟩
      · rintro rfl
        cases h
      · intro n hn
        cases h.symm.trans ((readNumeral_eq_ok_iff hbound).mpr ⟨hn, hn.lt_of_not_exceeds hnot⟩)
    · rintro ⟨hne, hnot, hnone⟩
      cases h : readNumeral bound cs with
      | ok n => exact absurd ((readNumeral_eq_ok_iff hbound).mp h).1 (hnone n)
      | error f =>
        cases f with
        | empty => exact absurd (readNumeral_eq_empty_iff.mp h) hne
        | tooLarge => exact absurd ((readNumeral_eq_tooLarge_iff hbound).mp h) hnot
        | badDigit => rfl

/-! ## Writing a numeral -/

theorem isBlank_of_isDigit {c : Char} (h : c.isDigit = true) : isBlank c = false := by
  simp only [Char.isDigit, Bool.and_eq_true, decide_eq_true_eq] at h
  have hge : 48 ≤ c.toNat := UInt32.le_iff_toNat_le.mp h.1
  have hle : c.toNat ≤ 57 := UInt32.le_iff_toNat_le.mp h.2
  simp [isBlank]
  omega

/-- Numerals stand without blank characters at their ends. -/
theorem Numeral.bare (h : Numeral cs n) : Bare cs := by
  obtain ⟨sign, digits, rfl, hsign, -, hdigits, -⟩ := h
  have hall : ∀ c ∈ sign ++ digits, isBlank c = false := by
    intro c hc
    rcases List.mem_append.mp hc with hc | hc
    · rcases hsign with rfl | rfl
      · cases hc
      · rw [List.mem_singleton.mp hc]
        rfl
    · exact isBlank_of_isDigit (hdigits c hc)
  exact ⟨fun c hc => hall c (List.mem_of_head? hc), fun c hc => hall c (List.mem_of_getLast? hc)⟩

/-- The digits of a number, however many zeros they begin with, are a numeral of it. -/
theorem numeral_toDigits {sign : List Char} (hsign : IsSign sign) (zeros n : Nat) :
    Numeral (sign ++ (List.replicate zeros '0' ++ Nat.toDigits 10 n)) n := by
  refine ⟨sign, _, rfl, hsign, ?_, ?_, ?_⟩
  · simp [Nat.toDigits_ne_nil]
  · intro c hc
    rcases List.mem_append.mp hc with hc | hc
    · rw [List.eq_of_mem_replicate hc]
      rfl
    · exact Nat.isDigit_of_mem_toDigits (by decide) (by decide) hc
  · have hzeros : Nat.ofDigitChars 10 (List.replicate zeros '0') 0 = 0 := by
      induction zeros with
      | zero => rfl
      | succ zeros ih => exact ih
    rw [Nat.ofDigitChars_append, hzeros, Nat.ofDigitChars_ten_toDigits]

end Growable.Text
