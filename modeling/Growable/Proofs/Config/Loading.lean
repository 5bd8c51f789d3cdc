import Growable.Config.Environment
import Growable.Proofs.Text.Grammar
import Mathlib.Order.WellFounded

/-!
# Which environments give a configuration

What each of the four variables has to look like, said without the readers: unset, or a text that
names a kind or is a numeral once it is trimmed. `Variable.Gives` says which value a variable gives
and `Variable.Offends` what is wrong with one that gives none. A configuration is read if all four
variables give its settings and the settings fit together; the first variable that gives no value
decides otherwise, and whether the settings fit is asked only if all four give one.
-/

namespace Growable

/-! ## Names of kinds -/

namespace Kind

/-- A text is `name` in any ASCII letter case, with separators put in anywhere. -/
inductive Varies : (name text : List Char) → Prop
  | nil : Varies [] []
  | separator {name text : List Char} {c : Char} : isSeparator c = true → Varies name text →
    Varies name (c :: text)
  | letter {name text : List Char} {a c : Char} : c.toLower = a.toLower → Varies name text →
    Varies (a :: name) (c :: text)

/-- The text is one of the names of the kind, up to letter case and separators. -/
def Named (k : Kind) (s : String) : Prop :=
  ∃ name ∈ k.spellings, Varies name.toList s.toList

/-- The letters of a text, in lower case. -/
def letters (text : List Char) : List Char :=
  (text.filter (!isSeparator ·)).map Char.toLower

/-- The name has no separators, no capitals and no blank characters. -/
def Plain (name : List Char) : Prop :=
  ∀ a ∈ name, isSeparator a = false ∧ a.toLower = a ∧ Text.isBlank a = false

variable {k k' : Kind} {name text : List Char} {s : String} {c : Char}

theorem toList_fold (s : String) : (fold s).toList = letters s.toList := by
  rw [fold, letters, String.toList_ofList]

theorem letters_append (text text' : List Char) :
    letters (text ++ text') = letters text ++ letters text' := by
  simp [letters]

theorem letters_cons_of_isSeparator (hc : isSeparator c = true) :
    letters (c :: text) = letters text := by
  simp [letters, hc]

theorem letters_cons_of_not (hc : isSeparator c = false) :
    letters (c :: text) = c.toLower :: letters text := by
  simp [letters, hc]

theorem toLower_of_isSeparator (hc : isSeparator c = true) : c.toLower = c := by
  simp only [isSeparator, Bool.or_eq_true, beq_iff_eq] at hc
  rcases hc with (rfl | rfl) | rfl <;> rfl

theorem varies_iff (hname : Plain name) : Varies name text ↔ letters text = name := by
  constructor
  · intro h
    induction h with
    | nil => rfl
    | separator hc _ ih =>
      rw [letters_cons_of_isSeparator hc]
      exact ih hname
    | @letter name text a c hca _ ih =>
      obtain ⟨⟨hsep, hlower, -⟩, hrest⟩ := List.forall_mem_cons.mp hname
      rw [hlower] at hca
      cases hc : isSeparator c with
      | false => rw [letters_cons_of_not hc, hca, ih hrest]
      | true =>
        rw [← hca, toLower_of_isSeparator hc, hc] at hsep
        cases hsep
  · intro h
    induction text generalizing name with
    | nil =>
      obtain rfl : [] = name := h
      exact .nil
    | cons c text ih =>
      cases hc : isSeparator c with
      | true =>
        rw [letters_cons_of_isSeparator hc] at h
        exact .separator hc (ih hname h)
      | false =>
        rw [letters_cons_of_not hc] at h
        subst h
        obtain ⟨⟨-, hlower, -⟩, hrest⟩ := List.forall_mem_cons.mp hname
        exact .letter hlower.symm (ih hrest rfl)

/-- Whether a name is plain. -/
def isPlain (name : String) : Bool :=
  name.toList.all fun a => !isSeparator a && a.toLower == a && !Text.isBlank a

theorem plain_of_mem {name : String} (h : name ∈ k.spellings) : Plain name.toList := by
  have hall : k.spellings.all isPlain = true := by cases k <;> decide +kernel
  intro a ha
  have hplain := List.all_eq_true.mp (List.all_eq_true.mp hall name h) a ha
  simpa [and_assoc] using hplain

/-- No name is shared by two kinds. -/
theorem eq_of_mem_spellings {name : String} (h : name ∈ k.spellings) (h' : name ∈ k'.spellings) :
    k = k' := by
  have hall : ∀ k ∈ all, ∀ k' ∈ all, ∀ name ∈ k.spellings, name ∈ k'.spellings → k = k' := by
    decide +kernel
  exact hall k (mem_all k) k' (mem_all k') name h h'

theorem named_iff : k.Named s ↔ fold s ∈ k.spellings := by
  constructor
  · rintro ⟨name, hmem, hvaries⟩
    have hfold := (varies_iff (plain_of_mem hmem)).mp hvaries
    rw [← toList_fold, String.toList_inj] at hfold
    rw [hfold]
    exact hmem
  · intro hmem
    exact ⟨fold s, hmem, (varies_iff (plain_of_mem hmem)).mpr (toList_fold s).symm⟩

theorem ofText_eq_ok_iff : ofText s = .ok k ↔ k.Named s := by
  rw [named_iff, ofText]
  constructor
  · intro h
    split at h
    · rename_i k' hfind
      cases h
      simpa using List.find?_some hfind
    · cases h
  · intro hmem
    cases hfind : all.find? (·.spellings.contains (fold s)) with
    | some k' =>
      have hmem' : fold s ∈ k'.spellings := by simpa using List.find?_some hfind
      rw [eq_of_mem_spellings hmem hmem']
    | none =>
      have hnone := List.find?_eq_none.mp hfind k (mem_all k)
      simp [hmem] at hnone

theorem ofText_of_not_named (h : ∀ k, ¬ Named k s) : ofText s = .error (.unknownStrategy s) := by
  rw [ofText]
  split
  · rename_i k hfind
    exact absurd (named_iff.mpr (by simpa using List.find?_some hfind)) (h k)
  · rfl

theorem toLower_of_isBlank (hc : Text.isBlank c = true) : c.toLower = c := by
  refine dif_neg ?_
  rintro ⟨hge, hle⟩
  have hge : 65 ≤ c.toNat := UInt32.le_iff_toNat_le.mp hge
  have hle : c.toNat ≤ 90 := UInt32.le_iff_toNat_le.mp hle
  simp [Text.isBlank] at hc
  omega

/-- Blank characters have no part in a name. -/
theorem letters_eq_nil (htext : ∀ c ∈ text, Text.isBlank c = true)
    (hplain : ∀ a ∈ letters text, Text.isBlank a = false) : letters text = [] := by
  refine List.eq_nil_iff_forall_not_mem.mpr fun a ha => ?_
  obtain ⟨c, hc, rfl⟩ := List.mem_map.mp ha
  have hblank := htext c (List.mem_of_mem_filter hc)
  have hnot := hplain _ ha
  rw [toLower_of_isBlank hblank, hblank] at hnot
  cases hnot

/-- The blank characters around a name may be taken for separators or for padding. -/
theorem varies_of_padded {text' : List Char} (hname : Plain name) (h : Varies name text)
    (hpadded : Text.Padded text text') : Varies name text' := by
  obtain ⟨before, after, rfl, hbefore, hafter⟩ := hpadded
  have hletters := (varies_iff hname).mp h
  rw [letters_append, letters_append] at hletters
  have hplain : ∀ a ∈ letters before ++ letters text' ++ letters after,
      Text.isBlank a = false := by
    intro a ha
    exact (hname a (hletters ▸ ha)).2.2
  have hb := letters_eq_nil hbefore fun a ha => hplain a (by simp [ha])
  have ha := letters_eq_nil hafter fun a ha => hplain a (by simp [ha])
  rw [hb, ha, List.nil_append, List.append_nil] at hletters
  exact (varies_iff hname).mpr hletters

end Kind

/-! ## Variables -/

namespace Config

/-- The settings that are numbers. -/
inductive Quantity where
  | initialCapacity
  | maxCapacity
  | optimisticRetries
  deriving DecidableEq, Repr

namespace Quantity

/-- The setting in a configuration. -/
def of (c : Config) : Quantity → Nat
  | initialCapacity => c.initialCapacity
  | maxCapacity => c.maxCapacity
  | optimisticRetries => c.optimisticRetries

/-- The setting is below this. -/
def bound : Quantity → Nat
  | initialCapacity | maxCapacity => sizeBound
  | optimisticRetries => retryBound

/-- What the name of the variable ends with. -/
def word : Quantity → String
  | initialCapacity => "INITIAL_CAPACITY"
  | maxCapacity => "MAX_CAPACITY"
  | optimisticRetries => "OPTIMISTIC_RETRIES"

theorem bound_pos (q : Quantity) : 0 < q.bound := by
  cases q <;> decide

end Quantity

/-- The variables that settings are read from. -/
inductive Variable where
  | strategy
  | quantity (q : Quantity)
  deriving DecidableEq, Repr

namespace Variable

/-- What is set by a variable. -/
abbrev Value : Variable → Type
  | strategy => Kind
  | quantity _ => Nat

/-- The setting in a configuration. -/
def get (c : Config) : (x : Variable) → x.Value
  | strategy => c.strategy
  | quantity q => q.of c

/-- The variable's name. -/
def name (namePrefix : String) : Variable → String
  | strategy => namePrefix ++ "STRATEGY"
  | quantity q => namePrefix ++ q.word

/-- The place of a variable in the order in which they are looked at. -/
def rank : Variable → Nat
  | strategy => 0
  | quantity .initialCapacity => 1
  | quantity .maxCapacity => 2
  | quantity .optimisticRetries => 3

/-- The trimmed text `t` is well formed and means `a`. -/
def Means (t : String) : (x : Variable) → x.Value → Prop
  | strategy, k => k.Named t
  | quantity q, n => Text.Numeral t.toList n ∧ n < q.bound

/-- What is reported of the trimmed text `t` if it is not well formed. -/
def Complains (namePrefix t : String) : Variable → LoadFault → Prop
  | strategy, f => f = .unknownStrategy t
  | quantity q, f => ∃ g : Text.NumeralFault, g.Of q.bound t.toList ∧
    f = .badNumber (namePrefix ++ q.word) t g

/-- `s` is `t` with blank characters around it, and `t` has none at its ends. -/
def Trims (s t : String) : Prop :=
  Text.Padded s.toList t.toList ∧ Text.Bare t.toList

/-- The variable is unset and `a` is the default, or it is set to a text that means `a`. -/
def Gives (env : Environment) (namePrefix : String) (x : Variable) (a : x.Value) : Prop :=
  match env.get? (x.name namePrefix) with
  | none => a = x.get {}
  | some .notUnicode => False
  | some (.text s) => ∃ t, Trims s t ∧ x.Means t a

/-- The variable is set, and what it is set to is no text or means nothing. -/
def Offends (env : Environment) (namePrefix : String) (x : Variable) (f : LoadFault) : Prop :=
  match env.get? (x.name namePrefix) with
  | none => False
  | some .notUnicode => f = .notUnicode (x.name namePrefix)
  | some (.text s) => ∃ t, Trims s t ∧ (∀ a, ¬ x.Means t a) ∧ x.Complains namePrefix t f

/-- The text writes `a` out: a name in any letter case and with any separators, or decimal digits
with any number of zeros before them, with any blank characters around. -/
def Writes (s : String) : (x : Variable) → x.Value → Prop
  | strategy, k => ∃ name ∈ k.spellings, ∃ text, Text.Padded s.toList text ∧
    Kind.Varies name.toList text
  | quantity _, n => ∃ sign zeros, Text.IsSign sign ∧
    Text.Padded s.toList (sign ++ (List.replicate zeros '0' ++ Nat.toDigits 10 n))

/-- Reads a trimmed text. -/
def read (namePrefix t : String) : (x : Variable) → Except LoadFault x.Value
  | strategy =>
    match Kind.ofText t with
    | .ok k => .ok k
    | .error _ => .error (.unknownStrategy t)
  | quantity q =>
    match Text.readNumeral q.bound t.toList with
    | .ok n => .ok n
    | .error g => .error (.badNumber (namePrefix ++ q.word) t g)

/-- The value that is looked up, or what is wrong with the variable. -/
def lookup (env : Environment) (namePrefix : String) : (x : Variable) → Except LoadFault x.Value
  | strategy => lookupKind env (namePrefix ++ "STRATEGY") ({} : Config).strategy
  | quantity q => lookupNumber env (namePrefix ++ q.word) q.bound (q.of {})

variable {env : Environment} {namePrefix s t : String} {x : Variable} {a : x.Value} {f : LoadFault}

theorem trims_trim (s : String) : Trims s (Text.trim s) :=
  ⟨Text.padded_trim s, Text.bare_trim s⟩

theorem Trims.eq (h : Trims s t) : Text.trim s = t := h.1.trim_eq h.2

theorem exists_trims {P : String → Prop} : (∃ t, Trims s t ∧ P t) ↔ P (Text.trim s) := by
  constructor
  · rintro ⟨t, ht, hP⟩
    rw [ht.eq]
    exact hP
  · intro hP
    exact ⟨_, trims_trim s, hP⟩

/-! ### Reading one variable -/

theorem read_eq_ok_iff : x.read namePrefix t = .ok a ↔ x.Means t a := by
  cases x with
  | strategy =>
    rw [Means, ← Kind.ofText_eq_ok_iff, read]
    cases Kind.ofText t <;> simp
  | quantity q =>
    rw [Means, ← Text.readNumeral_eq_ok_iff q.bound_pos, read]
    cases Text.readNumeral q.bound t.toList <;> simp

theorem read_eq_error_iff : x.read namePrefix t = .error f ↔
    (∀ a, ¬ x.Means t a) ∧ x.Complains namePrefix t f := by
  constructor
  · intro h
    refine ⟨fun a ha => ?_, ?_⟩
    · cases h.symm.trans (read_eq_ok_iff.mpr ha)
    · cases x with
      | strategy =>
        rw [read] at h
        split at h
        · cases h
        · cases h
          rfl
      | quantity q =>
        rw [read] at h
        split at h
        · cases h
        · rename_i g hg
          cases h
          exact ⟨g, (Text.readNumeral_eq_error_iff q.bound_pos).mp hg, rfl⟩
  · rintro ⟨hnone, hcomplains⟩
    cases x with
    | strategy =>
      obtain rfl : f = .unknownStrategy t := hcomplains
      rw [read, Kind.ofText_of_not_named hnone]
    | quantity q =>
      obtain ⟨g, hg, rfl⟩ := hcomplains
      rw [read, (Text.readNumeral_eq_error_iff q.bound_pos).mpr hg]

theorem lookup_eq (env : Environment) (namePrefix : String) (x : Variable) :
    x.lookup env namePrefix =
      match env.get? (x.name namePrefix) with
      | none => .ok (x.get {})
      | some .notUnicode => .error (.notUnicode (x.name namePrefix))
      | some (.text s) => x.read namePrefix (Text.trim s) := by
  cases x with
  | strategy =>
    simp only [lookup, lookupKind, lookupText, name]
    rcases env.get? (namePrefix ++ "STRATEGY") with _ | s | _
    · rfl
    · simp only [bind, Except.bind, read]
      cases Kind.ofText (Text.trim s) <;> rfl
    · rfl
  | quantity q =>
    simp only [lookup, lookupNumber, lookupText, name]
    rcases env.get? (namePrefix ++ q.word) with _ | s | _
    · rfl
    · simp only [bind, Except.bind, read]
      cases Text.readNumeral q.bound (Text.trim s).toList <;> rfl
    · rfl

theorem lookup_eq_ok_iff : x.lookup env namePrefix = .ok a ↔ x.Gives env namePrefix a := by
  rw [lookup_eq, Gives]
  split
  · exact ⟨fun h => (Except.ok.inj h).symm, fun h => congrArg Except.ok h.symm⟩
  · exact ⟨nofun, nofun⟩
  · rw [exists_trims, read_eq_ok_iff]

theorem lookup_eq_error_iff :
    x.lookup env namePrefix = .error f ↔ x.Offends env namePrefix f := by
  rw [lookup_eq, Offends]
  split
  · exact ⟨nofun, nofun⟩
  · exact ⟨fun h => (Except.error.inj h).symm, fun h => congrArg Except.error h.symm⟩
  · rw [exists_trims, read_eq_error_iff]

/-- A variable gives a value or offends. -/
theorem gives_or_offends (env : Environment) (namePrefix : String) (x : Variable) :
    (∃ a, x.Gives env namePrefix a) ∨ ∃ f, x.Offends env namePrefix f := by
  cases h : x.lookup env namePrefix with
  | ok a => exact .inl ⟨a, lookup_eq_ok_iff.mp h⟩
  | error f => exact .inr ⟨f, lookup_eq_error_iff.mp h⟩

/-- No variable offends, or there is one that does and before which none does. -/
theorem none_or_first (env : Environment) (namePrefix : String) :
    (∀ (x : Variable) f, ¬ x.Offends env namePrefix f) ∨
      ∃ (x : Variable) (f : LoadFault), x.Offends env namePrefix f ∧
        ∀ y : Variable, y.rank < x.rank → ∀ g, ¬ y.Offends env namePrefix g := by
  by_cases h : ∃ x : Variable, ∃ f, x.Offends env namePrefix f
  · right
    obtain ⟨x, ⟨f, hf⟩, hleast⟩ := (measure rank).wf.has_min
      {x : Variable | ∃ f, x.Offends env namePrefix f} h
    exact ⟨x, f, hf, fun y hy g hg => hleast y ⟨g, hg⟩ hy⟩
  · left
    exact fun x f hf => h ⟨x, f, hf⟩

end Variable

/-! ## Reading a configuration -/

variable {env : Environment} {namePrefix : String} {c : Config} {x : Variable} {f : LoadFault}

/-- The variables are looked up one after the other. -/
theorem load_eq (env : Environment) (namePrefix : String) : load env namePrefix = (do
    let strategy ← Variable.strategy.lookup env namePrefix
    let initialCapacity ← (Variable.quantity .initialCapacity).lookup env namePrefix
    let maxCapacity ← (Variable.quantity .maxCapacity).lookup env namePrefix
    let optimisticRetries ← (Variable.quantity .optimisticRetries).lookup env namePrefix
    let config : Config := { strategy, initialCapacity, maxCapacity, optimisticRetries }
    match config.fault? with
    | some f => throw (.invalid f)
    | none => return config) := rfl

theorem load_of_ok (h : ∀ x : Variable, x.lookup env namePrefix = .ok (x.get c)) :
    load env namePrefix =
      match c.fault? with
      | some f => .error (.invalid f)
      | none => .ok c := by
  rw [load_eq]
  simp only [h, bind, Except.bind]
  rfl

/-- The first variable that gives no value decides. -/
theorem load_of_error (h : x.lookup env namePrefix = .error f)
    (hbefore : ∀ y : Variable, y.rank < x.rank → ∃ a, y.lookup env namePrefix = .ok a) :
    load env namePrefix = .error f := by
  rw [load_eq]
  cases x with
  | strategy => simp only [h, bind, Except.bind]
  | quantity q =>
    obtain ⟨k, hk⟩ := hbefore .strategy (by cases q <;> decide)
    cases q with
    | initialCapacity => simp only [hk, h, bind, Except.bind]
    | maxCapacity =>
      obtain ⟨i, hi⟩ := hbefore (.quantity .initialCapacity) (by decide)
      simp only [hk, hi, h, bind, Except.bind]
    | optimisticRetries =>
      obtain ⟨i, hi⟩ := hbefore (.quantity .initialCapacity) (by decide)
      obtain ⟨m, hm⟩ := hbefore (.quantity .maxCapacity) (by decide)
      simp only [hk, hi, hm, h, bind, Except.bind]

theorem exists_config (h : ∀ x : Variable, ∃ a, x.lookup env namePrefix = .ok a) :
    ∃ c : Config, ∀ x : Variable, x.lookup env namePrefix = .ok (x.get c) := by
  obtain ⟨strategy, hstrategy⟩ := h .strategy
  obtain ⟨initialCapacity, hinitial⟩ := h (.quantity .initialCapacity)
  obtain ⟨maxCapacity, hmax⟩ := h (.quantity .maxCapacity)
  obtain ⟨optimisticRetries, hretries⟩ := h (.quantity .optimisticRetries)
  refine ⟨{ strategy, initialCapacity, maxCapacity, optimisticRetries }, ?_⟩
  rintro (_ | _ | _ | _)
  · exact hstrategy
  · exact hinitial
  · exact hmax
  · exact hretries

theorem exists_lookup (h : ∀ f, ¬ x.Offends env namePrefix f) :
    ∃ a, x.lookup env namePrefix = .ok a := by
  obtain ⟨a, ha⟩ := (x.gives_or_offends env namePrefix).resolve_right fun ⟨f, hf⟩ => h f hf
  exact ⟨a, Variable.lookup_eq_ok_iff.mpr ha⟩

theorem load_of_offends (h : x.Offends env namePrefix f)
    (hbefore : ∀ y : Variable, y.rank < x.rank → ∀ g, ¬ y.Offends env namePrefix g) :
    load env namePrefix = .error f :=
  load_of_error (Variable.lookup_eq_error_iff.mpr h) fun y hy => exists_lookup (hbefore y hy)

theorem load_eq_ok_iff : load env namePrefix = .ok c ↔
    (∀ x : Variable, x.Gives env namePrefix (x.get c)) ∧ c.Valid := by
  rw [← fault?_eq_none_iff]
  constructor
  · intro h
    rcases Variable.none_or_first env namePrefix with hnone | ⟨x, f, hf, hbefore⟩
    · obtain ⟨c', hc'⟩ := exists_config fun x => exists_lookup (hnone x)
      rw [load_of_ok hc'] at h
      split at h
      · cases h
      · rename_i hfault
        obtain rfl : c' = c := Except.ok.inj h
        exact ⟨fun x => Variable.lookup_eq_ok_iff.mp (hc' x), hfault⟩
    · cases h.symm.trans (load_of_offends hf hbefore)
  · rintro ⟨hgives, hfault⟩
    rw [load_of_ok fun x => Variable.lookup_eq_ok_iff.mpr (hgives x), hfault]

/-! ## Writing a configuration -/

namespace Variable

/-- A name that is written out is still one once it is trimmed, which may take separators from its
ends as well. -/
theorem named_of_writes {k : Kind} (h : strategy.Writes s k) : ∃ t, Trims s t ∧ k.Named t := by
  obtain ⟨name, hmem, text, hpadded, hvaries⟩ := h
  have htrim : Text.Padded text (Text.trim (String.ofList text)).toList := by
    simpa using Text.padded_trim (String.ofList text)
  refine ⟨_, ⟨hpadded.trans htrim, Text.bare_trim _⟩, name, hmem, ?_⟩
  exact Kind.varies_of_padded (Kind.plain_of_mem hmem) hvaries htrim

theorem numeral_of_writes {q : Quantity} {n : Nat} (h : (quantity q).Writes s n) :
    ∃ t, Trims s t ∧ Text.Numeral t.toList n := by
  obtain ⟨sign, zeros, hsign, hpadded⟩ := h
  have hnumeral := Text.numeral_toDigits hsign zeros n
  refine ⟨String.ofList (sign ++ (List.replicate zeros '0' ++ Nat.toDigits 10 n)), ⟨?_, ?_⟩, ?_⟩
  · rw [String.toList_ofList]
    exact hpadded
  · rw [String.toList_ofList]
    exact hnumeral.bare
  · rw [String.toList_ofList]
    exact hnumeral

end Variable

theorem Valid.lt_bound (h : c.Valid) (hretries : c.optimisticRetries < retryBound)
    (q : Quantity) : q.of c < q.bound := by
  obtain ⟨-, hmax, hinitial⟩ := h
  have hlimit : capacityLimit < sizeBound := by decide
  cases q with
  | initialCapacity => exact Nat.lt_of_le_of_lt (Nat.le_trans hinitial hmax) hlimit
  | maxCapacity => exact Nat.lt_of_le_of_lt hmax hlimit
  | optimisticRetries => exact hretries

theorem gives_of_writes (hc : c.Valid) (hretries : c.optimisticRetries < retryBound) {s : String}
    (hset : env.get? (x.name namePrefix) = some (.text s)) (h : x.Writes s (x.get c)) :
    x.Gives env namePrefix (x.get c) := by
  rw [Variable.Gives, hset]
  cases x with
  | strategy => exact Variable.named_of_writes h
  | quantity q =>
    obtain ⟨t, ht, hnumeral⟩ := Variable.numeral_of_writes h
    exact ⟨t, ht, hnumeral, hc.lt_bound hretries q⟩

/-- How a configuration is read from the environment. -/
structure Loads (env : Environment) (namePrefix : String) : Prop where
  /-- Exactly those configurations are read whose settings the variables give, and whose settings
  fit together. -/
  accepts : ∀ c, (ofEnvironment env namePrefix).1 = .ok c ↔
    (∀ x : Variable, x.Gives env namePrefix (x.get c)) ∧ c.Valid
  /-- The first variable that offends is the one that is reported, -/
  refuses : ∀ (x : Variable) (f : LoadFault), x.Offends env namePrefix f →
    (∀ y : Variable, y.rank < x.rank → ∀ g, ¬ y.Offends env namePrefix g) →
    ofEnvironment env namePrefix = (.error f.toError, [])
  /-- and if none does, it is checked whether the settings fit together. -/
  validates : (∀ (x : Variable) f, ¬ x.Offends env namePrefix f) →
    ∃ c, (∀ x : Variable, x.Gives env namePrefix (x.get c)) ∧
      (ofEnvironment env namePrefix).1 = c.validate.map fun _ => c
  /-- There is no third case. -/
  settled : (∀ (x : Variable) f, ¬ x.Offends env namePrefix f) ∨
    ∃ (x : Variable) (f : LoadFault), x.Offends env namePrefix f ∧
      ∀ y : Variable, y.rank < x.rank → ∀ g, ¬ y.Offends env namePrefix g
  /-- A valid configuration that is written out is read back, and its reading is reported. -/
  readsBack : ∀ c : Config, c.Valid → c.optimisticRetries < retryBound →
    (∀ x : Variable, ∃ s, env.get? (x.name namePrefix) = some (.text s) ∧ x.Writes s (x.get c)) →
    ofEnvironment env namePrefix = (.ok c, [.loaded namePrefix c])

/-- What is read from an environment, whatever its variables are set to. -/
theorem loads_environment (env : Environment) (namePrefix : String) : Loads env namePrefix := by
  constructor
  · intro c
    rw [← load_eq_ok_iff, ofEnvironment]
    cases load env namePrefix <;> simp
  · intro x f hf hbefore
    rw [ofEnvironment, load_of_offends hf hbefore]
  · intro hnone
    obtain ⟨c, hc⟩ := exists_config fun x => exists_lookup (hnone x)
    refine ⟨c, fun x => Variable.lookup_eq_ok_iff.mp (hc x), ?_⟩
    rw [ofEnvironment, load_of_ok hc, validate]
    cases c.fault? <;> rfl
  · exact Variable.none_or_first env namePrefix
  · intro c hvalid hretries hwritten
    have hload : load env namePrefix = .ok c := by
      refine load_eq_ok_iff.mpr ⟨fun x => ?_, hvalid⟩
      obtain ⟨s, hset, hwrites⟩ := hwritten x
      exact gives_of_writes hvalid hretries hset hwrites
    rw [ofEnvironment, hload]

/-- Letter case, separators, padding, a sign and leading zeros do not matter. -/
example : (load ⟨[("A_STRATEGY", .text "\u2003Fast-Layout_LOCK "),
    ("A_MAX_CAPACITY", .text "\t+04096")]⟩ "A_").toOption =
    some { strategy := .fastLayoutLock, maxCapacity := 4096 } := by
  decide +kernel

end Config

end Growable
