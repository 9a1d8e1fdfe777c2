import Mathlib.Data.Nat.Digits.Defs
import RegisterAllocator.Proofs.Outcome
import RegisterAllocator.Text.Numeral

/-!
# Integer literals

What the text of an integer denotes, said without the reader: a digit is a character of the alphabet of its base, a
numeral has the value of its digits by position, and a literal is a numeral with an optional mark of base sixteen and
an optional sign. The reader holds the magnitude of a literal in a word of 128 bits:

* `Wide.push?_eq_some_iff`, `Wide.foldlM_push?_eq_some_iff`: a step and the whole loop give the word that is the number
  of the digits, and give up only if no word is.
* `int64?_eq_some_iff`: the integers of 64 bits that are read are those that the text denotes. Giving up early loses
  none of them, since their magnitudes are words, and so are the negatives of these.
-/

namespace RegisterAllocator.Numeral

/-! ## Digits -/

/-- The character stands for the digit `value` to a base of at most sixteen. Letters are of either case. -/
structure Digit (base : Nat) (c : Char) (value : Nat) : Prop where
  bound : value < base
  form : c = value.digitChar ∨ c = value.digitChar.toUpper

instance (base : Nat) (c : Char) (value : Nat) : Decidable (Digit base c value) :=
  decidable_of_iff (value < base ∧ (c = value.digitChar ∨ c = value.digitChar.toUpper))
    ⟨fun both => ⟨both.1, both.2⟩, fun digit => ⟨digit.bound, digit.form⟩⟩

/-- The characters of a range stand for the digits from `least` on, if this holds by their numbers. -/
theorem digit_of_range {base value : Nat} {first last c : Char} (least : Nat)
    (each : ∀ k ≤ last.toNat - first.toNat, Digit base (Char.ofNat (first.toNat + k)) (k + least))
    (range : first ≤ c ∧ c ≤ last) (read : some (c.toNat - first.toNat + least) = some value) :
    Digit base c value := by
  have lower : first.toNat ≤ c.toNat := range.1
  have upper : c.toNat ≤ last.toNat := range.2
  have digit := each (c.toNat - first.toNat) (by omega)
  rwa [Nat.add_sub_cancel' lower, Char.ofNat_toNat, Option.some.inj read] at digit

theorem Digit.read_of_forms {base value : Nat} {c : Char} {digit? : Char → Option Nat}
    (forms : ∀ value < base, digit? value.digitChar = some value ∧ digit? value.digitChar.toUpper = some value)
    (digit : Digit base c value) : digit? c = some value := by
  rcases digit with ⟨bound, rfl | rfl⟩
  · exact (forms value bound).1
  · exact (forms value bound).2

theorem decimalDigit?_eq_some_iff {c : Char} {value : Nat} : decimalDigit? c = some value ↔ Digit 10 c value := by
  constructor
  · intro read
    rw [decimalDigit?] at read
    split_ifs at read with decimal
    exact digit_of_range 0 (by decide) decimal read
  · exact Digit.read_of_forms (by decide)

theorem hexDigit?_eq_some_iff {c : Char} {value : Nat} : hexDigit? c = some value ↔ Digit 16 c value := by
  constructor
  · intro read
    rw [hexDigit?] at read
    split_ifs at read with decimal lower upper
    · exact digit_of_range 0 (by decide) decimal read
    · exact digit_of_range 10 (by decide) lower read
    · exact digit_of_range 10 (by decide) upper read
  · exact Digit.read_of_forms (by decide)

/-! ## Numerals -/

/-- A nonempty text of digits and the number that it denotes by position, the last digit being the units. -/
def Denotes (base : Nat) (text : List Char) (n : Nat) : Prop :=
  text ≠ [] ∧ ∃ digits, List.Forall₂ (Digit base) text digits ∧ Nat.ofDigits base digits.reverse = n

theorem ofDigits_eq (base : Nat) (digits : List Nat) : ofDigits base digits = Nat.ofDigits base digits.reverse := by
  rw [Nat.ofDigits_eq_foldr, List.foldr_reverse, ofDigits]
  simp only [Nat.cast_id, Nat.add_comm, Nat.mul_comm]

section

variable {base : Nat} {digit? : Char → Option Nat} {text : List Char}

theorem digits?_eq_some_iff {digits : List Nat} (reads : ∀ {c value}, digit? c = some value ↔ Digit base c value) :
    digits? digit? text = some digits ↔ text ≠ [] ∧ List.Forall₂ (Digit base) text digits := by
  rw [digits?]
  split
  · next empty => simp [List.isEmpty_iff.mp empty]
  · next nonempty =>
    rw [List.isEmpty_iff] at nonempty
    simp only [mapM_eq_some, reads, ne_eq, nonempty, not_false_eq_true, true_and]

theorem decimal?_eq_some_iff {n : Nat} : decimal? text = some n ↔ Denotes 10 text n := by
  simp only [decimal?, Option.map_eq_some_iff, digits?_eq_some_iff decimalDigit?_eq_some_iff, ofDigits_eq, Denotes,
    and_assoc, exists_and_left]

end

/-! ## Words of 128 bits -/

namespace Wide

variable {base n : Nat} {value word : Wide}

theorem toInt_ofNat {n : Nat} (bound : n < 2 ^ 127) : (BitVec.ofNat 128 n).toInt = n := by
  have kept : (BitVec.ofNat 128 n).toNat = n := by
    rw [BitVec.toNat_ofNat, Nat.mod_eq_of_lt (by omega)]
  rw [BitVec.toInt_eq_toNat_of_lt (by omega), kept]

theorem toNat_eq (holds : word.toInt = n) : word.toNat = n := by
  have bound : word.toNat < 2 ^ 128 := word.isLt
  rw [BitVec.toInt_eq_toNat_cond] at holds
  split at holds
  · omega
  · omega

theorem smulOverflow_eq_false_iff {a b : Wide} :
    a.smulOverflow b = false ↔ -2 ^ 127 ≤ a.toInt * b.toInt ∧ a.toInt * b.toInt < 2 ^ 127 := by
  simp [BitVec.smulOverflow, and_comm]

theorem saddOverflow_eq_false_iff {a b : Wide} :
    a.saddOverflow b = false ↔ -2 ^ 127 ≤ a.toInt + b.toInt ∧ a.toInt + b.toInt < 2 ^ 127 := by
  simp [BitVec.saddOverflow, and_comm]

/-- One more digit gives the word that is the number with this digit, if there is one: the product is at most this
number, so it overflows only if there is none. -/
theorem push?_eq_some_iff {digit : Nat} (holds : value.toInt = n) (small : base < 2 ^ 127) (least : digit < 2 ^ 127) :
    push? base value digit = some word ↔ word.toInt = (n * base + digit : Nat) := by
  have most : word.toInt < 2 ^ 127 := word.toInt_lt
  have product : value.toInt * (BitVec.ofNat 128 base).toInt = (n * base : Nat) := by
    rw [holds, toInt_ofNat small, Nat.cast_mul]
  have last : (BitVec.ofNat 128 digit).toInt = digit := toInt_ofNat least
  simp only [push?]
  constructor
  · intro pushed
    split_ifs at pushed with overflow
    rw [Bool.or_eq_true, not_or] at overflow
    rw [← Option.some.inj pushed, BitVec.toInt_add_of_not_saddOverflow overflow.2,
      BitVec.toInt_mul_of_not_smulOverflow overflow.1, product, last, Nat.cast_add]
  · intro same
    -- `omega` takes the product for a number: it is not negative, and with the digit it is still a word
    have scaled : value.smulOverflow (BitVec.ofNat 128 base) = false := by
      rw [smulOverflow_eq_false_iff, product]
      omega
    have exact : (value * BitVec.ofNat 128 base).toInt = (n * base : Nat) := by
      rw [BitVec.toInt_mul_of_not_smulOverflow (by simp [scaled]), product]
    have summed : (value * BitVec.ofNat 128 base).saddOverflow (BitVec.ofNat 128 digit) = false := by
      rw [saddOverflow_eq_false_iff, exact, last]
      omega
    rw [scaled, summed, Bool.or_self, if_neg Bool.false_ne_true, Option.some.injEq]
    apply BitVec.eq_of_toInt_eq
    rw [BitVec.toInt_add_of_not_saddOverflow (by simp [summed]), exact, last, same, Nat.cast_add]

theorem le_foldl (positive : 0 < base) (digits : List Nat) (n : Nat) :
    n ≤ digits.foldl (fun value digit => value * base + digit) n := by
  induction digits generalizing n with
  | nil => exact Nat.le_refl n
  | cons digit digits ih =>
    calc n ≤ n * base := Nat.le_mul_of_pos_right n positive
      _ ≤ n * base + digit := Nat.le_add_right _ _
      _ ≤ _ := ih _

/-- The loop over the digits gives the word that is the number of all of them, if there is one. Numbers only grow along
the loop, so it does not give up on a number that a word can hold. -/
theorem foldlM_push?_eq_some_iff {digits : List Nat} (positive : 0 < base) (small : base < 2 ^ 127)
    (each : ∀ digit ∈ digits, digit < base) (holds : value.toInt = n) :
    digits.foldlM (push? base) value = some word ↔
      word.toInt = (digits.foldl (fun value digit => value * base + digit) n : Nat) := by
  induction digits generalizing value n with
  | nil =>
    rw [List.foldlM_nil, List.foldl_nil, ← holds, Option.pure_def, Option.some.injEq, BitVec.toInt_inj, eq_comm]
  | cons digit digits ih =>
    have least : digit < 2 ^ 127 := Nat.lt_trans (each digit List.mem_cons_self) small
    have rest := fun d member => each d (List.mem_cons_of_mem digit member)
    rw [List.foldlM_cons, List.foldl_cons, Option.bind_eq_bind, Option.bind_eq_some_iff]
    constructor
    · rintro ⟨next, pushed, folded⟩
      exact (ih rest ((push?_eq_some_iff holds small least).mp pushed)).mp folded
    · intro same
      -- the number so far is at most the last one, which is a word
      have grown := le_foldl positive digits (n * base + digit)
      have most : word.toInt < 2 ^ 127 := word.toInt_lt
      have next := toInt_ofNat (n := n * base + digit) (by omega)
      exact ⟨_, (push?_eq_some_iff holds small least).mpr next, (ih rest next).mpr same⟩

/-- The word without a negative is itself negative, so it is no number. -/
theorem negOverflow_eq_false (holds : word.toInt = n) : word.negOverflow = false := by
  rw [BitVec.negOverflow, beq_eq_false_iff_ne, holds]
  omega

theorem toInt_neg (holds : word.toInt = n) : (-word).toInt = -n := by
  rw [BitVec.toInt_neg_of_not_negOverflow (by simp [negOverflow_eq_false holds]), holds]

end Wide

theorem wide?_eq_some_iff {base : Nat} {digit? : Char → Option Nat} {text : List Char} {word : Wide}
    (positive : 0 < base) (small : base < 2 ^ 127) (reads : ∀ {c value}, digit? c = some value ↔ Digit base c value) :
    wide? base digit? text = some word ↔ ∃ n : Nat, Denotes base text n ∧ word.toInt = n := by
  have folded {digits : List Nat} (all : List.Forall₂ (Digit base) text digits) :
      digits.foldlM (Wide.push? base) 0 = some word ↔ word.toInt = (Nat.ofDigits base digits.reverse : Nat) := by
    rw [← ofDigits_eq]
    apply Wide.foldlM_push?_eq_some_iff positive small
    · intro digit member
      obtain ⟨c, -, stands⟩ := forall₂_mem_right all member
      exact stands.bound
    · rfl
  simp only [wide?, Option.bind_eq_some_iff, digits?_eq_some_iff reads]
  constructor
  · rintro ⟨digits, ⟨nonempty, all⟩, loop⟩
    exact ⟨_, ⟨nonempty, digits, all, rfl⟩, (folded all).mp loop⟩
  · rintro ⟨n, ⟨nonempty, digits, all, rfl⟩, holds⟩
    exact ⟨digits, ⟨nonempty, all⟩, (folded all).mpr holds⟩

/-! ## Literals -/

/-- The text of a number: decimal digits, or `0x` or `0X` and hexadecimal digits. -/
inductive Magnitude : List Char → Nat → Prop where
  | decimal {text n} : Denotes 10 text n → Magnitude text n
  | hex {mark text n} : mark = 'x' ∨ mark = 'X' → Denotes 16 text n → Magnitude ('0' :: mark :: text) n

/-- The text of an integer: a number, or a minus sign and a number. -/
inductive Literal : List Char → Int → Prop where
  | plain {text} {n : Nat} : Magnitude text n → Literal text n
  | negative {text} {n : Nat} : Magnitude text n → Literal ('-' :: text) (-n)

section

variable {text : List Char} {n : Nat}

theorem Denotes.decimalDigit?_ne_none (denotes : Denotes 10 text n) : ∀ c ∈ text, decimalDigit? c ≠ none := by
  obtain ⟨-, digits, all, -⟩ := denotes
  intro c member
  obtain ⟨value, -, digit⟩ := forall₂_mem_left all member
  rw [decimalDigit?_eq_some_iff.mpr digit]
  nofun

/-- Neither mark is a decimal digit, so a text after a mark is read to base sixteen only. -/
theorem magnitude_hex_iff {mark : Char} (marks : mark = 'x' ∨ mark = 'X') :
    Magnitude ('0' :: mark :: text) n ↔ Denotes 16 text n := by
  constructor
  · intro magnitude
    cases magnitude with
    | decimal denotes =>
      have digit := denotes.decimalDigit?_ne_none mark (by simp)
      rcases marks with rfl | rfl
      · exact absurd rfl digit
      · exact absurd rfl digit
    | hex _ denotes => exact denotes
  · exact .hex marks

theorem magnitude_decimal_iff (unmarked : ∀ mark rest, mark = 'x' ∨ mark = 'X' → text ≠ '0' :: mark :: rest) :
    Magnitude text n ↔ Denotes 10 text n := by
  constructor
  · intro magnitude
    cases magnitude with
    | decimal denotes => exact denotes
    | hex marks => exact absurd rfl (unmarked _ _ marks)
  · exact .decimal

theorem not_magnitude_minus : ¬ Magnitude ('-' :: text) n := by
  rintro (denotes | _)
  exact denotes.decimalDigit?_ne_none '-' List.mem_cons_self rfl

theorem magnitude?_eq_some_iff {word : Wide} :
    magnitude? text = some word ↔ ∃ n : Nat, Magnitude text n ∧ word.toInt = n := by
  have hex {rest : List Char} :
      wide? 16 hexDigit? rest = some word ↔ ∃ n : Nat, Denotes 16 rest n ∧ word.toInt = n :=
    wide?_eq_some_iff (by decide) (by decide) hexDigit?_eq_some_iff
  fun_cases magnitude? text with
  | case1 rest => simp only [hex, magnitude_hex_iff (.inl rfl)]
  | case2 rest => simp only [hex, magnitude_hex_iff (.inr rfl)]
  | case3 text lower upper =>
    have unmarked : ∀ mark rest, mark = 'x' ∨ mark = 'X' → text ≠ '0' :: mark :: rest := by
      rintro mark rest (rfl | rfl)
      · exact lower rest
      · exact upper rest
    simp only [wide?_eq_some_iff (by decide : 0 < 10) (by decide) decimalDigit?_eq_some_iff,
      magnitude_decimal_iff unmarked]

theorem toInt64?_eq_some_iff {value : Int} {word : Int64} : toInt64? value = some word ↔ word.toInt = value := by
  rw [toInt64?]
  split
  · next range =>
    have most : value < 2 ^ 63 := Int.lt_of_le_sub_one range.2
    rw [Option.some.injEq, ← Int64.toInt_inj, Int64.toInt_ofInt_of_le range.1 most, eq_comm]
  · next outside =>
    constructor
    · nofun
    · rintro rfl
      exact absurd ⟨word.minValue_le_toInt, word.toInt_le⟩ outside

theorem literal_minus_iff {value : Int} : Literal ('-' :: text) value ↔ ∃ n : Nat, Magnitude text n ∧ value = -n := by
  constructor
  · intro literal
    cases literal with
    | plain magnitude => exact absurd magnitude not_magnitude_minus
    | negative magnitude => exact ⟨_, magnitude, rfl⟩
  · rintro ⟨n, magnitude, rfl⟩
    exact .negative magnitude

theorem literal_plain_iff {value : Int} (unsigned : ∀ rest, text ≠ '-' :: rest) :
    Literal text value ↔ ∃ n : Nat, Magnitude text n ∧ value = n := by
  constructor
  · intro literal
    cases literal with
    | plain magnitude => exact ⟨_, magnitude, rfl⟩
    | negative => exact absurd rfl (unsigned _)
  · rintro ⟨n, magnitude, rfl⟩
    exact .plain magnitude

theorem int64?_eq_some_iff {value : Int64} : int64? text = some value ↔ Literal text value.toInt := by
  have least : -2 ^ 63 ≤ value.toInt := value.le_toInt
  have most : value.toInt < 2 ^ 63 := value.toInt_lt
  fun_cases int64? text with
  | case1 rest =>
    simp only [Option.bind_eq_some_iff, toInt64?_eq_some_iff, literal_minus_iff]
    constructor
    · rintro ⟨word, read, same⟩
      obtain ⟨n, magnitude, holds⟩ := magnitude?_eq_some_iff.mp read
      exact ⟨n, magnitude, same.trans (Wide.toInt_neg holds)⟩
    · rintro ⟨n, magnitude, same⟩
      -- here `n` may be `2 ^ 63`, which is a word of 128 bits but not of 64
      have holds := Wide.toInt_ofNat (n := n) (by omega)
      exact ⟨_, magnitude?_eq_some_iff.mpr ⟨n, magnitude, holds⟩, same.trans (Wide.toInt_neg holds).symm⟩
  | case2 text unsigned =>
    simp only [Option.bind_eq_some_iff, toInt64?_eq_some_iff, literal_plain_iff unsigned]
    constructor
    · rintro ⟨word, read, same⟩
      obtain ⟨n, magnitude, holds⟩ := magnitude?_eq_some_iff.mp read
      exact ⟨n, magnitude, same.trans holds⟩
    · rintro ⟨n, magnitude, same⟩
      have holds := Wide.toInt_ofNat (n := n) (by omega)
      exact ⟨_, magnitude?_eq_some_iff.mpr ⟨n, magnitude, holds⟩, same.trans holds.symm⟩

end

/-! ## Decimal text -/

theorem isDigit_toDigits (n : Nat) : ∀ c ∈ Nat.toDigits 10 n, c.isDigit = true :=
  fun _ member => Nat.isDigit_of_mem_toDigits (by decide) (by decide) member

theorem digit_toDigits (n : Nat) : ∀ c ∈ Nat.toDigits 10 n, Digit 10 c (c.toNat - '0'.toNat) := by
  intro c member
  have digit := isDigit_toDigits n c member
  rw [Char.isDigit, Bool.and_eq_true, decide_eq_true_eq, decide_eq_true_eq] at digit
  exact digit_of_range 0 (by decide) digit rfl

theorem denotes_toDigits (n : Nat) : Denotes 10 (Nat.toDigits 10 n) n := by
  refine ⟨Nat.toDigits_ne_nil, (Nat.toDigits 10 n).map (·.toNat - '0'.toNat), ?_, ?_⟩
  · rw [List.forall₂_map_right_iff, List.forall₂_same]
    exact digit_toDigits n
  · rw [← ofDigits_eq, ofDigits, List.foldl_map]
    simp only [Nat.mul_comm _ 10]
    exact Nat.ofDigitChars_ten_toDigits

theorem literal_decimal (value : Int) : Literal (toString value).toList value := by
  cases value with
  | ofNat n =>
    have text : (toString (Int.ofNat n)).toList = Nat.toDigits 10 n := by
      have same : toString (Int.ofNat n) = toString n := rfl
      rw [same, Nat.toString_eq_ofList_toDigits, String.toList_ofList]
    rw [text]
    exact .plain (.decimal (denotes_toDigits n))
  | negSucc n =>
    have text : (toString (Int.negSucc n)).toList = '-' :: Nat.toDigits 10 (n + 1) := by
      have same : toString (Int.negSucc n) = "-" ++ toString (n + 1) := rfl
      simp [same]
    rw [text]
    exact .negative (.decimal (denotes_toDigits (n + 1)))

/-! ## Exact reading -/

section

variable {text : List Char}

theorem map_toInt_int64?_eq_some_iff {value : Int} : (int64? text).map Int64.toInt = some value ↔
    Literal text value ∧ -2 ^ 63 ≤ value ∧ value ≤ 2 ^ 63 - 1 := by
  simp only [Option.map_eq_some_iff, int64?_eq_some_iff]
  constructor
  · rintro ⟨word, literal, rfl⟩
    exact ⟨literal, word.le_toInt, Int.le_sub_one_of_lt word.toInt_lt⟩
  · rintro ⟨literal, least, most⟩
    have kept := Int64.toInt_ofInt_of_le least (Int.lt_of_le_sub_one most)
    exact ⟨Int64.ofInt value, kept.symm ▸ literal, kept⟩

theorem int64?_eq_none_iff : int64? text = none ↔
    ¬ ∃ value, Literal text value ∧ -2 ^ 63 ≤ value ∧ value ≤ 2 ^ 63 - 1 := by
  simp only [← map_toInt_int64?_eq_some_iff, ← Option.isSome_iff_exists, Option.isSome_map,
    Bool.not_eq_true, Option.isSome_eq_false_iff, Option.isNone_iff_eq_none]

theorem magnitude?_eq_some_iff_toNat {word : Wide} :
    magnitude? text = some word ↔ Magnitude text word.toNat ∧ word.toInt = word.toNat := by
  rw [magnitude?_eq_some_iff]
  constructor
  · rintro ⟨n, magnitude, holds⟩
    rw [Wide.toNat_eq holds]
    exact ⟨magnitude, holds⟩
  · rintro ⟨magnitude, holds⟩
    exact ⟨_, magnitude, holds⟩

end

/-- Integer literals are read exactly. An integer is read if and only if it is of 64 bits and the text denotes it, and
nothing is read in every other case. The words of 128 bits in between are the numbers that the texts denote, and no
such word overflows when it is negated. Decimal text is read back. -/
theorem literals_read_exactly :
    (∀ (text : String) (value : Int), (int64? text.toList).map Int64.toInt = some value ↔
      Literal text.toList value ∧ -2 ^ 63 ≤ value ∧ value ≤ 2 ^ 63 - 1) ∧
    (∀ text : String, int64? text.toList = none ↔
      ¬ ∃ value, Literal text.toList value ∧ -2 ^ 63 ≤ value ∧ value ≤ 2 ^ 63 - 1) ∧
    (∀ (digits : List Char) (word : Wide), magnitude? digits = some word ↔
      Magnitude digits word.toNat ∧ word.toInt = word.toNat) ∧
    (∀ (digits : List Char) (word : Wide), magnitude? digits = some word → word.negOverflow = false) ∧
    (∀ value : Int64, int64? (toString value.toInt).toList = some value) := by
  refine ⟨fun _ _ => map_toInt_int64?_eq_some_iff, fun _ => int64?_eq_none_iff,
    fun _ _ => magnitude?_eq_some_iff_toNat, fun digits word read => ?_, fun value => ?_⟩
  · exact Wide.negOverflow_eq_false (magnitude?_eq_some_iff_toNat.mp read).2
  · exact int64?_eq_some_iff.mpr (literal_decimal value.toInt)

/-- The least integer is read and denoted, though its magnitude is no integer of 64 bits. The greatest word has a
negative, which is not read. -/
theorem outermost_read_exactly :
    int64? "-0X008000000000000000".toList = some Int64.minValue ∧
    Literal "-0X008000000000000000".toList (-2 ^ 63) ∧
    magnitude? "170141183460469231731687303715884105727".toList = some (BitVec.intMax 128) ∧
    (BitVec.intMax 128).negOverflow = false ∧
    int64? "-170141183460469231731687303715884105727".toList = none := by
  have least : int64? "-0X008000000000000000".toList = some Int64.minValue := by decide
  have greatest : magnitude? "170141183460469231731687303715884105727".toList = some (BitVec.intMax 128) := by decide
  obtain ⟨exact, -, -, negated, -⟩ := literals_read_exactly
  refine ⟨least, ((exact _ _).mp ?_).1, greatest, negated _ _ greatest, by decide⟩
  rw [least]
  rfl

end RegisterAllocator.Numeral
