import Mathlib
import Lox.Proofs.Number.Digits
import Lox.Proofs.Number.Quotient
import Lox.Proofs.Number.SignedZero
import Lox.Proofs.Token.Lexeme

/-! Numerals, the number texts of a source. The text of a finite double is a numeral after its
sign, and the numeral is read as that double. -/
namespace Lox.Number

/-- Digits, and the digits after the point if there is one. -/
structure Numeral where
  whole : List Char
  fraction : List Char
  whole_ne_nil : whole ≠ []
  isDigit : ∀ c ∈ whole ++ fraction, c.isDigit = true

namespace Numeral

def text (n : Numeral) : List Char :=
  n.whole ++ if n.fraction = [] then [] else '.' :: n.fraction

/-- The number that is meant. -/
def value (n : Numeral) : ℚ :=
  Nat.ofDigitChars 10 (n.whole ++ n.fraction) 0 / 10 ^ n.fraction.length

/-- The number that is read. -/
def double (n : Numeral) : Float := Segment.numberValue n.whole n.fraction

theorem lexeme (n : Numeral) : Lexeme n.text (.token .number (.number n.double)) := by
  obtain ⟨whole, fraction, hwhole, hdigit⟩ := n
  obtain ⟨c, digits, rfl⟩ := List.exists_cons_of_ne_nil hwhole
  simp only [List.cons_append, List.forall_mem_cons, List.forall_mem_append] at hdigit
  obtain ⟨hc, hd, hf⟩ := hdigit
  cases fraction with
  | nil => simpa [text, double] using Lexeme.whole hc hd
  | cons d more =>
    rw [List.forall_mem_cons] at hf
    simpa [text, double] using Lexeme.fraction hc hd hf.1 hf.2

theorem isDigit_head {n : Numeral} {c : Char} {rest : List Char} (h : n.text = c :: rest) :
    c.isDigit = true := by
  obtain ⟨whole, fraction, hwhole, hdigit⟩ := n
  obtain ⟨d, digits, rfl⟩ := List.exists_cons_of_ne_nil hwhole
  obtain ⟨rfl, -⟩ := List.cons.inj h
  exact hdigit d (List.mem_append_left _ List.mem_cons_self)

/-- A numeral is a sequence of digits and points. -/
theorem mem_text {n : Numeral} {c : Char} (h : c ∈ n.text) : c.isDigit = true ∨ c = '.' := by
  obtain hc | hc := List.mem_append.1 h
  · exact .inl (n.isDigit c (List.mem_append_left _ hc))
  · split at hc
    · cases hc
    · obtain rfl | hc := List.mem_cons.1 hc
      · exact .inr rfl
      · exact .inl (n.isDigit c (List.mem_append_right _ hc))

/-- A numeral is read as the magnitude that it is nearest to. -/
theorem toModel_double {n : Numeral} {x : Magnitude} (hx : x.Canonical) (hpos : 0 < x.mantissa)
    (h : x.Nearest n.value) :
    n.double.toModel = .pack (.finite .positive x.mantissa x.scale hpos) :=
  ofScientific_nearest hx hpos h

end Numeral

/-! The numerals of naturals and decimals. -/

theorem isDigit_of_mem_text {d : Decimal} {c : Char} (h : c ∈ d.text) : c.isDigit = true :=
  Nat.isDigit_of_mem_toDigits (by decide) (by decide) h

theorem ofDigitChars_text (d : Decimal) : Nat.ofDigitChars 10 d.text 0 = d.digits :=
  Nat.ofDigitChars_ten_toDigits

theorem isDigit_of_mem_zeros {n : ℕ} {c : Char} (h : c ∈ List.replicate n '0') :
    c.isDigit = true := by
  rw [List.eq_of_mem_replicate h]
  rfl

namespace Numeral

/-- A natural number with zeros after the point. -/
def ofNat (n zeros : ℕ) : Numeral where
  whole := Nat.toDigits 10 n
  fraction := List.replicate zeros '0'
  whole_ne_nil := Nat.toDigits_ne_nil
  isDigit _ hc := (List.mem_append.1 hc).elim
    (Nat.isDigit_of_mem_toDigits (by decide) (by decide)) isDigit_of_mem_zeros

theorem value_ofNat (n zeros : ℕ) : (ofNat n zeros).value = n := by
  have hpow : (10 : ℚ) ^ zeros ≠ 0 := by positivity
  simp only [value, ofNat, Nat.ofDigitChars_append, Nat.ofDigitChars_ten_toDigits,
    Nat.ofDigitChars_replicate_zero, List.length_replicate, Nat.cast_mul, Nat.cast_pow,
    Nat.cast_ofNat]
  field_simp

/-- Digits with zeros behind them. -/
theorem exists_whole {d : Decimal} (h : 0 ≤ d.exponent) :
    ∃ n : Numeral, n.text = d.positional [] ∧ n.value = d.value := by
  refine ⟨⟨d.text ++ List.replicate d.exponent.toNat '0', [],
    List.append_ne_nil_of_left_ne_nil Nat.toDigits_ne_nil _, fun c hc => ?_⟩, ?_, ?_⟩
  · rw [List.append_nil] at hc
    exact (List.mem_append.1 hc).elim isDigit_of_mem_text isDigit_of_mem_zeros
  · rw [Decimal.positional, if_pos h]
    rfl
  · have hpower : (10 : ℚ) ^ d.exponent = 10 ^ d.exponent.toNat := by
      rw [← zpow_natCast, Int.toNat_of_nonneg h]
    simp only [value, List.append_nil, Nat.ofDigitChars_append, ofDigitChars_text,
      Nat.ofDigitChars_replicate_zero, List.length_nil, pow_zero, div_one, Decimal.value, hpower]
    push_cast
    ring

/-- The point among the digits. -/
theorem exists_inside {d : Decimal} {places : ℕ} (h : d.exponent = -places) (hpos : 0 < places)
    (hlt : places < d.text.length) :
    ∃ n : Numeral, n.text = d.positional [] ∧ n.value = d.value := by
  refine ⟨⟨d.text.take (d.text.length - places), d.text.drop (d.text.length - places),
    fun hnil => ?_, fun c hc => ?_⟩, ?_, ?_⟩
  · rw [List.take_eq_nil_iff] at hnil
    exact hnil.elim (by omega) Nat.toDigits_ne_nil
  · rw [List.take_append_drop] at hc
    exact isDigit_of_mem_text hc
  · have hfraction : d.text.drop (d.text.length - places) ≠ [] := by
      rw [ne_eq, List.drop_eq_nil_iff]
      omega
    have hneg : ¬ 0 ≤ d.exponent := by omega
    have hplaces : (-d.exponent).toNat = places := by omega
    simp only [Decimal.positional, hneg, if_false, hplaces, hlt, if_true, text, hfraction]
  · have hlength : (d.text.drop (d.text.length - places)).length = places := by
      rw [List.length_drop]
      omega
    simp only [value, List.take_append_drop, ofDigitChars_text, hlength, Decimal.value, h, zpow_neg,
      zpow_natCast, div_eq_mul_inv]

/-- The point and zeros in front of the digits. -/
theorem exists_outside {d : Decimal} {places : ℕ} (h : d.exponent = -places) (hpos : 0 < places)
    (hle : d.text.length ≤ places) :
    ∃ n : Numeral, n.text = d.positional [] ∧ n.value = d.value := by
  refine ⟨⟨['0'], List.replicate (places - d.text.length) '0' ++ d.text, List.cons_ne_nil _ _,
    fun c hc => ?_⟩, ?_, ?_⟩
  · rw [List.singleton_append, List.mem_cons] at hc
    obtain rfl | hc := hc
    · rfl
    · exact (List.mem_append.1 hc).elim isDigit_of_mem_zeros isDigit_of_mem_text
  · have hfraction : List.replicate (places - d.text.length) '0' ++ d.text ≠ [] :=
      List.append_ne_nil_of_right_ne_nil _ Nat.toDigits_ne_nil
    have hneg : ¬ 0 ≤ d.exponent := by omega
    have hplaces : (-d.exponent).toNat = places := by omega
    simp only [Decimal.positional, hneg, if_false, hplaces, hle.not_gt, text, hfraction]
    rfl
  · have hlength : (List.replicate (places - d.text.length) '0' ++ d.text).length = places := by
      rw [List.length_append, List.length_replicate]
      omega
    have hzero : Nat.ofDigitChars 10 ['0'] 0 = 0 := rfl
    simp only [value, Nat.ofDigitChars_append, hzero, Nat.ofDigitChars_replicate_zero, mul_zero,
      ofDigitChars_text, hlength, Decimal.value, h, zpow_neg, zpow_natCast, div_eq_mul_inv]

/-- A positional decimal is a numeral. -/
theorem exists_positional (d : Decimal) :
    ∃ n : Numeral, n.text = d.positional [] ∧ n.value = d.value := by
  by_cases hsign : 0 ≤ d.exponent
  · exact exists_whole hsign
  have hexponent : d.exponent = -((-d.exponent).toNat : ℤ) := by omega
  by_cases hlt : (-d.exponent).toNat < d.text.length
  · exact exists_inside hexponent (by omega) hlt
  · exact exists_outside hexponent (by omega) (not_lt.1 hlt)

end Numeral

/-! The layouts that write numerals. -/

/-- Always positional, and the tail of an exact integer is empty or one decimal place. -/
structure Layout.Readable (l : Layout) : Prop where
  scientific : l.scientific = none
  wholeTail : l.wholeTail = ""
  exactTail : l.exactTail = "" ∨ l.exactTail = ".0"
  covers_zero : l.exact.covers 0 = true

theorem readable_printed : printed.Readable := ⟨rfl, rfl, .inl rfl, rfl⟩

theorem readable_inTree : inTree.Readable := ⟨rfl, rfl, .inr rfl, rfl⟩

/-- The text of a number and what it is read as, after a minus sign or not. -/
def signedText (negative : Bool) (n : Numeral) : List Char :=
  (if negative then ['-'] else []) ++ n.text

def signedDouble (negative : Bool) (n : Numeral) : Float :=
  if negative then -n.double else n.double

section
variable {l : Layout}

/-- The exact integers. -/
theorem Layout.Readable.exists_exact (hl : l.Readable) (n : ℕ) :
    ∃ m : Numeral, m.text = Nat.toDigits 10 n ++ l.exactTail.toList ∧ m.value = n := by
  obtain htail | htail := hl.exactTail
  · exact ⟨.ofNat n 0, by rw [htail]; rfl, Numeral.value_ofNat n 0⟩
  · exact ⟨.ofNat n 1, by rw [htail]; rfl, Numeral.value_ofNat n 1⟩

/-- A magnitude that is not zero shows its sign, and a numeral nearest to it. -/
theorem Layout.Readable.exists_finite (hl : l.Readable) {x : Magnitude} (hpos : 0 < x.mantissa)
    (negative : Bool) :
    ∃ n : Numeral, l.finite negative x = signedText negative n ∧ x.Nearest n.value := by
  have hdecimal (d : Decimal) : l.decimal d = d.positional [] := by
    rw [Layout.decimal, hl.scientific, hl.wholeTail]
    rfl
  obtain ⟨short, hshort, hvalue⟩ := Numeral.exists_positional (x.shortest l.tie)
  have hnearest : x.Nearest short.value := hvalue ▸ Magnitude.nearest_shortest hpos l.tie
  rw [Layout.finite]
  split
  next n hwhole =>
    have hn := Magnitude.value_of_whole? hwhole
    split
    next =>
      obtain ⟨m, htext, hm⟩ := hl.exists_exact n
      have hsign : (negative && (n != 0 || l.signedZero)) = negative := by
        have hne : n ≠ 0 := by
          rintro rfl
          have hle := x.nearest_value.two_zpow_le hpos
          rw [hn, Nat.cast_zero] at hle
          exact (zpow_pos two_pos _).not_ge hle
        simp [hne]
      refine ⟨m, ?_, hm ▸ hn ▸ x.nearest_value⟩
      rw [hsign, signedText, htext, List.append_assoc]
      rfl
    next =>
      refine ⟨short, ?_, hnearest⟩
      rw [hdecimal, ← hshort]
      rfl
  next =>
    refine ⟨short, ?_, hnearest⟩
    rw [hdecimal, ← hshort]
    rfl

/-- Zero is exact, and shows its sign if the layout says so. -/
theorem Layout.Readable.exists_zero (hl : l.Readable) {x : Magnitude} (hzero : x.mantissa = 0)
    (negative : Bool) :
    ∃ n : Numeral, l.finite negative x = signedText (negative && l.signedZero) n ∧
      n.double = 0 := by
  have htext (m : Numeral) (h : m.text = '0' :: l.exactTail.toList) :
      l.finite negative x = signedText (negative && l.signedZero) m := by
    rw [Layout.finite, Magnitude.whole?_zero hzero]
    simp only [hl.covers_zero, if_true, signedText, h, Nat.toDigits_zero, List.append_assoc,
      List.cons_append, List.nil_append]
    rfl
  obtain htail | htail := hl.exactTail
  · exact ⟨.ofNat 0 0, htext _ (by rw [htail]; rfl), rfl⟩
  · exact ⟨.ofNat 0 1, htext _ (by rw [htail]; rfl), rfl⟩

/-! Reading back. -/

variable {f : Float}

/-- A sign and a numeral nearest to the magnitude are read as the double that has both. -/
theorem signedDouble_eq (hnan : f.isNaN = false) (hinf : f.isInf = false)
    (hpos : 0 < (Magnitude.ofFloat f).mantissa) {n : Numeral}
    (h : (Magnitude.ofFloat f).Nearest n.value) : signedDouble (isNegative f) n = f := by
  have hx := Magnitude.canonical_ofFloat hnan hinf
  have hmodel := Numeral.toModel_double hx hpos h
  have hf := unpack_finite hnan hinf hpos
  have hself := pack_unpack f
  rw [hf, signOf] at hself
  rw [signedDouble]
  split
  next hnegative =>
    have hneg : -n.double = .ofModel (.pack n.double.toModel.unpack.neg) := rfl
    rw [hneg, hmodel, unpack_pack hx, Float.Model.UnpackedFloat.neg]
    rw [if_pos hnegative] at hself
    exact hself
  next hpositive =>
    rw [if_neg hpositive, ← hmodel] at hself
    exact hself

/-- Both zeros, by their signs. -/
theorem eq_zero (hnan : f.isNaN = false) (hinf : f.isInf = false)
    (hzero : (Magnitude.ofFloat f).mantissa = 0) : f = if isNegative f then -0 else 0 := by
  have hself := pack_unpack f
  rw [unpack_zero hnan hinf hzero, signOf] at hself
  split
  next hnegative =>
    rw [if_pos hnegative] at hself
    exact hself.symm
  next hpositive =>
    rw [if_neg hpositive] at hself
    exact hself.symm

/-- The text of a finite double is a numeral after its sign, and they are read as that double. Only
zero may have lost its sign. -/
theorem Layout.Readable.read_write (hl : l.Readable) (hnan : f.isNaN = false)
    (hinf : f.isInf = false) :
    ∃ (negative : Bool) (n : Numeral), l.write f = String.ofList (signedText negative n) ∧
      (signedDouble negative n == f) = true ∧
      (l.signedZero = true → signedDouble negative n = f) := by
  have hwrite : l.write f = String.ofList (l.finite (isNegative f) (.ofFloat f)) := by
    simp only [Layout.write, hnan, hinf, Bool.false_eq_true, if_false]
  obtain hzero | hpos := Nat.eq_zero_or_pos (Magnitude.ofFloat f).mantissa
  · obtain ⟨n, htext, hn⟩ := hl.exists_zero hzero (isNegative f)
    have heq := eq_zero hnan hinf hzero
    refine ⟨_, n, hwrite.trans (congrArg _ htext), ?_, fun hsigned => ?_⟩
    · rw [signedDouble, hn]
      conv_lhs => rw [heq]
      split <;> split <;> decide
    · rw [signedDouble, hn, hsigned, Bool.and_true]
      exact heq.symm
  · obtain ⟨n, htext, hn⟩ := hl.exists_finite hpos (isNegative f)
    have heq := signedDouble_eq hnan hinf hpos hn
    refine ⟨_, n, hwrite.trans (congrArg _ htext), ?_, fun _ => heq⟩
    rw [heq, Float.beq_self_iff]
    rintro rfl
    exact absurd hnan (by decide)

end

end Lox.Number
