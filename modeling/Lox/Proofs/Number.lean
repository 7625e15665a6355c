import Mathlib.Algebra.Group.Nat.Defs
import Lox.Number
import Lox.Proofs.Decimal.Shortest

/-!
# Numbers and their texts

A numeral denotes a number or infinity, never something that is not a number
(`not_isNaN_ofDecimal`).  The key fact: finite numbers with the same text are equal
(`text_injective`), since the fraction that is written lies in the rounding interval of one binary
fraction only.
-/

namespace Lox

namespace Number

/-- The number is not a number. -/
def IsNaN (x : Float) : Prop :=
  exponentField x = 2047 ∧ fractionField x ≠ 0

def IsInfinite (x : Float) : Prop :=
  exponentField x = 2047 ∧ fractionField x = 0

def IsFinite (x : Float) : Prop :=
  exponentField x ≠ 2047

theorem isFinite_of_not {x : Float} (hn : ¬IsNaN x) (hi : ¬IsInfinite x) : IsFinite x := by
  intro he
  by_cases hf : fractionField x = 0
  · exact hi ⟨he, hf⟩
  · exact hn ⟨he, hf⟩

/-! ### Fields -/

theorem fractionField_lt (x : Float) : fractionField x < 2 ^ 52 :=
  Nat.mod_lt _ (by decide)

/-- A number is made up of its three fields. -/
theorem eq_of_fields {x y : Float} (hs : isNegative x = isNegative y)
    (he : exponentField x = exponentField y) (hf : fractionField x = fractionField y) : x = y := by
  have hbits : x.toBits.toNat = y.toBits.toNat := by
    have hx : x.toBits.toNat < 2 ^ 64 := x.toBits.toNat_lt
    have hy : y.toBits.toNat < 2 ^ 64 := y.toBits.toNat_lt
    simp only [isNegative, exponentField, fractionField, Nat.shiftRight_eq_div_pow,
      Nat.one_shiftLeft, decide_eq_decide] at hs he hf
    omega
  obtain ⟨⟨bits, _⟩⟩ := x
  obtain ⟨⟨bits', _⟩⟩ := y
  obtain rfl : bits = bits' := UInt64.toNat_inj.1 hbits
  rfl

/-! ### The text of a finite number -/

/-- The bits of the mantissa, with the leading one of all but the smallest numbers. -/
def mantissa (x : Float) : Nat :=
  if exponentField x = 0 then fractionField x else 2 ^ 52 + fractionField x

/-- The exponent, counted from the smallest. -/
def scale (x : Float) : Nat :=
  exponentField x - 1

theorem interval_eq (x : Float) : interval x = .ofNormalized (mantissa x) (scale x) := by
  unfold interval mantissa scale
  dsimp only
  split
  · next he =>
    rw [RoundingInterval.ofNormalized, he, decide_eq_false (Nat.lt_irrefl 0), Bool.and_false]
  · next he =>
    have hshift : (1 <<< 52 : Nat) = 2 ^ 52 := rfl
    have hone : decide (1 < exponentField x) = decide (0 < exponentField x - 1) := by
      rw [decide_eq_decide]
      omega
    have hzero : decide (fractionField x = 0) = decide (2 ^ 52 + fractionField x = 2 ^ 52) := by
      rw [decide_eq_decide]
      omega
    rw [RoundingInterval.ofNormalized, hshift, hone, hzero]

theorem normalized {x : Float} (h : ¬(exponentField x = 0 ∧ fractionField x = 0)) :
    RoundingInterval.Normalized (mantissa x) (scale x) := by
  have hf := fractionField_lt x
  unfold mantissa scale
  split <;> constructor <;> omega

theorem fields_eq {x y : Float} (hm : mantissa x = mantissa y) (hs : scale x = scale y) :
    exponentField x = exponentField y ∧ fractionField x = fractionField y := by
  have hx := fractionField_lt x
  have hy := fractionField_lt y
  unfold mantissa at hm
  unfold scale at hs
  split at hm <;> split at hm <;> omega

/-- The decimal fraction that is written for the absolute value of a finite number. -/
def magnitude (x : Float) : Decimal :=
  if exponentField x = 0 ∧ fractionField x = 0 then ⟨0, 0⟩ else (interval x).shortest

theorem unsignedText_eq {x : Float} (h : IsFinite x) : unsignedText x = (magnitude x).text := by
  unfold unsignedText magnitude
  split
  · next hzero => rw [if_pos (by simpa using hzero)]; decide
  · next hzero => rw [if_neg h, if_neg (by simpa using hzero)]

theorem magnitude_mem {x : Float} (h : ¬(exponentField x = 0 ∧ fractionField x = 0)) :
    (RoundingInterval.ofNormalized (mantissa x) (scale x)).Mem (magnitude x) := by
  rw [magnitude, if_neg h, interval_eq]
  exact RoundingInterval.shortest_ofNormalized_mem (normalized h).pos _

theorem units_magnitude_pos {x : Float} (h : ¬(exponentField x = 0 ∧ fractionField x = 0)) :
    0 < (magnitude x).units :=
  (magnitude_mem h).units_pos (RoundingInterval.lower_pos (normalized h).pos _)

theorem fields_eq_of_magnitude_eq {x y : Float} (h : magnitude x = magnitude y) :
    exponentField x = exponentField y ∧ fractionField x = fractionField y := by
  by_cases hx : exponentField x = 0 ∧ fractionField x = 0
  · by_cases hy : exponentField y = 0 ∧ fractionField y = 0
    · exact ⟨hx.1.trans hy.1.symm, hx.2.trans hy.2.symm⟩
    · have hpos := units_magnitude_pos hy
      rw [← h, magnitude, if_pos hx] at hpos
      exact absurd hpos (Nat.lt_irrefl 0)
  · by_cases hy : exponentField y = 0 ∧ fractionField y = 0
    · have hpos := units_magnitude_pos hx
      rw [h, magnitude, if_pos hy] at hpos
      exact absurd hpos (Nat.lt_irrefl 0)
    · obtain ⟨hm, hs⟩ := RoundingInterval.ofNormalized_inj (normalized hx) (normalized hy)
        (magnitude_mem hx) (h ▸ magnitude_mem hy)
      exact fields_eq hm hs

theorem text_eq {x : Float} (h : IsFinite x) :
    (text x).toList = (if isNegative x then ['-'] else []) ++ (magnitude x).digits := by
  have hnan : ¬(exponentField x = 2047 && fractionField x ≠ 0) = true := by
    rw [Bool.and_eq_true, decide_eq_true_iff]
    exact fun hnan => h hnan.1
  rw [text, if_neg hnan, unsignedText_eq h, Decimal.text]
  split <;> simp

/-- Finite numbers with the same text are equal. -/
theorem text_injective {x y : Float} (hx : IsFinite x) (hy : IsFinite y)
    (h : text x = text y) : x = y := by
  have htext := congrArg String.toList h
  rw [text_eq hx, text_eq hy] at htext
  obtain ⟨c, cs, hc, hcd⟩ := (magnitude x).exists_digits_eq_cons
  obtain ⟨d, ds, hd, hdd⟩ := (magnitude y).exists_digits_eq_cons
  have hdash : ∀ e : Char, e.isDigit = true → e ≠ '-' := by
    rintro e he rfl
    exact absurd he (by decide)
  -- a digit is no sign, so both have one or none has
  have hs : isNegative x = isNegative y ∧ (magnitude x).digits = (magnitude y).digits := by
    rw [hc, hd] at htext ⊢
    cases hnx : isNegative x <;> cases hny : isNegative y <;> simp [hnx, hny] at htext ⊢
    · exact htext
    · exact hdash c hcd htext.1
    · exact hdash d hdd htext.1.symm
    · exact htext
  obtain ⟨he, hf⟩ := fields_eq_of_magnitude_eq (Decimal.digits_injective hs.2)
  exact eq_of_fields hs.1 he hf

/-- A number is written with digits, a point and a sign. -/
theorem of_mem_text {x : Float} (h : IsFinite x) {c : Char} (hc : c ∈ (text x).toList) :
    c.isDigit = true ∨ c = '.' ∨ c = '-' := by
  rw [text_eq h] at hc
  rcases List.mem_append.1 hc with hc | hc
  · split at hc
    · exact .inr (.inr (List.mem_singleton.1 hc))
    · cases hc
  · rcases Decimal.isDigit_or_eq_point hc with hc | hc
    · exact .inl hc
    · exact .inr (.inl hc)

/-! ### What a numeral denotes -/

open Float.Model (Format UnpackedFloat)
open Float.Model.UnpackedFloat (unpackExponent unpackMantissa packedInfinity packedZero)

theorem unpackMantissa_pack {spec : Format} {u : UnpackedFloat} (h : u ≠ .notANumber)
    (he : unpackExponent (UnpackedFloat.pack spec u) = -1#_) :
    unpackMantissa (UnpackedFloat.pack spec u) = 0#_ := by
  revert he
  fun_cases UnpackedFloat.pack with
  | case1 => exact absurd rfl h
  | case2 | case4 => simp [packedInfinity]
  | case3 => simp [packedZero]
  | case5 s m e hm bits exponent h₁ h₂ =>
    -- the exponent of what is not too large is not all ones
    rw [UnpackedFloat.unpackExponent_packComponents, BitVec.neg_one_eq_allOnes, ← BitVec.toNat_inj,
      BitVec.toNat_ofNat, BitVec.toNat_allOnes, Nat.mod_eq_of_lt (by omega)]
    omega
  | case6 =>
    have hpos := spec.he
    simp [Nat.pos_iff_ne_zero.1 hpos]

theorem unpack_pack_ne_notANumber {spec : Format} {u : UnpackedFloat} (h : u ≠ .notANumber) :
    UnpackedFloat.unpack spec (UnpackedFloat.pack spec u) ≠ .notANumber := by
  unfold UnpackedFloat.unpack
  by_cases he : unpackExponent (UnpackedFloat.pack spec u) = -1#_
  · rw [if_pos he, if_pos (unpackMantissa_pack h he)]
    exact UnpackedFloat.noConfusion
  · rw [if_neg he]
    by_cases hz : unpackExponent (UnpackedFloat.pack spec u) = 0#_
    · rw [if_pos hz]
      by_cases hm : unpackMantissa (UnpackedFloat.pack spec u) = 0#_
      · rw [dif_pos hm]
        exact UnpackedFloat.noConfusion
      · rw [dif_neg hm]
        exact UnpackedFloat.noConfusion
    · rw [if_neg hz]
      exact UnpackedFloat.noConfusion

theorem exponentField_eq (x : Float) :
    exponentField x = (@unpackExponent .binary64 x.toBits.toBitVec).toNat := by
  simp [unpackExponent, exponentField]

theorem fractionField_eq (x : Float) :
    fractionField x = (@unpackMantissa .binary64 x.toBits.toBitVec).toNat := by
  simp [unpackMantissa, fractionField]

theorem not_isNaN_pack {u : UnpackedFloat} (h : u ≠ .notANumber) :
    ¬IsNaN (.ofModel (.pack u)) := by
  rintro ⟨he, hf⟩
  rw [exponentField_eq] at he
  rw [fractionField_eq] at hf
  have hbits : (Float.ofModel (.pack u)).toBits.toBitVec = UnpackedFloat.pack .binary64 u := rfl
  rw [hbits] at he hf
  refine hf ?_
  rw [unpackMantissa_pack h (BitVec.eq_of_toNat_eq (by rw [he]; rfl))]
  rfl

/-- What is rounded is zero or has a mantissa. -/
theorem round_ne_notANumber (spec : Format) (sign : UnpackedFloat.Sign) (m : Nat) (e : Int)
    (a : UnpackedFloat.Accuracy) :
    UnpackedFloat.roundWithAccuracy spec sign m e a ≠ .notANumber := by
  have key (m : Nat) (e : Int) : (if h : m = 0 then UnpackedFloat.zero sign
      else .finite sign m e (Nat.pos_of_ne_zero h)) ≠ .notANumber := by
    by_cases h : m = 0
    · rw [dif_pos h]
      exact UnpackedFloat.noConfusion
    · rw [dif_neg h]
      exact UnpackedFloat.noConfusion
  exact key _ _

theorem ite_ne_notANumber {p : Prop} [Decidable p] {u v : UnpackedFloat}
    (hu : u ≠ .notANumber) (hv : v ≠ .notANumber) : (if p then u else v) ≠ .notANumber := by
  split
  · exact hu
  · exact hv

theorem ofScientific_ne_notANumber (spec : Format) (m : Nat) (e : Int) :
    UnpackedFloat.ofScientific spec m e ≠ .notANumber := by
  unfold UnpackedFloat.ofScientific
  by_cases hm : m = 0
  · rw [dif_pos hm]
    exact UnpackedFloat.noConfusion
  · rw [dif_neg hm]
    have hlarge (s : UnpackedFloat.Sign) : UnpackedFloat.infinity s ≠ .notANumber :=
      UnpackedFloat.noConfusion
    have hsmall (s : UnpackedFloat.Sign) : UnpackedFloat.zero s ≠ .notANumber :=
      UnpackedFloat.noConfusion
    exact ite_ne_notANumber (hlarge _) (ite_ne_notANumber (hsmall _)
      (ite_ne_notANumber (round_ne_notANumber _ _ _ _ _) (round_ne_notANumber _ _ _ _ _)))

theorem ofNat_ne_notANumber (spec : Format) (n : Nat) :
    UnpackedFloat.ofNat spec n ≠ .notANumber := by
  unfold UnpackedFloat.ofNat UnpackedFloat.ofInt UnpackedFloat.normalize
  split
  · exact round_ne_notANumber _ _ _ _ _
  · exact UnpackedFloat.noConfusion
  · exact round_ne_notANumber _ _ _ _ _

/-- The number is neither zero nor infinite, and it is a number. -/
def isProper : UnpackedFloat → Bool
  | .finite .. => true
  | _ => false

theorem div_ne_notANumber {spec : Format} {u v : UnpackedFloat} (hu : u ≠ .notANumber)
    (hv : isProper v = true) : UnpackedFloat.div spec u v ≠ .notANumber := by
  cases v with
  | finite =>
    cases u with
    | notANumber => exact absurd rfl hu
    | finite => exact round_ne_notANumber _ _ _ _ _
    | infinity | zero => exact UnpackedFloat.noConfusion
  | _ => cases hv

theorem isProper_powersOfTen :
    ∀ x ∈ Float.exactlyRepresentablePowersOfTen, isProper x.toModel.unpack = true := by
  decide +kernel

/-- A numeral denotes a number, or infinity if it is too large. -/
theorem not_isNaN_ofDecimal (d : Decimal) : ¬IsNaN (ofDecimal d) := by
  unfold ofDecimal Float.ofScientific
  split
  · -- the units and the power of ten are numbers, and the division rounds once
    exact not_isNaN_pack (div_ne_notANumber
      (unpack_pack_ne_notANumber (ofNat_ne_notANumber _ _))
      (isProper_powersOfTen _ (Array.getElem_mem _)))
  · exact not_isNaN_pack (ofScientific_ne_notANumber _ _ _)

end Number

end Lox
