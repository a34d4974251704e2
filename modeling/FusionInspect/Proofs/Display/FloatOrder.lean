import FusionInspect.Display.Placement
import Mathlib.Algebra.Group.Nat.Defs
import Mathlib.Logic.Basic

/-!
# The total order of floating-point numbers

The key that numbers are ordered by tells any two of them apart. It ascends with the numbers, has the
negative zero before the zero, and has what is no number last (`floatOrder_lt_iff`).

A number is a sign and a magnitude, which are the first bit and the others. The magnitude of a finite
number is its exponent followed by its mantissa, so magnitudes compare as the numbers do
(`Magnitude`).
-/

namespace FusionInspect

open Float.Model (Format UnpackedFloat)
open Float.Model.UnpackedFloat

/-- The first number comes before the second in the total order: it is less, or they are the two
zeros, or only the second is no number. -/
def NumberLT (x y : Float) : Prop :=
  x < y ∨ (x = -0.0 ∧ y = 0.0) ∨ (x.isNaN = false ∧ y.isNaN = true)

/-! ## The parts of a number -/

/-- The mantissa is the last 52 bits. -/
theorem toNat_unpackMantissa (b : BitVec Format.binary64.numBits) :
    (unpackMantissa b).toNat = b.toNat % 2 ^ 52 := by
  unfold unpackMantissa
  simp [BitVec.extractLsb_toNat]

/-- The exponent is the eleven bits before them. -/
theorem toNat_unpackExponent (b : BitVec Format.binary64.numBits) :
    (unpackExponent b).toNat = b.toNat / 2 ^ 52 % 2 ^ 11 := by
  unfold unpackExponent
  simp [BitVec.extractLsb_toNat, Nat.shiftRight_eq_div_pow]

/-- The sign is the first bit. -/
theorem sign_unpackSign (b : BitVec Format.binary64.numBits) :
    Sign.ofBitVec (unpackSign b) = if b.toNat < 2 ^ 63 then .positive else .negative := by
  have hlt : b.toNat < 2 ^ 64 := b.isLt
  have hbit : (unpackSign b).toNat = b.toNat / 2 ^ 63 % 2 := by
    unfold unpackSign
    simp [BitVec.extractLsb_toNat, Nat.shiftRight_eq_div_pow]
  have hzero : unpackSign b = 0#1 ↔ b.toNat < 2 ^ 63 := by
    rw [← BitVec.toNat_inj, hbit, BitVec.toNat_zero]
    omega
  exact if_congr hzero rfl rfl

/-- The bits of a number behind its sign, by what they say: a zero; an exponent and a mantissa; an
infinity; or, without a sign, no number. The exponent of zero counts as one and adds nothing to the
mantissa. -/
inductive Magnitude : Sign → Nat → UnpackedFloat → Prop
  | zero {s : Sign} : Magnitude s 0 (.zero s)
  | finite {s : Sign} {e m n mantissa : Nat} {exponent : Int} {hpos : 0 < mantissa}
      (hn : n = e * 2 ^ 52 + m) (he : e < 2 ^ 11 - 1) (hm : m < 2 ^ 52)
      (hread : e = 0 ∧ mantissa = m ∧ exponent = 1 - 1075 ∨
        0 < e ∧ mantissa = 2 ^ 52 + m ∧ exponent = e - 1075) :
      Magnitude s n (.finite s mantissa exponent hpos)
  | infinity {s : Sign} : Magnitude s ((2 ^ 11 - 1) * 2 ^ 52) (.infinity s)
  | notANumber : Magnitude .positive ((2 ^ 11 - 1) * 2 ^ 52 + 2 ^ 51) .notANumber

/-- The key of a sign and a magnitude. -/
def signedKey : Sign → Nat → Int
  | .positive, n => n
  | .negative, n => -n - 1

/-- The leading bit of a mantissa is not stored, and adds what it stands for. -/
theorem toNat_implicit (m : BitVec 52) : (1#1 ++ m).toNat = 2 ^ 52 + m.toNat := by
  rw [BitVec.toNat_append, ← Nat.shiftLeft_add_eq_or_of_lt m.isLt]
  rfl

/-- Unpacking reads the bits behind the sign as what they say. Valid bits of no number are always the same
ones. -/
theorem magnitude_unpack {b : BitVec Format.binary64.numBits} (hb : Format.binary64.Valid b) :
    Magnitude (.ofBitVec (unpackSign b)) (b.toNat % 2 ^ 63) (unpack Format.binary64 b) := by
  have hmantissa := toNat_unpackMantissa b
  have hexponent := toNat_unpackExponent b
  have hlt : b.toNat < 2 ^ 64 := b.isLt
  have hbias : Format.binary64.exponentBias = 1023 := rfl
  have hbits : Format.binary64.mantissaBitsWithoutImplicit = 52 := rfl
  unfold unpack
  dsimp only
  by_cases hall : unpackExponent b = -BitVec.ofNat _ 1
  · have hall' : (unpackExponent b).toNat = 2 ^ 11 - 1 := by rw [hall]; rfl
    rw [if_pos hall]
    by_cases hzero : unpackMantissa b = BitVec.ofNat _ 0
    · have hzero' : (unpackMantissa b).toNat = 0 := by rw [hzero]; rfl
      have hn : b.toNat % 2 ^ 63 = (2 ^ 11 - 1) * 2 ^ 52 := by omega
      rw [if_pos hzero, hn]
      exact .infinity
    · rw [if_neg hzero, hb.eq_packedNaN hall hzero]
      exact .notANumber
  · have hall' : (unpackExponent b).toNat ≠ 2 ^ 11 - 1 := fun h => hall (BitVec.eq_of_toNat_eq h)
    rw [if_neg hall]
    by_cases hnone : unpackExponent b = BitVec.ofNat _ 0
    · have hnone' : (unpackExponent b).toNat = 0 := by rw [hnone]; rfl
      rw [if_pos hnone]
      by_cases hzero : unpackMantissa b = BitVec.ofNat _ 0
      · have hzero' : (unpackMantissa b).toNat = 0 := by rw [hzero]; rfl
        have hn : b.toNat % 2 ^ 63 = 0 := by omega
        rw [dif_pos hzero, hn]
        exact .zero
      · rw [dif_neg hzero]
        exact .finite (m := (unpackMantissa b).toNat) (by omega) (by omega) (by omega)
          (.inl ⟨hnone', rfl, by omega⟩)
    · have hnone' : (unpackExponent b).toNat ≠ 0 := fun h => hnone (BitVec.eq_of_toNat_eq h)
      rw [if_neg hnone]
      exact .finite (m := (unpackMantissa b).toNat) (by omega) (by omega) (by omega)
        (.inr ⟨Nat.pos_of_ne_zero hnone', toNat_implicit _, by omega⟩)

/-- Every number is a sign and a magnitude, and its key is made of these. -/
theorem exists_magnitude (x : Float) :
    ∃ s n, Magnitude s n x.toModel.unpack ∧ floatOrder x = signedKey s n := by
  refine ⟨_, _, magnitude_unpack x.toModel.valid, ?_⟩
  have hlt : x.toBits.toNat < 2 ^ 64 := x.toBits.toNat_lt
  have hbit : (1 : Nat) <<< 63 = 2 ^ 63 := rfl
  rw [sign_unpackSign]
  change floatOrder x = signedKey (if x.toBits.toNat < 2 ^ 63 then _ else _) (x.toBits.toNat % 2 ^ 63)
  simp only [floatOrder, hbit]
  split
  · rw [signedKey]
    omega
  · rw [signedKey]
    omega

/-! ## Comparing numbers -/

section

variable {s t : Sign} {m n : Nat} {u v : UnpackedFloat}

theorem lt_iff_of_compare {o : Ordering} (h : u.compare v = some o) : u.lt v = true ↔ o = .lt := by
  unfold UnpackedFloat.lt
  rw [h, beq_iff_eq, Option.some.injEq]

/-- The magnitude of a finite number lies between those of zero and of infinity. -/
theorem Magnitude.of_finite {k : Nat} {e : Int} {hk : 0 < k} (h : Magnitude s n (.finite t k e hk)) :
    s = t ∧ 0 < n ∧ n < (2 ^ 11 - 1) * 2 ^ 52 := by
  cases h with
  | finite hn he hm hread => exact ⟨rfl, by omega, by omega⟩

/-- No magnitude is greater than that of no number. -/
theorem Magnitude.le (h : Magnitude s n u) : n ≤ (2 ^ 11 - 1) * 2 ^ 52 + 2 ^ 51 := by
  cases h with
  | finite hn he hm => omega
  | _ => decide

/-- Only what is no number has that magnitude. -/
theorem Magnitude.isNaN_iff (h : Magnitude s n u) :
    u.isNaN = true ↔ s = .positive ∧ n = (2 ^ 11 - 1) * 2 ^ 52 + 2 ^ 51 := by
  cases h with
  | notANumber => exact iff_of_true rfl ⟨rfl, rfl⟩
  | _ => exact iff_of_false Bool.false_ne_true (by omega)

section

variable {k l : Nat} {e f : Int} {hk : 0 < k} {hl : 0 < l}
  (hu : Magnitude s m (.finite s k e hk)) (hv : Magnitude t n (.finite t l f hl))

include hu hv

/-- Finite magnitudes compare by their exponents first. -/
theorem Magnitude.then_eq_lt : (compare e f).then (compare k l) = .lt ↔ m < n := by
  rw [Ordering.then_eq_lt, Int.compare_eq_lt, Int.compare_eq_eq, Nat.compare_eq_lt]
  cases hu with
  | finite hm he hlow hread =>
    cases hv with
    | finite hn hf hlow' hread' => omega

/-- Finite numbers compare as their signed magnitudes do. -/
theorem Magnitude.finite_lt_finite :
    (UnpackedFloat.finite s k e hk).lt (.finite t l f hl) = true ↔ s.apply m < t.apply n := by
  have hm := hu.of_finite
  have hn := hv.of_finite
  cases s with
  | negative =>
    cases t with
    | negative =>
      -- of two negative numbers the one with the greater magnitude is less
      rw [lt_iff_of_compare rfl, Ordering.swap_then, Int.compare_swap, Nat.compare_swap,
        hv.then_eq_lt hu, Sign.apply, Sign.apply]
      omega
    | positive =>
      rw [lt_iff_of_compare rfl, Sign.apply, Sign.apply]
      exact iff_of_true rfl (by omega)
  | positive =>
    cases t with
    | negative =>
      rw [lt_iff_of_compare rfl, Sign.apply, Sign.apply]
      exact iff_of_false Ordering.noConfusion (by omega)
    | positive =>
      rw [lt_iff_of_compare rfl, hu.then_eq_lt hv, Sign.apply, Sign.apply]
      omega

end

/-- Numbers compare as their signed magnitudes do. -/
theorem Magnitude.lt_iff (hu : Magnitude s m u) (hv : Magnitude t n v) (hu' : u.isNaN = false)
    (hv' : v.isNaN = false) : u.lt v = true ↔ s.apply m < t.apply n := by
  -- a zero has the least magnitude, an infinity the greatest
  cases u with
  | notANumber => cases hu'
  | finite s' k e hk =>
    obtain ⟨rfl, hm⟩ := hu.of_finite
    cases v with
    | notANumber => cases hv'
    | finite t' l f hl =>
      obtain ⟨rfl, _⟩ := hv.of_finite
      exact hu.finite_lt_finite hv
    | _ =>
      cases hv
      cases s <;> cases t <;> rw [lt_iff_of_compare rfl] <;> simp [Sign.apply] <;> omega
  | _ =>
    cases hu
    cases v with
    | notANumber => cases hv'
    | finite t' l f hl =>
      obtain ⟨rfl, hn⟩ := hv.of_finite
      cases s <;> cases t <;> rw [lt_iff_of_compare rfl] <;> simp [Sign.apply] <;> omega
    | _ =>
      cases hv
      cases s <;> cases t <;> decide

/-- Keys compare as signed magnitudes do, but for the two zeros, which have one magnitude. -/
theorem signedKey_lt_of_apply : signedKey s m < signedKey t n ↔
    s.apply m < t.apply n ∨ (signedKey s m = -1 ∧ signedKey t n = 0) := by
  cases s <;> cases t <;> simp only [signedKey, Sign.apply] <;> omega

/-- Keys compare as the numbers do, with the zeros told apart and no number last. -/
theorem Magnitude.signedKey_lt_iff (hu : Magnitude s m u) (hv : Magnitude t n v) :
    signedKey s m < signedKey t n ↔ u.lt v = true ∨ (signedKey s m = -1 ∧ signedKey t n = 0) ∨
      (u.isNaN = false ∧ v.isNaN = true) := by
  cases hu' : u.isNaN with
  | true =>
    -- no key is greater than that of no number
    have hle := hv.le
    obtain ⟨rfl, rfl⟩ := hu.isNaN_iff.mp hu'
    have hlt : u.lt v = false := by
      cases u with
      | notANumber => rfl
      | _ => cases hu'
    simp only [hlt, Bool.true_eq_false, Bool.false_eq_true, false_and, false_or, or_false]
    cases t <;> simp only [signedKey] <;> omega
  | false =>
    cases hv' : v.isNaN with
    | true =>
      have hle := hu.le
      have hne := mt hu.isNaN_iff.mpr (Bool.eq_false_iff.mp hu')
      obtain ⟨rfl, rfl⟩ := hv.isNaN_iff.mp hv'
      simp only [true_and, or_true, iff_true]
      cases s with
      | negative => simp only [signedKey]; omega
      | positive =>
        have hlt := Nat.lt_of_le_of_ne hle fun h => hne ⟨rfl, h⟩
        simp only [signedKey]
        omega
    | false =>
      rw [signedKey_lt_of_apply, hu.lt_iff hv hu' hv']
      simp

end

/-! ## Keys of numbers -/

/-- A number is its bits. -/
theorem toBits_injective : Function.Injective Float.toBits := by
  rintro ⟨x, hx⟩ ⟨y, hy⟩ h
  obtain rfl : x = y := h
  rfl

/-- Numbers with the same key are the same. -/
theorem floatOrder_injective : Function.Injective floatOrder := by
  intro x y h
  have hx : x.toBits.toNat < 2 ^ 64 := x.toBits.toNat_lt
  have hy : y.toBits.toNat < 2 ^ 64 := y.toBits.toNat_lt
  have hbit : (1 : Nat) <<< 63 = 2 ^ 63 := rfl
  simp only [floatOrder, hbit] at h
  have hbits : x.toBits.toNat = y.toBits.toNat := by
    split at h <;> split at h <;> omega
  exact toBits_injective (UInt64.toNat_inj.mp hbits)

/-- The keys of numbers ascend in the total order. -/
theorem floatOrder_lt_iff (x y : Float) : floatOrder x < floatOrder y ↔ NumberLT x y := by
  obtain ⟨s, m, hu, hx⟩ := exists_magnitude x
  obtain ⟨t, n, hv, hy⟩ := exists_magnitude y
  have hneg : x = -0.0 ↔ floatOrder x = -1 :=
    ⟨fun h => h ▸ by decide, fun h => floatOrder_injective (h.trans (by decide))⟩
  have hzero : y = 0.0 ↔ floatOrder y = 0 :=
    ⟨fun h => h ▸ by decide, fun h => floatOrder_injective (h.trans (by decide))⟩
  have hlt : x < y ↔ x.toModel.unpack.lt y.toModel.unpack = true := decide_eq_true_iff
  rw [NumberLT, hneg, hzero, hlt, hx, hy]
  exact hu.signedKey_lt_iff hv

end FusionInspect
