import Mathlib
import BranchBound.Binary64

/-!
# Bit fields

The fields that `Binary64.decode` reads are those of the unpacked form in which the
machine's operations are specified.  A float that is packed and read again is the one
it was, except that an exponent that is too large makes it an infinity.
-/

namespace BranchBound.Binary64

open Float.Model

theorem pow2_eq (k : Nat) : pow2 k = 2 ^ k :=
  rfl

/-- What a sign, a biased exponent and a fraction stand for. -/
def assemble (negative : Bool) (biased fraction : Nat) : Binary64 :=
  if biased = 2047 then
    if fraction = 0 then infinite negative else nan
  else if biased = 0 then
    finite negative fraction minExponent
  else
    finite negative (pow2 52 + fraction) ((biased : Int) - 1075)

theorem decode_eq_assemble (x : Float) :
    decode x = assemble (decide (pow2 63 ≤ x.toBits.toNat))
      (x.toBits.toNat / pow2 52 % pow2 11) (x.toBits.toNat % pow2 52) :=
  rfl

/-- Whether a sign is the negative one. -/
def isNegative : UnpackedFloat.Sign → Bool
  | .negative => true
  | .positive => false

/-- What an unpacked float stands for. -/
def ofUnpacked : UnpackedFloat → Binary64
  | .notANumber => nan
  | .infinity s => infinite (isNegative s)
  | .zero s => finite (isNegative s) 0 minExponent
  | .finite s m e _ => finite (isNegative s) m e

theorem ofUnpacked_unpack (b : BitVec Format.binary64.numBits) :
    ofUnpacked (UnpackedFloat.unpack Format.binary64 b) =
      assemble (isNegative (.ofBitVec (UnpackedFloat.unpackSign b)))
        (UnpackedFloat.unpackExponent b).toNat (UnpackedFloat.unpackMantissa b).toNat := by
  have hall : UnpackedFloat.unpackExponent b = -1#_ ↔
      (UnpackedFloat.unpackExponent b).toNat = 2047 := by
    rw [← BitVec.toNat_inj]
    rfl
  have hnone : UnpackedFloat.unpackExponent b = 0#_ ↔
      (UnpackedFloat.unpackExponent b).toNat = 0 := by
    rw [← BitVec.toNat_inj]
    rfl
  have hzero : UnpackedFloat.unpackMantissa b = 0#_ ↔
      (UnpackedFloat.unpackMantissa b).toNat = 0 := by
    rw [← BitVec.toNat_inj]
    rfl
  have hlt : (UnpackedFloat.unpackMantissa b).toNat < 2 ^ 52 :=
    (UnpackedFloat.unpackMantissa b).isLt
  unfold UnpackedFloat.unpack assemble
  simp only [hall, hnone, hzero]
  split
  · split <;> rfl
  · split
    next hbiased =>
      split
      next hm => rw [ofUnpacked, hm]
      next hm =>
        rw [ofUnpacked, hbiased]
        rfl
    next hbiased =>
      rw [ofUnpacked, BitVec.toNat_append, ← Nat.shiftLeft_add_eq_or_of_lt hlt]
      rfl

theorem toNat_unpackMantissa (b : BitVec Format.binary64.numBits) :
    (UnpackedFloat.unpackMantissa b).toNat = b.toNat % pow2 52 := by
  simp [UnpackedFloat.unpackMantissa, pow2]

theorem toNat_unpackExponent (b : BitVec Format.binary64.numBits) :
    (UnpackedFloat.unpackExponent b).toNat = b.toNat / pow2 52 % pow2 11 := by
  simp [UnpackedFloat.unpackExponent, pow2, Nat.shiftRight_eq_div_pow]

theorem isNegative_unpackSign (b : BitVec Format.binary64.numBits) :
    isNegative (.ofBitVec (UnpackedFloat.unpackSign b)) = decide (pow2 63 ≤ b.toNat) := by
  have hlt : b.toNat < 2 ^ 64 := b.isLt
  have hsign : (UnpackedFloat.unpackSign b).toNat = b.toNat / 2 ^ 63 := by
    simp [UnpackedFloat.unpackSign, Nat.shiftRight_eq_div_pow]
    omega
  have hzero : UnpackedFloat.unpackSign b = 0#1 ↔ ¬pow2 63 ≤ b.toNat := by
    rw [← BitVec.toNat_inj, hsign, pow2_eq, show (0#1).toNat = 0 from rfl]
    omega
  unfold UnpackedFloat.Sign.ofBitVec
  by_cases h : pow2 63 ≤ b.toNat
  · rw [if_neg fun hb => hzero.mp hb h, decide_eq_true h]
    rfl
  · rw [if_pos (hzero.mpr h), decide_eq_false h]
    rfl

/-- The fields of a float are those of its unpacked form. -/
theorem decode_eq (x : Float) : decode x = ofUnpacked x.toModel.unpack := by
  rw [Float.Model.unpack, ofUnpacked_unpack, toNat_unpackMantissa, toNat_unpackExponent,
    isNegative_unpackSign]
  rfl

theorem unpackSign_packComponents (s : UnpackedFloat.Sign) (e : BitVec 11) (m : BitVec 52) :
    UnpackedFloat.unpackSign (UnpackedFloat.packComponents Format.binary64 s e m) =
      s.toBitVec := by
  ext i hi
  obtain rfl : i = 0 := by omega
  have hbit : (s.toBitVec ++ e ++ m).getLsbD 63 = s.toBitVec.getLsbD 0 := by
    rw [BitVec.getLsbD_append, if_neg (by decide), BitVec.getLsbD_append, if_neg (by decide)]
  simp only [UnpackedFloat.unpackSign, UnpackedFloat.packComponents, Nat.reduceAdd,
    Nat.reduceSub, BitVec.cast_eq, BitVec.getElem_extract, Nat.add_zero]
  exact hbit

theorem ofUnpacked_unpack_packComponents (s : UnpackedFloat.Sign) (e : BitVec 11)
    (m : BitVec 52) :
    ofUnpacked (UnpackedFloat.unpack Format.binary64
      (UnpackedFloat.packComponents Format.binary64 s e m)) =
    assemble (isNegative s) e.toNat m.toNat := by
  rw [ofUnpacked_unpack, UnpackedFloat.unpackMantissa_packComponents,
    UnpackedFloat.unpackExponent_packComponents, unpackSign_packComponents]
  cases s <;> rfl

/-! ## Canonical forms -/

/-- A significand and an exponent in the form in which a float is stored, the largest
exponent apart. -/
structure IsCanonical (m : Nat) (e : Int) : Prop where
  lt : m < 2 ^ 53
  le : -1074 ≤ e
  normal : 2 ^ 52 ≤ m ∨ e = -1074

/-- An unpacked float in canonical form. -/
def IsRounded : UnpackedFloat → Prop
  | .finite _ m e _ => IsCanonical m e
  | _ => True

/-- An unpacked float with an exponent that is too large replaced by an infinity. -/
def clip : UnpackedFloat → UnpackedFloat
  | .finite s m e hm => if 971 < e then .infinity s else .finite s m e hm
  | u => u

theorem isCanonical_of_assemble {negative negative' : Bool} {biased fraction m : Nat} {e : Int}
    (hbiased : biased < 2 ^ 11) (hfraction : fraction < 2 ^ 52)
    (h : assemble negative biased fraction = finite negative' m e) :
    IsCanonical m e ∧ e ≤ 971 := by
  unfold assemble minExponent at h
  split at h
  · split at h <;> cases h
  · split at h
    · cases h
      exact ⟨⟨by omega, by omega, by omega⟩, by omega⟩
    · cases h
      rw [pow2_eq]
      exact ⟨⟨by omega, by omega, by omega⟩, by omega⟩

theorem isCanonical_decode {x : Float} {negative : Bool} {m : ℕ} {e : ℤ}
    (h : decode x = finite negative m e) : IsCanonical m e ∧ e ≤ 971 := by
  rw [decode_eq_assemble] at h
  exact isCanonical_of_assemble (Nat.mod_lt _ (Nat.two_pow_pos 11))
    (Nat.mod_lt _ (Nat.two_pow_pos 52)) h

theorem isRounded_unpack (b : BitVec Format.binary64.numBits) :
    IsRounded (UnpackedFloat.unpack Format.binary64 b) ∧
      clip (UnpackedFloat.unpack Format.binary64 b) =
        UnpackedFloat.unpack Format.binary64 b := by
  have hfields := ofUnpacked_unpack b
  generalize UnpackedFloat.unpack Format.binary64 b = u at hfields
  cases u with
  | notANumber => exact ⟨trivial, rfl⟩
  | infinity s => exact ⟨trivial, rfl⟩
  | zero s => exact ⟨trivial, rfl⟩
  | finite s m e hm =>
      obtain ⟨hcanonical, hle⟩ := isCanonical_of_assemble
        (UnpackedFloat.unpackExponent b).isLt (UnpackedFloat.unpackMantissa b).isLt
        hfields.symm
      exact ⟨hcanonical, if_neg (by omega)⟩

theorem log2_eq_of_normal {m : Nat} (hlow : 2 ^ 52 ≤ m) (hhigh : m < 2 ^ 53) : m.log2 = 52 := by
  rw [Nat.log2_eq_iff (by omega)]
  exact ⟨hlow, hhigh⟩

/-- Packing and unpacking gives back a canonical float, or an infinity. -/
theorem ofUnpacked_unpack_pack {u : UnpackedFloat} (hu : IsRounded u) :
    ofUnpacked (UnpackedFloat.unpack Format.binary64 (UnpackedFloat.pack Format.binary64 u)) =
      ofUnpacked (clip u) := by
  cases u with
  | notANumber =>
      rw [UnpackedFloat.pack, UnpackedFloat.packedNaN, ofUnpacked_unpack_packComponents]
      rfl
  | infinity s =>
      rw [UnpackedFloat.pack, UnpackedFloat.packedInfinity, ofUnpacked_unpack_packComponents]
      rfl
  | zero s =>
      rw [UnpackedFloat.pack, UnpackedFloat.packedZero, ofUnpacked_unpack_packComponents]
      rfl
  | finite s m e hm =>
      obtain ⟨hlt, hle, hnormal⟩ : IsCanonical m e := hu
      have hbias : Format.binary64.exponentBias = 1023 := by decide
      have hbits : Format.binary64.mantissaBits = 53 := by decide
      rw [UnpackedFloat.pack, clip]
      simp only [hbias, hbits]
      by_cases hlarge : 971 < e
      · rw [if_pos hlarge, if_pos (by omega), UnpackedFloat.packedInfinity,
          ofUnpacked_unpack_packComponents]
        rfl
      · rw [if_neg hlarge, if_neg (by omega)]
        by_cases hm52 : 2 ^ 52 ≤ m
        · rw [log2_eq_of_normal hm52 hlt, if_pos rfl, ofUnpacked_unpack_packComponents,
            BitVec.toNat_ofNat, BitVec.toNat_ofNat, assemble, if_neg (by omega),
            if_neg (by omega), ofUnpacked, pow2_eq]
          congr 1 <;> omega
        · have hlog : m.log2 < 52 := (Nat.log2_lt (by omega)).mpr (by omega)
          obtain rfl : e = -1074 := hnormal.resolve_left hm52
          rw [if_neg (by omega), ofUnpacked_unpack_packComponents, assemble,
            if_neg (by decide), if_pos (by decide), BitVec.toNat_ofNat, Nat.mod_eq_of_lt (by omega)]
          rfl

theorem decode_ofModel_pack {u : UnpackedFloat} (hu : IsRounded u) :
    decode (.ofModel (.pack u)) = ofUnpacked (clip u) := by
  rw [decode_eq, ← ofUnpacked_unpack_pack hu]
  rfl

theorem decode_ofBits (bits : UInt64) :
    decode (.ofBits bits) = ofUnpacked (UnpackedFloat.unpack Format.binary64 bits.toBitVec) := by
  obtain ⟨hrounded, hclip⟩ := isRounded_unpack bits.toBitVec
  rw [← hclip]
  exact decode_ofModel_pack hrounded

/-- Fields within their ranges are read back. -/
theorem decode_ofFields {negative : Bool} {biased fraction : Nat} (hbiased : biased < 2 ^ 11)
    (hfraction : fraction < 2 ^ 52) :
    decode (ofFields negative biased fraction) = assemble negative biased fraction := by
  rw [ofFields, decode_ofBits, ofUnpacked_unpack, toNat_unpackMantissa, toNat_unpackExponent,
    isNegative_unpackSign]
  have hbits : ((if negative then pow2 63 else 0) + biased * pow2 52 + fraction) < 2 ^ 64 := by
    rw [pow2_eq, pow2_eq]
    split <;> omega
  rw [UInt64.toNat_toBitVec, UInt64.toNat_ofNat_of_lt' hbits, pow2_eq, pow2_eq, pow2_eq]
  cases negative with
  | false =>
      simp only [Bool.false_eq_true, if_false]
      congr 1
      · rw [decide_eq_false (by omega)]
      · omega
      · omega
  | true =>
      simp only [if_true]
      congr 1
      · rw [decide_eq_true (by omega)]
      · omega
      · omega

end BranchBound.Binary64
