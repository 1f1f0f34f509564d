import LiberaCrypt.EcScalarArith
import LiberaCrypt.EcdsaNonceCorrect

namespace LiberaCrypt.EcScalarParsing

open LiberaCrypt.Outcome LiberaCrypt.BigEndian LiberaCrypt.EcCurves LiberaCrypt.EcMontgomery
open LiberaCrypt.EcScalar LiberaCrypt.EcScalarArith LiberaCrypt.Endian LiberaCrypt.EcdsaNonce
open LiberaCrypt.EcdsaNonceCorrect LiberaCrypt.Rfc6979

/-- The number of the leftmost bits of a digest, as many as the order has. -/
def leftmostBits (id : CryptoEcCurveId) (digest : List UInt8) : Nat :=
  beValue digest / 2 ^ (8 * digest.length - (cryptoEcCurveGet id).scalarBits)

theorem leftmostBits_eq (id : CryptoEcCurveId) (mac : List UInt8 → List UInt8 → List UInt8)
    (digestLength : Nat) (digest : List UInt8) :
    leftmostBits id digest = bits2int (parameters mac digestLength id) digest := by
  rw [leftmostBits, bits2int, parameters, (sizes id).size]

theorem leftmostBits_lt (id : CryptoEcCurveId) (digest : List UInt8) :
    leftmostBits id digest < 2 * groupOrder (cryptoEcCurveGet id) := by
  rw [leftmostBits_eq id (fun _ _ => []) 0]
  exact bits2int_lt digest |>.trans_le (sizes id).double

/-- Strings of the length of a scalar: the check takes the numbers from one to the order, the parser
takes zero besides and keeps the number. A digest gives its leftmost bits modulo the order. -/
theorem scalarParsing (id : CryptoEcCurveId) :
    let curve := cryptoEcCurveGet id
    let n := groupOrder curve
    (∀ scalar : List UInt8, scalar.length = curve.scalarBytes →
      cryptoEcScalarIsValidCt curve scalar =
          (if 0 < beValue scalar ∧ beValue scalar < n then 1 else 0) ∧
        (beValue scalar ≠ 0 →
          (cryptoEcScalarIsValidCt curve scalar = 1 ↔
            ∃ w, cryptoEcScalarFromBytes curve scalar = .ok w)) ∧
        (beValue scalar < n → ∃ w, cryptoEcScalarFromBytes curve scalar = .ok w ∧
          ScalarHolds curve n w (beValue scalar) ∧ cryptoEcScalarToBytes curve w = scalar) ∧
        (n ≤ beValue scalar → cryptoEcScalarFromBytes curve scalar = .error .invalidArgument)) ∧
      ∀ digest : List UInt8, leftmostBits id digest < 2 * n ∧
        ∃ w, ecdsaDigestToScalar curve digest =
            .ok (w, bigEndian curve.scalarBytes (leftmostBits id digest % n)) ∧
          ScalarHolds curve n w (leftmostBits id digest) := by
  intro curve n
  have hsizes := sizes id
  have hsound := scalarModulus_sound id
  refine ⟨?_, ?_⟩
  · intro scalar hlength
    have hvalid := cryptoEcScalarIsValidCt_eq hsizes hlength
    have hparse : beValue scalar < n → ∃ w, cryptoEcScalarFromBytes curve scalar = .ok w ∧
        ScalarHolds curve n w (beValue scalar) ∧ cryptoEcScalarToBytes curve w = scalar := by
      intro hlt
      obtain ⟨w, hw, hholds⟩ := scalarFromBytes_ok hsizes hsound hlength hlt
      refine ⟨w, hw, hholds, ?_⟩
      rw [scalarToBytes_eq hsound hholds, ZMod.val_natCast, Nat.mod_eq_of_lt hlt, ← hlength]
      exact bigEndian_beValue scalar
    have hreject : n ≤ beValue scalar →
        cryptoEcScalarFromBytes curve scalar = .error .invalidArgument := by
      intro hle
      exact scalarFromBytes_error hsizes hsound fun hinput => absurd hinput.2 (not_lt.mpr hle)
    refine ⟨hvalid, ?_, hparse, hreject⟩
    intro hnonzero
    by_cases hlt : beValue scalar < n
    · obtain ⟨w, hw, -⟩ := hparse hlt
      rw [hvalid, if_pos ⟨Nat.pos_of_ne_zero hnonzero, hlt⟩, hw]
      simp
    · have hinvalid : ¬ (1 ≤ beValue scalar ∧ beValue scalar < n) := fun h => hlt h.2
      rw [hvalid, if_neg hinvalid, hreject (not_lt.mp hlt)]
      simp
  · intro digest
    refine ⟨leftmostBits_lt id digest, ?_⟩
    obtain ⟨w, hw, hholds⟩ := @ecdsaDigestToScalar_holds id 0 (fun _ _ => []) digest
    rw [bits2octets, int2octets, parameters_rlen, ← leftmostBits_eq] at hw
    rw [← leftmostBits_eq] at hholds
    exact ⟨w, hw, hholds⟩

end LiberaCrypt.EcScalarParsing
