/-
Integers in bytes: little-endian digits to base 256, and the zigzag code of signed numbers.
-/
import Mathlib.Data.BitVec
import Mathlib.Tactic

namespace CoServer.Core

open BitVec

/-! ## Digits to base 256 -/

/-- the `k` lowest bytes of `v`, lowest first -/
def leBytes : ℕ → ℕ → List UInt8
  | 0, _ => []
  | k + 1, v => UInt8.ofNat v :: leBytes k (v / 256)

def ofLeBytes : List UInt8 → ℕ
  | [] => 0
  | b :: bs => b.toNat + 256 * ofLeBytes bs

@[simp] theorem length_leBytes (k v : ℕ) : (leBytes k v).length = k := by
  induction k generalizing v with
  | zero => rfl
  | succ k ih => rw [leBytes, List.length_cons, ih]

theorem ofLeBytes_leBytes {k v : ℕ} (h : v < 256 ^ k) : ofLeBytes (leBytes k v) = v := by
  induction k generalizing v with
  | zero =>
    rw [leBytes, ofLeBytes]
    omega
  | succ k ih =>
    have hdiv : v / 256 < 256 ^ k := Nat.div_lt_of_lt_mul (by omega)
    rw [leBytes, ofLeBytes, ih hdiv, UInt8.toNat_ofNat']
    omega

theorem ofLeBytes_lt (bs : List UInt8) : ofLeBytes bs < 256 ^ bs.length := by
  induction bs with
  | nil => simp [ofLeBytes]
  | cons b bs ih =>
    have hb := b.toNat_lt
    rw [ofLeBytes, List.length_cons]
    omega

theorem leBytes_ofLeBytes (bs : List UInt8) : leBytes bs.length (ofLeBytes bs) = bs := by
  induction bs with
  | nil => rfl
  | cons b bs ih =>
    have hb := b.toNat_lt
    have hlow : UInt8.ofNat (b.toNat + 256 * ofLeBytes bs) = b := by
      apply UInt8.toNat_inj.1
      rw [UInt8.toNat_ofNat']
      omega
    have hhigh : (b.toNat + 256 * ofLeBytes bs) / 256 = ofLeBytes bs := by omega
    rw [ofLeBytes, List.length_cons, leBytes, hlow, hhigh, ih]

/-! ## Zigzag -/

/-- `v < 0 ? (unsigned)(-v) * 2 - 1 : (unsigned)v * 2` -/
def zigzagEncode {w : ℕ} (v : BitVec w) : BitVec w := if v.msb then -v * 2#w - 1#w else v * 2#w

/-- `(v >> 1) ^ -(v & 1)` -/
def zigzagDecode {w : ℕ} (v : BitVec w) : BitVec w := (v >>> 1) ^^^ -(v &&& 1#w)

variable {w : ℕ}

theorem toNat_one_of_pos (hw : 0 < w) : (1#w).toNat = 1 := by
  rw [toNat_ofNat, Nat.mod_eq_of_lt (Nat.one_lt_two_pow hw.ne')]

theorem toNat_two_of_lt (hw : 1 < w) : (2#w).toNat = 2 := by
  rw [toNat_ofNat, Nat.mod_eq_of_lt]
  exact Nat.pow_lt_pow_right Nat.one_lt_two hw

theorem and_one_of_odd (hw : 0 < w) {v : BitVec w} (h : v.toNat % 2 = 1) : v &&& 1#w = 1#w := by
  apply eq_of_toNat_eq
  rw [toNat_and, toNat_one_of_pos hw, Nat.and_one_is_mod, h]

theorem and_one_of_even (hw : 0 < w) {v : BitVec w} (h : v.toNat % 2 = 0) : v &&& 1#w = 0#w := by
  apply eq_of_toNat_eq
  rw [toNat_and, toNat_one_of_pos hw, Nat.and_one_is_mod, h, toNat_ofNat, Nat.zero_mod]

theorem toNat_zigzagEncode_neg (hw : 1 < w) {v : BitVec w} (hv : v.msb = true) :
    (zigzagEncode v).toNat = 2 * (2 ^ w - v.toNat) - 1 := by
  have hpow := Nat.two_pow_pred_mul_two (Nat.zero_lt_of_lt hw)
  have hlt := v.isLt
  have hge : 2 ^ (w - 1) ≤ v.toNat := by simpa [msb_eq_decide] using hv
  have hneg : (-v).toNat = 2 ^ w - v.toNat := by rw [toNat_neg, Nat.mod_eq_of_lt (by omega)]
  have hmul : (-v * 2#w).toNat = (2 * (2 ^ w - v.toNat)) % 2 ^ w := by
    rw [toNat_mul, hneg, toNat_two_of_lt hw, Nat.mul_comm]
  rw [zigzagEncode, if_pos hv, toNat_sub, hmul, toNat_one_of_pos (Nat.zero_lt_of_lt hw)]
  -- only the code of the least number wraps around
  rcases Nat.lt_or_ge (2 * (2 ^ w - v.toNat)) (2 ^ w) with hx | hx
  · rw [Nat.mod_eq_of_lt hx, show 2 ^ w - 1 + 2 * (2 ^ w - v.toNat) = 2 * (2 ^ w - v.toNat) - 1 + 2 ^ w by omega,
      Nat.add_mod_right, Nat.mod_eq_of_lt (by omega)]
  · rw [show 2 * (2 ^ w - v.toNat) = 2 ^ w by omega, Nat.mod_self, Nat.add_zero, Nat.mod_eq_of_lt (by omega)]

theorem toNat_zigzagEncode_nonneg (hw : 1 < w) {v : BitVec w} (hv : v.msb = false) :
    (zigzagEncode v).toNat = 2 * v.toNat := by
  have hpow := Nat.two_pow_pred_mul_two (Nat.zero_lt_of_lt hw)
  have hlt : v.toNat < 2 ^ (w - 1) := by simpa [msb_eq_decide] using hv
  rw [zigzagEncode, if_neg (by rw [hv]; simp), toNat_mul, toNat_two_of_lt hw, Nat.mod_eq_of_lt (by omega), Nat.mul_comm]

theorem zigzag_decode_encode (hw : 1 < w) (v : BitVec w) : zigzagDecode (zigzagEncode v) = v := by
  cases hv : v.msb with
  | false =>
    have he := toNat_zigzagEncode_nonneg hw hv
    rw [zigzagDecode, and_one_of_even (by omega) (by omega), BitVec.neg_zero, BitVec.xor_zero]
    apply eq_of_toNat_eq
    rw [toNat_ushiftRight]
    omega
  | true =>
    have he := toNat_zigzagEncode_neg hw hv
    rw [zigzagDecode, and_one_of_odd (by omega) (by omega), neg_one_eq_allOnes, xor_allOnes]
    apply eq_of_toNat_eq
    rw [toNat_not, toNat_ushiftRight]
    omega

end CoServer.Core
