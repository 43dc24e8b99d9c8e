/-
Rounding to 53 significant bits, ties to even: what a quotient of two integers becomes in `double` arithmetic, and when
its ceiling is the exact one. The range of exponents is not modelled; the numbers here are far from its ends.
-/
import Mathlib.Algebra.Order.Floor.Ring
import Mathlib.Data.Int.Log
import Mathlib.Data.Rat.Floor
import Mathlib.Tactic

namespace CoServer.Core.Double

/-! ## Rounding to an integer -/

/-- the nearest integer; of two, the even one -/
def roundEven (x : ℚ) : ℤ :=
  if x - ⌊x⌋ < 1 / 2 then ⌊x⌋
  else if 1 / 2 < x - ⌊x⌋ then ⌊x⌋ + 1
  else if ⌊x⌋ % 2 = 0 then ⌊x⌋ else ⌊x⌋ + 1

theorem le_roundEven {x : ℚ} {n : ℤ} (h : (n : ℚ) ≤ x) : n ≤ roundEven x := by
  have hn : n ≤ ⌊x⌋ := Int.le_floor.2 h
  unfold roundEven
  split_ifs <;> omega

theorem roundEven_le {x : ℚ} {n : ℤ} (h : x ≤ n) : roundEven x ≤ n := by
  have hfloor : ⌊x⌋ ≤ n := by
    have : (⌊x⌋ : ℚ) ≤ n := (Int.floor_le x).trans h
    exact_mod_cast this
  -- above the floor only when `x` is not an integer, and then the floor is below `n`
  have hstrict : ¬ x - ⌊x⌋ < 1 / 2 → ⌊x⌋ + 1 ≤ n := by
    intro hx
    have hlt : (⌊x⌋ : ℚ) < n := by linarith
    have : ⌊x⌋ < n := by exact_mod_cast hlt
    omega
  unfold roundEven
  split_ifs with h1 h2 h3
  · exact hfloor
  · exact hstrict h1
  · exact hfloor
  · exact hstrict h1

theorem roundEven_natCast (n : ℕ) : roundEven n = n := le_antisymm (roundEven_le (by simp)) (le_roundEven (by simp))

theorem sub_half_le_roundEven (x : ℚ) : x - 1 / 2 ≤ roundEven x := by
  unfold roundEven
  split_ifs with h1 h2 h3
  · linarith
  · push_cast
    have := Int.lt_floor_add_one x
    linarith
  · linarith
  · push_cast
    linarith

/-! ## Rounding to a double -/

/-- the distance of two neighbours at `q` -/
def ulp (q : ℚ) : ℚ := 2 ^ (Int.log 2 q - 52)

/-- a non-negative rational as a `double` -/
def round (q : ℚ) : ℚ := if q = 0 then 0 else roundEven (q / ulp q) * ulp q

/-- a non-negative rational as a `float`: 24 significant bits -/
def single (q : ℚ) : ℚ := if q = 0 then 0 else roundEven (q / 2 ^ (Int.log 2 q - 23)) * 2 ^ (Int.log 2 q - 23)

theorem ulp_pos (q : ℚ) : 0 < ulp q := zpow_pos (by norm_num) _

variable {q : ℚ}

theorem ulp_le (hq : 0 < q) : ulp q ≤ q / 2 ^ 52 := by
  have hlog : (2 : ℚ) ^ Int.log 2 q ≤ q := by exact_mod_cast Int.zpow_log_le_self (b := 2) (by norm_num) hq
  unfold ulp
  rw [zpow_sub₀ (by norm_num)]
  have : (2 : ℚ) ^ (52 : ℤ) = 2 ^ 52 := by norm_cast
  rw [this]
  gcongr

theorem natCast_div_ulp (hq : 0 < q) (hlt : q < 2 ^ 53) (n : ℕ) : ∃ k : ℕ, (n : ℚ) / ulp q = k := by
  have hlog : Int.log 2 q < 53 := by
    have : q < (2 : ℕ) ^ (53 : ℤ) := by exact_mod_cast hlt
    exact (Int.lt_zpow_iff_log_lt (by norm_num) hq).1 this
  obtain ⟨j, hj⟩ : ∃ j : ℕ, Int.log 2 q - 52 = -(j : ℤ) := ⟨(52 - Int.log 2 q).toNat, by omega⟩
  refine ⟨n * 2 ^ j, ?_⟩
  unfold ulp
  rw [hj, zpow_neg, div_inv_eq_mul, zpow_natCast]
  push_cast
  ring

theorem le_round (hq : 0 < q) : q * (1 - 1 / 2 ^ 53) ≤ round q := by
  have hu := ulp_pos q
  have hle := ulp_le hq
  have hr := sub_half_le_roundEven (q / ulp q)
  unfold round
  rw [if_neg hq.ne']
  calc q * (1 - 1 / 2 ^ 53) = q - (q / 2 ^ 52) / 2 := by ring
    _ ≤ q - ulp q / 2 := by linarith
    _ = (q / ulp q - 1 / 2) * ulp q := by field_simp
    _ ≤ roundEven (q / ulp q) * ulp q := by gcongr

theorem round_le (hq : 0 < q) (hlt : q < 2 ^ 53) {n : ℕ} (hn : q ≤ n) : round q ≤ n := by
  have hu := ulp_pos q
  obtain ⟨k, hk⟩ := natCast_div_ulp hq hlt n
  have hle : roundEven (q / ulp q) ≤ (k : ℤ) := by
    refine roundEven_le ?_
    calc q / ulp q ≤ n / ulp q := by gcongr
      _ = ((k : ℤ) : ℚ) := by rw [hk]; norm_cast
  have hle' : ((roundEven (q / ulp q) : ℤ) : ℚ) ≤ k := by exact_mod_cast hle
  unfold round
  rw [if_neg hq.ne']
  calc (roundEven (q / ulp q) : ℚ) * ulp q ≤ k * ulp q := by gcongr
    _ = n := by rw [← hk]; field_simp

theorem round_natCast {n : ℕ} (hn : n < 2 ^ 53) : round n = n := by
  by_cases h0 : n = 0
  · subst h0; simp [round]
  have hq : (0 : ℚ) < n := by exact_mod_cast Nat.pos_of_ne_zero h0
  have hlt : (n : ℚ) < 2 ^ 53 := by exact_mod_cast hn
  obtain ⟨k, hk⟩ := natCast_div_ulp hq hlt n
  unfold round
  rw [if_neg hq.ne', hk, roundEven_natCast]
  have hu := ulp_pos (n : ℚ)
  push_cast
  rw [← hk]
  field_simp

/-! ## Ceilings of quotients -/

/-- `static_cast<size_t>(std::ceil(1.0 * s / b))` -/
def ceilDiv (s b : ℕ) : ℕ := ⌈round (round (1 * round s) / round b)⌉₊

theorem ceil_eq_succ {x : ℚ} {m : ℕ} (h1 : (m : ℚ) < x) (h2 : x ≤ m + 1) : ⌈x⌉₊ = m + 1 := by
  refine le_antisymm (Nat.ceil_le.2 (by exact_mod_cast h2)) ?_
  exact Nat.lt_ceil.2 h1

theorem ceilDiv_eq {s b : ℕ} (hs : 0 < s) (hlt : s < 2 ^ 53) (hb : 0 < b) : ceilDiv s b = (s + b - 1) / b := by
  have hs' : (0 : ℚ) < s := by exact_mod_cast hs
  have hb' : (0 : ℚ) < b := by exact_mod_cast hb
  -- the exact ceiling is one more than `(s - 1) / b`
  have hceil : (s + b - 1) / b = (s - 1) / b + 1 := by rw [show s + b - 1 = s - 1 + b by omega, Nat.add_div_right _ hb]
  unfold ceilDiv
  rw [round_natCast hlt, one_mul, round_natCast hlt, hceil]
  by_cases hbig : b < 2 ^ 53
  · rw [round_natCast hbig]
    have hm1 : (s - 1) / b * b + 1 ≤ s := by
      have := Nat.div_mul_le_self (s - 1) b
      omega
    have hm2 : s ≤ ((s - 1) / b + 1) * b := by
      have := Nat.lt_div_mul_add (a := s - 1) hb
      have : ((s - 1) / b + 1) * b = (s - 1) / b * b + b := by ring
      omega
    generalize (s - 1) / b = m at hm1 hm2
    have hq1 : ((m : ℚ)) + 1 / b ≤ s / b := by
      rw [le_div_iff₀ hb']
      have : (m : ℚ) * b + 1 ≤ s := by exact_mod_cast hm1
      calc ((m : ℚ) + 1 / b) * b = m * b + 1 := by field_simp
        _ ≤ s := this
    have hq2 : (s : ℚ) / b ≤ ((m + 1 : ℕ) : ℚ) := by
      rw [div_le_iff₀ hb']
      exact_mod_cast hm2
    have hq0 : (0 : ℚ) < s / b := by positivity
    have hq53 : (s : ℚ) / b < 2 ^ 53 := by
      calc (s : ℚ) / b ≤ s := div_le_self hs'.le (by exact_mod_cast hb)
        _ < 2 ^ 53 := by exact_mod_cast hlt
    refine ceil_eq_succ ?_ (by exact_mod_cast round_le hq0 hq53 hq2)
    -- the error is below `1 / b`, the distance from the integer below
    have herr : (s : ℚ) / b * (1 / 2 ^ 53) < 1 / b := by
      rw [div_mul_div_comm, mul_one, div_lt_div_iff₀ (by positivity) hb', one_mul, mul_comm (b : ℚ) _]
      gcongr
      exact_mod_cast hlt
    calc (m : ℚ) < s / b - s / b * (1 / 2 ^ 53) := by linarith
      _ = s / b * (1 - 1 / 2 ^ 53) := by ring
      _ ≤ round (s / b) := le_round hq0
  · -- the divisor, even rounded, is above `s`
    have hm : (s - 1) / b = 0 := Nat.div_eq_of_lt (by omega)
    have hr : (s : ℚ) ≤ round b := by
      have h1 : ((s : ℚ)) + 1 ≤ 2 ^ 53 := by exact_mod_cast hlt
      have h2 : (2 : ℚ) ^ 53 ≤ b := by exact_mod_cast not_lt.1 hbig
      calc (s : ℚ) ≤ 2 ^ 53 - 1 := by linarith
        _ = 2 ^ 53 * (1 - 1 / 2 ^ 53) := by norm_num
        _ ≤ b * (1 - 1 / 2 ^ 53) := by gcongr
        _ ≤ round b := le_round hb'
    have hrpos : 0 < round (b : ℚ) := hs'.trans_le hr
    have hq0 : (0 : ℚ) < s / round b := by positivity
    have hq1 : (s : ℚ) / round b ≤ 1 := (div_le_one hrpos).2 hr
    rw [hm]
    refine ceil_eq_succ ?_ ?_
    · refine lt_of_lt_of_le ?_ (le_round hq0)
      positivity
    · have := round_le hq0 (hq1.trans_lt (by norm_num)) (n := 1) (by exact_mod_cast hq1)
      simpa using this

theorem ulp_two {n : ℕ} (h1 : 2 ^ 53 ≤ n) (h2 : n < 2 ^ 54) : ulp n = 2 := by
  have hlog : Int.log 2 (n : ℚ) = 53 := by exact_mod_cast (Nat.log_eq_iff (by norm_num)).2 ⟨h1, h2⟩
  unfold ulp
  rw [hlog]
  norm_num

theorem ceilDiv_two_pow : ceilDiv (2 ^ 53 + 1) 1 = 2 ^ 53 := by
  have htie : round ((2 ^ 53 + 1 : ℕ) : ℚ) = 2 ^ 53 := by
    unfold round
    rw [ulp_two (by norm_num) (by norm_num), roundEven]
    norm_num
  have heven : round (2 ^ 53 : ℚ) = 2 ^ 53 := by
    have hu : ulp (2 ^ 53 : ℚ) = 2 := by exact_mod_cast ulp_two (n := 2 ^ 53) (by norm_num) (by norm_num)
    have hr : roundEven (2 ^ 53 / 2 : ℚ) = 2 ^ 52 := by
      rw [show (2 ^ 53 / 2 : ℚ) = ((2 ^ 52 : ℕ) : ℚ) by norm_num, roundEven_natCast]
      norm_num
    unfold round
    rw [hu, hr]
    norm_num
  have hone : round ((1 : ℕ) : ℚ) = 1 := by exact_mod_cast round_natCast (n := 1) (by norm_num)
  unfold ceilDiv
  rw [htie, one_mul, heven, hone, div_one, heven]
  exact_mod_cast Nat.ceil_natCast (2 ^ 53)

end CoServer.Core.Double
