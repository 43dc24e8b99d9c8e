/-
Byte strings as C and `std::string` functions read them.

A string is a list of bytes; a C function sees it up to its first zero byte (`cstr`). The functions are modelled as
documented for the "C" locale: white space, an optional sign and decimal digits for `strtol` and its relatives, letters
without regard to case for `strcasecmp`.
-/
import Mathlib.Data.List.Lex
import Mathlib.Data.Nat.Digits.Lemmas
import Mathlib.Tactic

namespace CoServer.Core.CString

open List Bool Nat

/-- the bytes of a literal -/
def lit (s : String) : List UInt8 := s.toList.map fun c => UInt8.ofNat c.toNat

theorem not_mem_lit {l : List Char} {x : UInt8} (h : (l.all fun c => UInt8.ofNat c.toNat != x) = true) :
    x ∉ lit (String.ofList l) := by
  rw [lit, String.toList_ofList, mem_map]
  rintro ⟨c, hc, rfl⟩
  simpa using all_eq_true.1 h c hc

section

variable (s : List UInt8)

/-- what a C function sees of `c_str()` -/
def cstr : List UInt8 := s.takeWhile (· != 0)

/-! ## Searching -/

/-- `find(c)`, as the parts before and after the first `c` -/
def cut (c : UInt8) (s : List UInt8) : Option (List UInt8 × List UInt8) :=
  if c ∈ s then some (s.takeWhile (· != c), (s.dropWhile (· != c)).tail) else none

theorem cut_append {c : UInt8} {a : List UInt8} (ha : c ∉ a) (b : List UInt8) : cut c (a ++ c :: b) = some (a, b) := by
  have hne : ∀ x ∈ a, (x != c) = true := by
    intro x hx
    rw [bne_iff_ne]
    intro he
    exact ha (he ▸ hx)
  have htake : (a ++ c :: b).takeWhile (· != c) = a := by
    rw [takeWhile_append_of_pos hne, takeWhile_cons_of_neg (by simp), append_nil]
  have hdrop : (a ++ c :: b).dropWhile (· != c) = c :: b := by
    rw [dropWhile_append_of_pos hne, dropWhile_cons_of_neg (by simp)]
  rw [cut, if_pos (by simp), htake, hdrop, tail_cons]

theorem cut_eq_none {c : UInt8} {s : List UInt8} (h : c ∉ s) : cut c s = none := if_neg h

/-! ## Numbers -/

/-- `isspace` -/
def isSpace (c : UInt8) : Bool := c == 32 || (9 ≤ c && c ≤ 13)

def isDigit (c : UInt8) : Bool := 48 ≤ c && c ≤ 57

def decimal (ds : List UInt8) : ℕ := ds.foldl (fun n c => 10 * n + (c.toNat - 48)) 0

def scanDigits (neg : Bool) (s : List UInt8) : Option (Bool × ℕ × List UInt8) :=
  if s.takeWhile isDigit = [] then none else some (neg, decimal (s.takeWhile isDigit), s.dropWhile isDigit)

/-- the number at the start of a string: its sign, its absolute value and what follows it; none if there are no
digits -/
def scanNumber : Option (Bool × ℕ × List UInt8) :=
  match (cstr s).dropWhile isSpace with
  | 45 :: s => scanDigits true s
  | 43 :: s => scanDigits false s
  | s => scanDigits false s

/-- `strtol` to base 10, with the place its second argument is set to; a `long` has 64 bits and a greater number is
clamped -/
def strtol : Option (ℤ × List UInt8) :=
  (scanNumber s).map fun (neg, n, rest) => (max (-2 ^ 63) (min (2 ^ 63 - 1) (if neg then -(n : ℤ) else n)), rest)

/-- `std::stoi`, none where it throws -/
def stoi : Option ℤ := (strtol s).bind fun (v, _) => if -2 ^ 31 ≤ v ∧ v < 2 ^ 31 then some v else none

/-- `std::stoull`, none where it throws; a minus sign negates in 64 bits -/
def stoull : Option ℕ :=
  (scanNumber s).bind fun (neg, n, _) => if n < 2 ^ 64 then some (if neg then (2 ^ 64 - n) % 2 ^ 64 else n) else none

/-- `strtoull` to base 10: it clamps, and a minus sign negates in 64 bits -/
def strtoull : UInt64 :=
  match scanNumber s with
  | none => 0
  | some (neg, n, _) => if 2 ^ 64 ≤ n then UInt64.ofNat (2 ^ 64 - 1) else if neg then 0 - UInt64.ofNat n
      else UInt64.ofNat n

end

theorem isDigit_iff (c : UInt8) : isDigit c = true ↔ 48 ≤ c.toNat ∧ c.toNat ≤ 57 := by
  rw [isDigit, and_eq_true, decide_eq_true_iff, decide_eq_true_iff]
  rfl

theorem cstr_append {a : List UInt8} (ha : 0 ∉ a) (b : List UInt8) : cstr (a ++ b) = a ++ cstr b := by
  refine takeWhile_append_of_pos fun x hx => ?_
  rw [bne_iff_ne]
  intro he
  exact ha (he ▸ hx)

variable {ds : List UInt8}

theorem scanNumber_digits {rest : List UInt8} (hne : ds ≠ []) (hd : ∀ c ∈ ds, isDigit c = true)
    (hrest : ∀ c, (cstr rest).head? = some c → isDigit c = false) :
    scanNumber (ds ++ rest) = some (false, decimal ds, cstr rest) := by
  have hzero : 0 ∉ ds := fun h0 => absurd (hd 0 h0) (by decide)
  obtain ⟨d, ds', rfl⟩ := exists_cons_of_ne_nil hne
  have hdd := (isDigit_iff d).1 (hd d mem_cons_self)
  have hspace : isSpace d = false := by
    rw [eq_false_iff]
    intro hs
    simp only [isSpace, or_eq_true, and_eq_true, decide_eq_true_eq, beq_iff_eq, UInt8.le_iff_toNat_le,
      ← UInt8.toNat_inj] at hs
    simp only [UInt8.reduceToNat] at hs
    omega
  have hskip : (cstr (d :: ds' ++ rest)).dropWhile isSpace = d :: (ds' ++ cstr rest) := by
    rw [cstr_append hzero, cons_append, dropWhile_cons_of_neg (by rw [hspace]; decide)]
  have htake : (d :: (ds' ++ cstr rest)).takeWhile isDigit = d :: ds' := by
    rw [← cons_append, takeWhile_append_of_pos hd]
    cases hr : cstr rest with
    | nil => simp
    | cons c r => rw [takeWhile_cons_of_neg (by rw [hrest c (by rw [hr]; rfl)]; decide), append_nil]
  have hdrop : (d :: (ds' ++ cstr rest)).dropWhile isDigit = cstr rest := by
    rw [← cons_append, dropWhile_append_of_pos hd]
    cases hr : cstr rest with
    | nil => rfl
    | cons c r => rw [dropWhile_cons_of_neg (by rw [hrest c (by rw [hr]; rfl)]; decide)]
  unfold scanNumber
  rw [hskip]
  split
  · rename_i heq
    obtain ⟨rfl, -⟩ := cons.inj heq
    exact absurd hdd (by decide)
  · rename_i heq
    obtain ⟨rfl, -⟩ := cons.inj heq
    exact absurd hdd (by decide)
  · rw [scanDigits, htake, hdrop, if_neg (cons_ne_nil _ _)]

theorem stoull_digits (hne : ds ≠ []) (hd : ∀ c ∈ ds, isDigit c = true) (hlt : decimal ds < 2 ^ 64) :
    stoull ds = some (decimal ds) := by
  have hscan : scanNumber (ds ++ []) = some (false, decimal ds, cstr []) := scanNumber_digits hne hd (by simp [cstr])
  rw [append_nil] at hscan
  simp only [stoull, hscan, Option.bind_some, hlt, if_true, false_eq_true, if_false]

theorem strtol_digits {rest : List UInt8} (hne : ds ≠ []) (hd : ∀ c ∈ ds, isDigit c = true)
    (hrest : ∀ c, (cstr rest).head? = some c → isDigit c = false) (hlt : decimal ds < 2 ^ 63) :
    strtol (ds ++ rest) = some (↑(decimal ds), cstr rest) := by
  have hle : (decimal ds : ℤ) ≤ 2 ^ 63 - 1 := by linarith
  have hneg : (-2 ^ 63 : ℤ) ≤ decimal ds := by linarith [Int.natCast_nonneg (decimal ds)]
  rw [strtol, scanNumber_digits hne hd hrest, Option.map_some]
  simp only [false_eq_true, if_false, min_eq_right hle, max_eq_right hneg]

theorem stoi_digits (hne : ds ≠ []) (hd : ∀ c ∈ ds, isDigit c = true) (hlt : decimal ds < 2 ^ 31) :
    stoi ds = some (decimal ds : ℤ) := by
  have hint : -2 ^ 31 ≤ (decimal ds : ℤ) ∧ (decimal ds : ℤ) < 2 ^ 31 :=
    ⟨by linarith [Int.natCast_nonneg (decimal ds)], by exact_mod_cast hlt⟩
  have hl : strtol (ds ++ []) = some (↑(decimal ds), cstr []) := strtol_digits hne hd (by simp [cstr]) (by omega)
  rw [append_nil] at hl
  rw [stoi, hl, Option.bind_some]
  exact if_pos hint

/-- `operator<<` of an unsigned integer -/
def digits (n : ℕ) : List UInt8 := if n = 0 then [48] else (Nat.digits 10 n).reverse.map fun d => UInt8.ofNat (48 + d)

theorem digits_ne_nil (n : ℕ) : digits n ≠ [] := by
  unfold digits
  split_ifs with hn
  · exact cons_ne_nil _ _
  · intro hnil
    rw [map_eq_nil_iff, reverse_eq_nil_iff] at hnil
    exact digits_ne_nil_iff_ne_zero.2 hn hnil

theorem digit_toNat {d : ℕ} (h : d < 10) : (UInt8.ofNat (48 + d)).toNat = 48 + d := by
  rw [UInt8.toNat_ofNat']
  omega

theorem isDigit_digits (n : ℕ) : ∀ c ∈ digits n, isDigit c = true := by
  unfold digits
  split_ifs with hn
  · exact all_eq_true.1 (by decide)
  intro c hc
  obtain ⟨d, hd, rfl⟩ := mem_map.1 hc
  have hlt : d < 10 := digits_lt_base (by decide) (mem_reverse.1 hd)
  rw [isDigit_iff, digit_toNat hlt]
  omega

theorem not_mem_digits {c : UInt8} (h : isDigit c = false) (n : ℕ) : c ∉ digits n := by
  intro hc
  rw [isDigit_digits n c hc] at h
  cases h

theorem digits_of_lt {d : ℕ} (h : d < 10) : digits d = [UInt8.ofNat (48 + d)] := by
  unfold digits
  split_ifs with hd
  · rw [hd]
    rfl
  · rw [Nat.digits_of_lt 10 d hd h, reverse_singleton, map_singleton]

theorem decimal_digits (n : ℕ) : decimal (digits n) = n := by
  have hvalue : ∀ ds : List ℕ, (∀ d ∈ ds, d < 10) →
      decimal (ds.reverse.map fun d => UInt8.ofNat (48 + d)) = ofDigits 10 ds := by
    intro ds hds
    induction ds with
    | nil => rfl
    | cons d ds ih =>
      have hd := digit_toNat (hds d mem_cons_self)
      have hrest := ih fun x hx => hds x (mem_cons_of_mem _ hx)
      rw [decimal] at hrest
      rw [decimal, reverse_cons, map_append, foldl_append, map_singleton, foldl_cons, foldl_nil, ofDigits_cons]
      omega
  unfold digits
  split_ifs with hn
  · rw [hn]
    rfl
  · rw [hvalue _ fun d hd => digits_lt_base (by decide) hd, ofDigits_digits]

theorem length_digits_le {n k : ℕ} (h : n < 10 ^ (k + 1)) : (digits n).length ≤ k + 1 := by
  unfold digits
  split_ifs with hn
  · exact succ_le_succ (zero_le k)
  · rw [length_map, length_reverse]
    exact (digits_length_le_iff (by decide) n).2 h

/-! ## Letters without regard to case -/

def toLower (c : UInt8) : UInt8 := if 65 ≤ c && c ≤ 90 then c + 32 else c

/-- what `strcasecmp` compares, in lexicographic order -/
def fold (s : List UInt8) : List ℕ := (cstr s).map fun c => (toLower c).toNat

end CoServer.Core.CString
