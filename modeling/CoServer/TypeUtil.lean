/-
The numbers of `TypeUtil` (util.cpp): `atoi` and `atof`, which the database layer, the name server and the discovery
read texts with.

Both overloads of `atoi` return the 64 bits of `strtoull`. Inside `atof(const char*)` the name `atof` finds the members
of the class before the function of the C library, so the function calls itself with the same text.

Results:
- `strtoull_text`: the number of a decimal text below 2^64, modulo 2^64; a minus sign negates in 64 bits.
- `atof_some`: no number of nested calls suffices for `atof` of a text.
-/
import CoServer.Core.CString
import Mathlib.Data.List.TakeWhile

namespace CoServer.TypeUtil

open CoServer.Core.CString

/-- `atoi(const std::string&)`, the bits of the `int64_t` -/
def atoi (str : List UInt8) : UInt64 := if str = [] then 0 else strtoull str

/-- `atoi(const char*)` -/
def atoiPtr : Option (List UInt8) → UInt64
  | none => 0
  | some str => strtoull str

/-- `atof(const char*)`, none if so many nested calls do not suffice -/
def atof {D : Type} [Zero D] : ℕ → Option (List UInt8) → Option D
  | 0, _ => none
  | _ + 1, none => some 0
  | calls + 1, some str => atof calls (some str)

theorem atof_some {D : Type} [Zero D] (calls : ℕ) (str : List UInt8) : atof calls (some str) = (none : Option D) := by
  induction calls with
  | zero => rfl
  | succ calls ih => exact ih

/-- a decimal text and its number -/
def text (neg : Bool) (ds : List UInt8) : List UInt8 := if neg then 45 :: ds else ds

def number (neg : Bool) (ds : List UInt8) : ℤ := if neg then -decimal ds else decimal ds

theorem strtoull_text {ds : List UInt8} (neg : Bool) (hne : ds ≠ []) (hd : ∀ d ∈ ds, isDigit d = true)
    (hlt : decimal ds < 2 ^ 64) : ((strtoull (text neg ds)).toNat : ℤ) = number neg ds % 2 ^ 64 := by
  have hzero : ∀ d ∈ ds, d ≠ 0 := fun d h h0 => absurd (hd d h) (by rw [h0]; decide)
  obtain ⟨rest, hscan⟩ : ∃ rest, scanNumber (text neg ds) = some (neg, decimal ds, rest) := by
    cases neg with
    | false => exact ⟨cstr [], by simpa [text] using @scanNumber_digits ds [] hne hd (by simp [cstr])⟩
    | true =>
      have hc : (cstr (45 :: ds)).dropWhile isSpace = 45 :: ds := by simpa [cstr, List.dropWhile, isSpace] using hzero
      exact ⟨ds.dropWhile isDigit, by simp [text, scanNumber, hc, scanDigits, List.takeWhile_eq_self_iff.2 hd, hne]⟩
  simp only [strtoull, hscan, if_neg (not_le.2 hlt), number]
  cases neg with
  | false => simp
  | true =>
    simp [UInt64.toNat_neg, UInt64.size]
    omega

end CoServer.TypeUtil
