/-
The numeric getters of `MySQLResultSet` (mysql.cpp).

Every integer getter narrows the 64 bits of `TypeUtil::atoi`, and the others go through `TypeUtil::atof`. `strtod` is
the conversion of the C library and `toFloat` the one from `double`; both are parameters.

Results:
- `get_text`: an integer getter returns the number of a decimal text that is in the range of its type.
- `getters_right_iff`: a getter is right on a cell exactly if it is an integer getter or the cell is NULL. The integer
  getters are right for NULL too; `getDouble` and `getFloat` of a text never return.
- `double_never_returns`: `getDouble` of the text 1.5.
-/
import CoServer.TypeUtil

namespace CoServer.Db.MySQLResult

open CoServer.Core.CString TypeUtil

/-! ## The code -/

/-- a field of `_cur`: a text, or NULL -/
abbrev Cell := Option (List UInt8)

inductive IntGetter where
  | getInt8 | getUint8 | getInt16 | getUint16 | getInt32 | getUint32 | getInt64 | getUint64
deriving DecidableEq

namespace IntGetter

def width : IntGetter → ℕ
  | getInt8 | getUint8 => 8
  | getInt16 | getUint16 => 16
  | getInt32 | getUint32 => 32
  | getInt64 | getUint64 => 64

def signed : IntGetter → Bool
  | getInt8 | getInt16 | getInt32 | getInt64 => true
  | _ => false

/-- the result of `getInt64` converted to the type of the getter -/
def get (g : IntGetter) (c : Cell) : ℤ :=
  if g.signed then ((atoiPtr c).toNat : ℤ).bmod (2 ^ g.width) else (atoiPtr c).toNat % 2 ^ g.width

def InRange (g : IntGetter) (z : ℤ) : Prop :=
  if g.signed then -2 ^ (g.width - 1) ≤ z ∧ z < 2 ^ (g.width - 1) else 0 ≤ z ∧ z < 2 ^ g.width

end IntGetter

inductive Getter where
  | int (g : IntGetter)
  | double
  | float

variable {D F : Type} [Zero D] [Zero F] (strtod : List UInt8 → D) (toFloat : ZeroHom D F)

def getDouble (calls : ℕ) (c : Cell) : Option D := atof calls c

def getFloat (calls : ℕ) (c : Cell) : Option F := (getDouble calls c).map toFloat

/-! ## What is right -/

/-- a getter returns on a cell, with the number of a decimal text in its range, the C library's value of a text, and 0
for NULL -/
def Getter.Right (c : Cell) : Getter → Prop
  | .int g => (c = none → g.get c = 0) ∧ ∀ neg ds, ds ≠ [] → (∀ d ∈ ds, isDigit d = true) → c = some (text neg ds) →
      g.InRange (number neg ds) → g.get c = number neg ds
  | .double => ∃ calls, getDouble calls c = some (c.elim 0 strtod)
  | .float => ∃ calls, getFloat toFloat calls c = some (c.elim 0 fun str => toFloat (strtod str))

variable {ds : List UInt8}

theorem get_text (g : IntGetter) (neg : Bool) (hne : ds ≠ []) (hd : ∀ d ∈ ds, isDigit d = true)
    (hr : g.InRange (number neg ds)) : g.get (some (text neg ds)) = number neg ds := by
  have hlt : decimal ds < 2 ^ 64 := by
    cases neg <;> cases g <;> simp [IntGetter.InRange, IntGetter.signed, IntGetter.width, number] at hr <;> omega
  rw [IntGetter.get, atoiPtr, strtoull_text neg hne hd hlt]
  cases g <;> simp [IntGetter.InRange, IntGetter.signed, IntGetter.width, Int.bmod_def] at hr ⊢ <;> omega

/-- **The numeric getters.** The integer getters are right on every cell; the others return for NULL only. -/
theorem getters_right_iff (c : Cell) (g : Getter) : g.Right strtod toFloat c ↔ (∃ i, g = .int i) ∨ c = none := by
  cases g with
  | int g =>
    refine ⟨fun _ => .inl ⟨g, rfl⟩, fun _ => ⟨?_, ?_⟩⟩
    · rintro rfl
      cases g <;> decide
    · rintro neg ds hne hd rfl hr
      exact get_text g neg hne hd hr
  | double | float =>
    cases c with
    | none => exact ⟨fun _ => .inr rfl, fun _ => ⟨1, by simp [getFloat, getDouble, atof]⟩⟩
    | some str => simp [Getter.Right, getFloat, getDouble, atof_some]

/-- `getDouble` of the text 1.5 -/
theorem double_never_returns : ¬ Getter.double.Right (fun _ => (3 / 2 : ℚ)) (ZeroHom.id ℚ) (some (lit "1.5")) := by
  rintro ⟨calls, h⟩
  rw [getDouble, atof_some] at h
  cases h

end CoServer.Db.MySQLResult
