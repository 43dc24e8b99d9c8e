/-
The parameters of a prepared MySQL statement (`MySQLStmt`, src/db/mysql.cpp).

A buffer is allocated by the first bind on its index and kept by the next ones. The binds of fixed width copy into it as
it is; those of a string or a blob allocate again when the last length was smaller. `malloc` of no bytes is a buffer of
none.

Results:
- `bind_iff`: the copy of one bind stays in its buffer iff the value fits.
- `bind_holds`: the parameter is then the value.
- `binds_right_iff`: every copy stays in its buffer, and every parameter is as it was bound last, iff no bind of fixed
  width meets a smaller buffer from an earlier bind on its index.
- `rebind_overflows`: one byte is allocated, and eight are copied.
-/
import CoServer.Core.Bytes
import CoServer.Core.Run

namespace CoServer.Db.MySQLStmt

open CoServer.Core Function List

/-! ## The code -/

/-- `MYSQL_TYPE_DECIMAL` is that of a parameter that was never bound -/
inductive FieldType
  | decimal
  | tiny
  | short
  | long
  | longLong
  | float
  | double
  | string
  | blob
  | null
deriving DecidableEq

structure Bind where
  bufferType : FieldType := .decimal
  buffer : Option (List UInt8) := none
  isUnsigned : Bool := false
  bufferLength : ℕ := 0
deriving DecidableEq

/-- the typed binds, one constructor each; `bindTime` binds a string -/
inductive Value
  | int8 (v : BitVec 8)
  | uint8 (v : BitVec 8)
  | int16 (v : BitVec 16)
  | uint16 (v : BitVec 16)
  | int32 (v : BitVec 32)
  | uint32 (v : BitVec 32)
  | int64 (v : BitVec 64)
  | uint64 (v : BitVec 64)
  | float (v : BitVec 32)
  | double (v : BitVec 64)
  | string (s : List UInt8)
  | blob (s : List UInt8)
  | null
deriving DecidableEq

def Value.type : Value → FieldType
  | .int8 _ | .uint8 _ => .tiny
  | .int16 _ | .uint16 _ => .short
  | .int32 _ | .uint32 _ => .long
  | .int64 _ | .uint64 _ => .longLong
  | .float _ => .float
  | .double _ => .double
  | .string _ => .string
  | .blob _ => .blob
  | .null => .null

def Value.isUnsigned (old : Bool) : Value → Bool
  | .int8 _ | .int16 _ | .int32 _ | .int64 _ => false
  | .uint8 _ | .uint16 _ | .uint32 _ | .uint64 _ => true
  | .float _ | .double _ | .string _ | .blob _ | .null => old

def Value.data : Value → List UInt8
  | .int8 v | .uint8 v => leBytes 1 v.toNat
  | .int16 v | .uint16 v => leBytes 2 v.toNat
  | .int32 v | .uint32 v | .float v => leBytes 4 v.toNat
  | .int64 v | .uint64 v | .double v => leBytes 8 v.toNat
  | .string s | .blob s => s
  | .null => []

/-- a string or a blob -/
def Value.sized : Value → Bool
  | .string _ | .blob _ => true
  | _ => false

variable (b : Bind)

variable (v : Value)

/-- the buffer that a bind copies to: `BIND_COPY`, or `BIND_COPY_LEN` for what is sized -/
def Bind.room : List UInt8 :=
  let kept := if v.sized && b.bufferLength < v.data.length then none else b.buffer
  kept.getD (replicate v.data.length 0)

/-- nothing when the `memcpy` writes past the end of the buffer -/
def Bind.bind : Option Bind :=
  if v = .null then some { b with bufferType := .null }
  else if v.data.length ≤ (b.room v).length then
    some { bufferType := v.type, buffer := v.data ++ (b.room v).drop v.data.length,
           isUnsigned := v.isUnsigned b.isUnsigned, bufferLength := v.data.length }
  else none

/-- the binds of a statement, each with its index -/
def bindAll (binds : List (ℕ × Value)) : Option (ℕ → Bind) :=
  binds.foldlM (fun s o => ((s o.1).bind o.2).map (update s o.1)) fun _ => {}

/-! ## What is bound -/

/-- what the parameter is at `execute` -/
def Bind.Holds : Prop :=
  b.bufferType = v.type ∧ (v ≠ .null → b.bufferLength = v.data.length ∧ (b.buffer.getD []).take b.bufferLength = v.data)

/-- the last bind on an index -/
def bound (i : ℕ) (binds : List (ℕ × Value)) : Option Value :=
  latest (fun o => if o.1 = i then some o.2 else none) binds

/-- a bind of fixed width finds no smaller buffer -/
def Fits : Prop := v.sized = false → ∀ buffer ∈ b.buffer, v.data.length ≤ buffer.length

/-- the last length is within the buffer -/
def Bind.Inv : Prop := ∀ buffer ∈ b.buffer, b.bufferLength ≤ buffer.length

variable {b : Bind} {v : Value}

theorem le_room_iff (h : b.Inv) : v.data.length ≤ (b.room v).length ↔ Fits b v := by
  unfold Bind.room Fits
  cases hb : b.buffer with
  | none => simp
  | some buffer =>
    have hinv := h buffer hb
    cases v.sized with
    | false => simp
    | true =>
      by_cases hlt : b.bufferLength < v.data.length
      · simp [hlt]
      · simp [hlt]
        omega

theorem bind_iff (h : b.Inv) : (∃ b', b.bind v = some b') ↔ Fits b v := by
  rw [← le_room_iff h, Bind.bind]
  split_ifs with hnull hle
  · simp [hnull, Value.data]
  · simp [hle]
  · simp [hle]

theorem bind_holds (h : b.Inv) {b' : Bind} (hbind : b.bind v = some b') : b'.Inv ∧ b'.Holds v := by
  rw [Bind.bind] at hbind
  split_ifs at hbind with hnull hle
  · cases hbind
    exact ⟨h, hnull ▸ rfl, fun hne => absurd hnull hne⟩
  · cases hbind
    refine ⟨?_, rfl, fun _ => ⟨rfl, ?_⟩⟩
    · rintro _ ⟨⟩
      simp
    · simp

variable {binds : List (ℕ × Value)} {s s' : ℕ → Bind}

theorem bindAll_snoc {o : ℕ × Value} :
    bindAll (binds ++ [o]) = some s' ↔ ∃ s b, bindAll binds = some s ∧ (s o.1).bind o.2 = some b ∧
      update s o.1 b = s' := by
  simp [bindAll, foldlM_append, Option.bind_eq_some_iff]

theorem bindAll_holds (h : bindAll binds = some s) (i : ℕ) : (s i).Inv ∧ ∀ v ∈ bound i binds, (s i).Holds v := by
  induction binds using reverseRecOn generalizing s with
  | nil =>
    cases h
    exact ⟨by rintro _ ⟨⟩, by rintro _ ⟨⟩⟩
  | append_singleton binds o ih =>
    obtain ⟨s, b, hs, hb, rfl⟩ := bindAll_snoc.1 h
    rw [bound, latest_snoc]
    by_cases hi : o.1 = i
    · subst hi
      obtain ⟨hinv, hholds⟩ := bind_holds (ih hs).1 hb
      rw [update_self, if_pos rfl, Option.some_or]
      exact ⟨hinv, by rintro _ ⟨⟩; exact hholds⟩
    · rw [update_of_ne (Ne.symm hi), if_neg hi, Option.none_or]
      exact ih hs

/-- **The parameters.** -/
theorem binds_right_iff (binds : List (ℕ × Value)) :
    (∃ s, bindAll binds = some s ∧ ∀ i, ∀ v ∈ bound i binds, (s i).Holds v) ↔
      ∀ before o after, binds = before ++ o :: after → ∀ s, bindAll before = some s → Fits (s o.1) o.2 := by
  constructor
  · rintro ⟨s', hs', -⟩ before o after rfl s hs
    cases hb : (s o.1).bind o.2 with
    | some b => exact (bind_iff (bindAll_holds hs o.1).1).1 ⟨b, hb⟩
    | none =>
      unfold bindAll at hs hs'
      simp [foldlM_append, hs, hb] at hs'
  · intro h
    induction binds using reverseRecOn with
    | nil => exact ⟨_, rfl, by rintro _ _ ⟨⟩⟩
    | append_singleton binds o ih =>
      obtain ⟨s, hs, -⟩ :=
        ih fun before o' after heq => h before o' (after ++ [o]) (by rw [heq, append_assoc, cons_append])
      obtain ⟨b, hb⟩ := (bind_iff (bindAll_holds hs o.1).1).2 (h binds o [] rfl s hs)
      have hs' := bindAll_snoc.2 ⟨s, b, hs, hb, rfl⟩
      exact ⟨_, hs', fun i => (bindAll_holds hs' i).2⟩

theorem rebind_overflows : bindAll [(1, .int8 0), (1, .int64 0)] = none := rfl

end CoServer.Db.MySQLStmt
