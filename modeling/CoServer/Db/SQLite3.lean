/-
Values and transactions of SQLite3 (src/db/sqlite3.cpp).

SQLite is not under `src/`: its functions are the fields of a `Library`, with what is assumed of them, that a bound
value is returned with its type and its number of bytes. `getBlob` takes the type of the column for its length, and
`isNull` is always false. The outcome of a statement is a parameter too; `SQLite3Manager::openTransaction` does not send
one.

Results:
- `readBack_iff`: which values are read back and told from null, for every such library;
- `blobs_and_null`: two blobs and a null that are not;
- `opened_right_iff`: which ways to open a transaction give one that is begun, committed and ended as it should be, if
  the caller's own statements do not begin a transaction;
- `never_begun`: a transaction of the manager.
-/
import CoServer.Core.Run

namespace CoServer.Db.SQLite3

open CoServer.Core List

/-! ## Values -/

/-- the functions of SQLite that bind a value and read it from a row; `σ` is what the database stores. A pointer is the
memory behind it, as far as it may be read. -/
structure Library (σ : Type) where
  bindInt : BitVec 32 → σ
  bindInt64 : BitVec 64 → σ
  bindText : List UInt8 → σ
  bindBlob : List UInt8 → σ
  bindNull : σ
  columnType : σ → ℕ
  columnBytes : σ → ℕ
  columnInt : σ → BitVec 32
  columnInt64 : σ → BitVec 64
  columnText : σ → Option (List UInt8)
  columnBlob : σ → Option (List UInt8)
  int_bindInt : ∀ v, columnInt (bindInt v) = v
  int64_bindInt64 : ∀ v, columnInt64 (bindInt64 v) = v
  text_bindText : ∀ s, columnText (bindText s) = some s
  bytes_bindText : ∀ s, columnBytes (bindText s) = s.length
  /-- a null pointer for no bytes -/
  blob_bindBlob : ∀ s, columnBlob (bindBlob s) = if s = [] then none else some s
  /-- `SQLITE_BLOB` -/
  type_bindBlob : ∀ s, columnType (bindBlob s) = 4

/-- the typed binds, one constructor each; a length below 2^31 is the same as an `int` -/
inductive Param
  | int8 (v : BitVec 8)
  | uint8 (v : BitVec 8)
  | int16 (v : BitVec 16)
  | uint16 (v : BitVec 16)
  | int32 (v : BitVec 32)
  | uint32 (v : BitVec 32)
  | int64 (v : BitVec 64)
  | uint64 (v : BitVec 64)
  | string (s : { s : List UInt8 // s.length < 2 ^ 31 })
  | blob (s : { s : List UInt8 // s.length < 2 ^ 31 })
  | null
deriving DecidableEq

section

variable {σ : Type} (lib : Library σ)

def Param.bind : Param → σ
  | .int8 v | .int16 v => lib.bindInt (v.signExtend 32)
  | .uint8 v | .uint16 v => lib.bindInt (v.setWidth 32)
  | .int32 v | .uint32 v => lib.bindInt v
  | .int64 v | .uint64 v => lib.bindInt64 v
  | .string s => lib.bindText s
  | .blob s => lib.bindBlob s
  | .null => lib.bindNull

def isNull (_ : σ) : Bool := false

variable (c : σ)

def getInt64 : BitVec 64 := lib.columnInt64 c

def getInt32 : BitVec 32 := lib.columnInt c

/-- `std::string(v, len)`, or nothing if it reads past the end -/
def string (v : Option (List UInt8)) (len : ℕ) : Option (List UInt8) :=
  match v with
  | none => some []
  | some v => if len ≤ v.length then some (v.take len) else none

def getString : Option (List UInt8) := string (lib.columnText c) (lib.columnBytes c)

def getBlob : Option (List UInt8) := string (lib.columnBlob c) (lib.columnType c)

/-- the getter that matches the bind returns the value -/
def Param.ReadBack : Param → Prop
  | .int8 v | .uint8 v | .int16 v | .uint16 v => (getInt32 lib c).setWidth _ = v
  | .int32 v | .uint32 v => getInt32 lib c = v
  | .int64 v | .uint64 v => getInt64 lib c = v
  | .string s => getString lib c = some s.1
  | .blob s => getBlob lib c = some s.1
  | .null => True

theorem setWidth_signExtend {w n : ℕ} (h : w ≤ n) (v : BitVec w) : (v.signExtend n).setWidth w = v := by
  ext i hi
  simp [BitVec.getElem_signExtend, hi, show i < n by omega]

theorem getInt32_bindInt (v : BitVec 32) : getInt32 lib (lib.bindInt v) = v := lib.int_bindInt v

theorem getBlob_iff (s : List UInt8) : getBlob lib (lib.bindBlob s) = some s ↔ s.length = 0 ∨ s.length = 4 := by
  rw [getBlob, lib.blob_bindBlob, lib.type_bindBlob]
  by_cases hs : s = []
  · simp [hs, string]
  have hpos := length_pos_iff.2 hs
  rw [if_neg hs, string]
  split_ifs with hle
  · rw [Option.some.injEq, take_eq_self_iff]
    omega
  · simp only [false_iff]
    omega

/-- **The round trip.** With any library that returns what was bound: a value is read back, and told from null, iff it
is not null and not a blob that has neither 0 nor 4 bytes. -/
theorem readBack_iff (p : Param) :
    p.ReadBack lib (p.bind lib) ∧ (isNull (p.bind lib) = true ↔ p = .null) ↔
      p ≠ .null ∧ ∀ s, p = .blob s → s.1.length = 0 ∨ s.1.length = 4 := by
  cases p with
  | null => simp [isNull]
  | blob s => simp [isNull, Param.ReadBack, Param.bind, getBlob_iff]
  | string s => simp [isNull, Param.ReadBack, Param.bind, getString, lib.text_bindText, lib.bytes_bindText, string]
  | int64 v | uint64 v => simp [isNull, Param.ReadBack, Param.bind, getInt64, lib.int64_bindInt64]
  | int32 v | uint32 v => simp [isNull, Param.ReadBack, Param.bind, getInt32_bindInt]
  | int8 v | int16 v => simp [isNull, Param.ReadBack, Param.bind, getInt32_bindInt, setWidth_signExtend]
  | uint8 v | uint16 v => simp [isNull, Param.ReadBack, Param.bind, getInt32_bindInt]

end

/-- what a column holds in the library below -/
inductive Column
  | null
  | int (v : BitVec 64)
  | text (s : List UInt8)
  | blob (s : List UInt8)
deriving DecidableEq

/-- a library that stores the values as they are -/
def columns : Library Column where
  bindInt v := .int (v.signExtend 64)
  bindInt64 v := .int v
  bindText s := .text s
  bindBlob s := .blob s
  bindNull := .null
  columnType c := match c with | .int _ => 1 | .text _ => 3 | .blob _ => 4 | .null => 5
  columnBytes c := match c with | .text s | .blob s => s.length | .int _ | .null => 0
  columnInt c := match c with | .int v => v.setWidth 32 | _ => 0
  columnInt64 c := match c with | .int v => v | _ => 0
  columnText c := match c with | .text s => some s | _ => none
  columnBlob c := match c with | .blob s => if s = [] then none else some s | _ => none
  int_bindInt v := setWidth_signExtend (by decide) v
  int64_bindInt64 _ := rfl
  text_bindText _ := rfl
  bytes_bindText _ := rfl
  blob_bindBlob _ := rfl
  type_bindBlob _ := rfl

theorem blobs_and_null :
    getBlob columns (Param.bind columns (.blob ⟨[1, 2, 3, 4, 5], by decide⟩)) = some [1, 2, 3, 4] ∧
      getBlob columns (Param.bind columns (.blob ⟨[1], by decide⟩)) = none ∧
      isNull (Param.bind columns .null) = false := by
  decide

/-! ## Transactions -/

inductive TransactionType
  | deferred
  | immediate
  | exclusive
deriving DecidableEq

def TransactionType.begin : TransactionType → String
  | .deferred => "BEGIN"
  | .immediate => "BEGIN IMMEDIATE"
  | .exclusive => "BEGIN EXCLUSIVE"

/-- `sent` is what was sent on the connection, with whether it succeeded -/
structure SQLite3Transaction where
  autoCommit : Bool
  type : TransactionType := .deferred
  status : ℕ := 0
  sent : List (String × Bool) := []
deriving DecidableEq

namespace SQLite3Transaction

section

variable (t : SQLite3Transaction)

def execute (sql : String) (ok : Bool) : SQLite3Transaction := { t with sent := t.sent ++ [(sql, ok)] }

/-- a statement sent in one status that leads to another when it succeeds -/
def move (status status' : ℕ) (sql : String) (ok : Bool) : SQLite3Transaction × Bool :=
  if t.status = status then ({ t.execute sql ok with status := if ok then status' else t.status }, ok) else (t, false)

def begin (t : SQLite3Transaction) (ok : Bool) : SQLite3Transaction × Bool := t.move 0 1 t.type.begin ok

def commit (ok : Bool) : SQLite3Transaction × Bool := t.move 1 2 "COMMIT" ok

def rollback (ok : Bool) : SQLite3Transaction × Bool := t.move 1 3 "ROLLBACK" ok

/-- the destructor -/
def destroy (ok : Bool) : SQLite3Transaction :=
  if t.status = 1 then (if t.autoCommit then (t.commit ok).1 else (t.rollback ok).1) else t

inductive Op
  | execute (sql : String) (ok : Bool)
  | begin (ok : Bool)
  | commit (ok : Bool)
  | rollback (ok : Bool)

def step : Op → SQLite3Transaction
  | .execute sql ok => t.execute sql ok
  | .begin ok => (t.begin ok).1
  | .commit ok => (t.commit ok).1
  | .rollback ok => (t.rollback ok).1

/-- `SQLite3::openTransaction`, and `SQLite3Manager::openTransaction` with whether `get` finds a connection -/
inductive Path
  | connection (autoCommit ok : Bool)
  | manager (autoCommit found : Bool)

def Path.opened : Path → Option SQLite3Transaction
  | .connection autoCommit ok => if (begin { autoCommit } ok).2 then some (begin { autoCommit } ok).1 else none
  | .manager autoCommit found => if found then some { autoCommit } else none

/-- a BEGIN that succeeded -/
def begins (e : String × Bool) : Bool :=
  e.2 && [TransactionType.deferred, .immediate, .exclusive].any fun type => e.1 = type.begin

/-- a statement of the caller does not begin a transaction -/
def Op.Plain : Op → Prop
  | .execute sql ok => begins (sql, ok) = false
  | .begin _ | .commit _ | .rollback _ => True

def Begun : Prop := t.sent.countP begins = if t.status = 0 then 0 else 1

end

variable {t : SQLite3Transaction}

theorem begun_move (h : Begun t) {status status' : ℕ} (hne : status' ≠ 0) {sql : String} {ok : Bool}
    (hb : begins (sql, ok) = (ok && status == 0)) : Begun (t.move status status' sql ok).1 := by
  by_cases hs : t.status = status
  · subst hs
    rw [move, if_pos rfl]
    cases ok with
    | false => simpa [Begun, execute, hb] using h
    | true =>
      have hcount : t.sent.countP begins = _ := h
      simp [Begun, execute, hb, hcount, hne]
      split_ifs <;> rfl
  · rwa [move, if_neg hs]

theorem begun_step (h : Begun t) {o : Op} (ho : o.Plain) : Begun (t.step o) := by
  cases o with
  | execute sql ok =>
    rw [Begun, step, execute, countP_append, countP_singleton, h, show begins (sql, ok) = false from ho]
    rfl
  | begin ok => exact begun_move h one_ne_zero (by cases ok <;> cases t.type <;> decide)
  | commit ok => exact begun_move h two_ne_zero (by cases ok <;> decide)
  | rollback ok => exact begun_move h three_ne_zero (by cases ok <;> decide)

theorem status_of_commit {ok : Bool} (h : (t.commit ok).2 = true) : t.status = 1 := by
  by_contra hne
  rw [commit, move, if_neg hne] at h
  cases h

theorem ends (h : t.status = 1) (ok : Bool) :
    ∃ sql ∈ ["COMMIT", "ROLLBACK"], (t.destroy ok).sent = t.sent ++ [(sql, ok)] := by
  rw [destroy, commit, rollback, move, move, if_pos h, if_pos h, if_pos h]
  cases t.autoCommit with
  | true => exact ⟨_, mem_cons_self, rfl⟩
  | false => exact ⟨_, mem_cons_of_mem _ mem_cons_self, rfl⟩

/-- what is asked of a transaction that is opened and then used -/
structure Right (t : SQLite3Transaction) (ops : List Op) : Prop where
  begun : t.sent.any begins = true
  commit : ∀ ok, ((run step t ops).commit ok).2 = true → (run step t ops).sent.countP begins = 1
  ended : (run step t ops).status = 1 → ∀ ok, ∃ sql ∈ ["COMMIT", "ROLLBACK"],
    ((run step t ops).destroy ok).sent = (run step t ops).sent ++ [(sql, ok)]

/-- **Opening.** Whatever succeeds, the transaction is null, or begun at once, committed with one BEGIN and ended by its
destruction, iff it is not one that the manager has a connection for. -/
theorem opened_right_iff (path : Path) (ops : List Op) (hops : ∀ o ∈ ops, o.Plain) :
    (∀ t, path.opened = some t → Right t ops) ↔ ∀ autoCommit, path ≠ .manager autoCommit true := by
  constructor
  · rintro h autoCommit rfl
    cases (h _ rfl).begun
  intro hpath t ht
  cases path with
  | manager autoCommit found =>
    cases found with
    | false => cases ht
    | true => exact absurd rfl (hpath autoCommit)
  | connection autoCommit ok =>
    cases ok with
    | false => cases ht
    | true =>
      cases ht
      have h : Begun (run step (begin { autoCommit } true).1 ops) :=
        run_inv (fun t o ho h => begun_step h ho) (meets_of_forall hops _) rfl
      refine ⟨rfl, fun ok hok => ?_, fun hs => ends hs⟩
      rw [h, status_of_commit hok, if_neg one_ne_zero]

/-- begun at once, and then ended by a COMMIT -/
theorem opened_right_iff_connection :
    ∃ t, (Path.connection true true).opened = some t ∧ Right t [.execute "DELETE FROM t" true, .commit true] :=
  ⟨_, rfl, (opened_right_iff (.connection true true) [.execute "DELETE FROM t" true, .commit true]
    (by simp only [forall_mem_cons]; exact ⟨rfl, trivial, by simp⟩)).2 (by simp) _ rfl⟩

/-- no statement of the manager's transaction is in a transaction, and `commit` refuses -/
theorem never_begun :
    let t : SQLite3Transaction := { autoCommit := true }
    (Path.manager true true).opened = some t ∧ ((t.execute "DELETE FROM t" true).commit true).2 = false ∧
      ((t.execute "DELETE FROM t" true).destroy true).sent = [("DELETE FROM t", true)] := by
  decide

end SQLite3Transaction

end CoServer.Db.SQLite3
