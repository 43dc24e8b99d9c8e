/-
How old the connections of a pool are when they are handed out and discarded.

`getConnection` takes an idle connection whose `_createTime + _maxAliveTime` is not after the clock, and deletes one for
which it is: the comparison is the wrong way round, and so is the one of `releasePtr`. `Right` is what a step may do
according to the ages, `Timely` the condition on the clock under which the code does it.

Results:
- `lifetime_iff`: a run hands out no connection that is too old and discards none that is young iff every call comes at
  the right time.
- `young_discarded_old_kept`: released after half a second a connection is discarded; released after two seconds it is
  kept, and handed out after five.
-/
import CoServer.Http.ConnectionPool

namespace CoServer.Http.ConnectionPool

open CoServer.Core List

variable {pool : HttpConnectionPool} {i : Input} {s : State} {p : Phase}

/-- the clock minus the creation time -/
def HttpConnection.age (conn : HttpConnection) (now : UInt64) : ℤ := now.toNat - conn.createTime.toNat

/-! ## What a step may do -/

section

variable (pool : HttpConnectionPool) (conn : HttpConnection)

/-- a connection that must not be discarded -/
def Young (connected : Bool) (conn : HttpConnection) (now : UInt64) : Prop :=
  connected = true ∧ conn.age now < pool.maxAliveTime.toNat ∧ conn.request.toNat < pool.maxRequest.toNat

/-- the connection with one more request -/
def HttpConnection.used : HttpConnection := { conn with request := conn.request + 1 }

/-- the lock section hands out no connection that is too old and discards no young one; a release discards no young
one -/
def RightTurn (i : Input) (s : State) : Phase → Prop
  | .locking nowMs =>
    (∀ c ∈ (popIdle pool s.info i.connected nowMs s.conns).2.1, (s.info c).age nowMs ≤ pool.maxAliveTime.toNat) ∧
      ∀ c ∈ (popIdle pool s.info i.connected nowMs s.conns).1, ¬ Young pool (i.connected c) (s.info c) nowMs
  | .borrowed c => (turn pool i s (.borrowed c)).1 = .dropping c → ¬ Young pool (i.connected c) (s.info c).used i.now
  | _ => True

def Right (s : State) : Op → Prop
  | .call _ => True
  | .advance k i => ∀ p ∈ s.calls[k]?, RightTurn pool i s p

/-! ## When the code does it -/

/-- `_createTime + _maxAliveTime` passes 2^64 -/
def Wraps : Prop := 2 ^ 64 ≤ conn.createTime.toNat + pool.maxAliveTime.toNat

/-- the first idle connection that is connected is as old as it may be, and a connection that could be used again is
released at that age or later; or the deadline has passed 2^64 and is small -/
def TimelyTurn (i : Input) (s : State) : Phase → Prop
  | .locking nowMs => ∀ c ∈ s.conns.find? i.connected, (s.info c).age nowMs = pool.maxAliveTime.toNat ∨
      Wraps pool (s.info c) ∧ (s.info c).deadline pool ≤ nowMs
  | .borrowed c => Young pool (i.connected c) (s.info c).used i.now → Wraps pool (s.info c) ∧
      (s.info c).deadline pool < i.now
  | _ => True

def Timely (s : State) : Op → Prop
  | .call _ => True
  | .advance k i => ∀ p ∈ s.calls[k]?, TimelyTurn pool i s p

/-! ## The comparisons -/

theorem deadline_toNat : (conn.deadline pool).toNat = (conn.createTime.toNat + pool.maxAliveTime.toNat) % 2 ^ 64 := by
  rw [HttpConnection.deadline, UInt64.toNat_add, UInt32.toNat_toUInt64]

theorem deadline_cases (now : UInt64) :
    (Wraps pool conn ∧ conn.age now < pool.maxAliveTime.toNat) ∨
      (¬ Wraps pool conn ∧ (now < conn.deadline pool ↔ conn.age now < pool.maxAliveTime.toNat)) := by
  have hd := deadline_toNat pool conn
  have hnow := now.toNat_lt
  unfold HttpConnection.age
  rw [UInt64.lt_iff_toNat_lt]
  by_cases hw : 2 ^ 64 ≤ conn.createTime.toNat + pool.maxAliveTime.toNat
  · exact .inl ⟨hw, by omega⟩
  · exact .inr ⟨hw, by omega⟩

end

theorem lock_right_iff (info : ℕ → HttpConnection) (connected : ℕ → Bool) (nowMs : UInt64) {conns : List ℕ}
    (hidle : ∀ c ∈ conns, (info c).request.toNat < pool.maxRequest.toNat) :
    ((∀ c ∈ (popIdle pool info connected nowMs conns).2.1, (info c).age nowMs ≤ pool.maxAliveTime.toNat) ∧
      ∀ c ∈ (popIdle pool info connected nowMs conns).1, ¬ Young pool (connected c) (info c) nowMs) ↔
    ∀ c ∈ conns.find? connected, (info c).age nowMs = pool.maxAliveTime.toNat ∨
      Wraps pool (info c) ∧ (info c).deadline pool ≤ nowMs := by
  induction conns with
  | nil => simp [popIdle]
  | cons c conns ih =>
    have ih := ih fun d hd => hidle d (mem_cons_of_mem _ hd)
    have hrequest := hidle c mem_cons_self
    cases hc : connected c with
    | false =>
      -- it is deleted and does not matter
      have hnot : ¬ Young pool (connected c) (info c) nowMs := fun hy => by rw [hc] at hy; cases hy.1
      rw [popIdle, if_pos (.inl hc), List.find?_cons_of_neg (by rw [hc]; decide), ← ih]
      simp [hnot]
    | true =>
      rw [List.find?_cons_of_pos hc]
      simp only [Option.mem_some_iff, forall_eq']
      by_cases hdead : (info c).deadline pool > nowMs
      · -- it is young and deleted
        have hage : (info c).age nowMs < pool.maxAliveTime.toNat := by
          rcases deadline_cases pool (info c) nowMs with ⟨-, hlt⟩ | ⟨-, hiff⟩
          · exact hlt
          · exact hiff.1 hdead
        rw [popIdle, if_pos (.inr hdead)]
        constructor
        · rintro ⟨-, hinvalid⟩
          exact absurd ⟨hc, hage, hrequest⟩ (hinvalid c mem_cons_self)
        · rintro (heq | ⟨-, hle⟩)
          · exact absurd heq hage.ne
          · exact absurd hle (UInt64.not_le.2 hdead)
      · -- it is handed out
        have hle : (info c).deadline pool ≤ nowMs := UInt64.not_lt.1 hdead
        have hkeep : ¬ (connected c = false ∨ (info c).deadline pool > nowMs) := by
          rintro (hf | hgt)
          · rw [hc] at hf
            cases hf
          · exact hdead hgt
        rw [popIdle, if_neg hkeep]
        simp only [Option.mem_some_iff, forall_eq', not_mem_nil, false_imp_iff, implies_true, and_true]
        rcases deadline_cases pool (info c) nowMs with ⟨hw, hlt⟩ | ⟨hw, hiff⟩
        · exact ⟨fun _ => .inr ⟨hw, hle⟩, fun _ => hlt.le⟩
        have hge : ¬ (info c).age nowMs < pool.maxAliveTime.toNat := fun hlt => hdead (hiff.2 hlt)
        constructor
        · intro hage
          exact .inl (le_antisymm hage (not_lt.1 hge))
        · rintro (heq | ⟨hw', -⟩)
          · exact heq.le
          · exact absurd hw' hw

theorem release_right_iff (pool : HttpConnectionPool) (i : Input) (s : State) (c : ℕ) :
    RightTurn pool i s (.borrowed c) ↔ TimelyTurn pool i s (.borrowed c) := by
  have hage : (s.info c).used.age i.now = (s.info c).age i.now := rfl
  have hdrop : (turn pool i s (.borrowed c)).1 = .dropping c ↔
    i.connected c = false ∨ (s.info c).deadline pool ≥ i.now ∨
      (s.info c).used.request ≥ pool.maxRequest.toUInt64 := by
    simp only [turn]
    split_ifs with hcond
    · exact ⟨fun _ => hcond, fun _ => rfl⟩
    constructor
    · intro h
      cases h
    · exact fun h => absurd h hcond
  rw [RightTurn, hdrop]
  constructor
  · intro hright hyoung
    have hlt : (s.info c).deadline pool < i.now := UInt64.not_le.1 fun hd => hright (.inr (.inl hd)) hyoung
    rcases deadline_cases pool (s.info c) i.now with ⟨hw, -⟩ | ⟨-, hiff⟩
    · exact ⟨hw, hlt⟩
    · exact absurd (hiff.2 (hage ▸ hyoung.2.1)) (UInt64.lt_asymm hlt)
  · intro htimely hd hyoung
    obtain ⟨-, hlt⟩ := htimely hyoung
    obtain ⟨hconn, -, hrequest⟩ := hyoung
    rcases hd with hd | hd | hd
    · rw [hconn] at hd
      cases hd
    · exact absurd hlt (UInt64.not_lt.2 hd)
    · rw [ge_iff_le, UInt64.le_iff_toNat_le, UInt32.toNat_toUInt64] at hd
      omega

theorem turn_right_iff (hinv : Inv pool s) (i : Input) (p : Phase) : RightTurn pool i s p ↔ TimelyTurn pool i s p := by
  cases p with
  | locking nowMs => exact lock_right_iff s.info i.connected nowMs fun c hc => (hinv.counters.idle c hc).2
  | borrowed c => exact release_right_iff pool i s c
  | deleting _ _ _ | connecting | counting _ | dropping _ | returning _ | decrementing | done => exact Iff.rfl

/-- **Lifetime.** -/
theorem lifetime_iff (pool : HttpConnectionPool) (ops : List Op) :
    Meets (step pool) (Right pool) State.init ops ↔ Meets (step pool) (Timely pool) State.init ops := by
  refine meets_congr (fun s o _ h => step_inv pool s o h) ?_ (init_inv pool) ops
  intro s o hinv
  cases o with
  | call nowMs => exact Iff.rfl
  | advance k i => exact forall₂_congr fun p _ => turn_right_iff hinv i p

/-! ## Both ways round -/

/-- connections may live for a second and serve ten requests -/
def secondPool : HttpConnectionPool := ⟨1000, 10⟩

/-- at this time nothing fails -/
def readyAt (now : UInt64) : Input := ⟨now, fun _ => true, true⟩

/-- a connection is made at time 0 and released at this time -/
def releasedAt (now : UInt64) : List Op := borrowOps 0 ++ [.advance 0 (readyAt now)]

theorem young_discarded_old_kept :
    ¬ Meets (step secondPool) (Right secondPool) State.init (releasedAt 500) ∧
      ¬ Meets (step secondPool) (Right secondPool) State.init
        (releasedAt 2000 ++ [.advance 0 (readyAt 2000), .call 5000, .advance 1 (readyAt 5000)]) := by
  refine ⟨?_, ?_⟩
  · intro h
    obtain ⟨-, hrelease, -⟩ := (meets_append _ _ _ _ _).1 h
    exact hrelease (.borrowed 0) (by decide) (by decide) ⟨by decide, by decide, by decide⟩
  intro h
  obtain ⟨-, -, -, hlock, -⟩ := (meets_append _ _ _ _ _).1 h
  have hage := (hlock (.locking 5000) (by decide)).1 0 (by decide)
  exact absurd hage (by decide)

end CoServer.Http.ConnectionPool
