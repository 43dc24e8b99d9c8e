/-
`HttpConnectionPool` (src/http/http_connection.cpp): `getConnection` and the deleter `releasePtr`, for any number of
borrowers at once.

A call of `getConnection`, what its caller does with the connection and the release are one `Phase` after the other;
each step is a lock section, an atomic update of `_total` or a deletion. The clock, whether a connection is connected
and whether a new one can be made are inputs. A connection is the number of its creation; its fields are in a table all
calls share. `deleted` and `handed` are kept for the statements only.

Results:
- `turn_places`: a step takes a connection from one place to another, or makes a new one.
- `turn_total`, `turn_keeps`: it keeps the count and the counters, given that the connections it changes are not idle.
- `pool_ownership`: after any interleaving of calls, with any clock and any failures, every connection created is in
  exactly one place, the idle list, one call or borrower, or the deleted ones; when no call is in progress and less than
  2^31 connections are not deleted, `_total` is their number; no connection has been handed out more than max(1,
  maxRequest) times.
- `total_overflow`: 2^31 connections are held, and `_total` is negative.
-/
import CoServer.Core.Run
import CoServer.Core.Update

namespace CoServer.Http.ConnectionPool

open CoServer.Core Function List

/-! ## The code -/

/-- the limits of a pool -/
structure HttpConnectionPool where
  maxAliveTime : UInt32
  maxRequest : UInt32
deriving DecidableEq

structure HttpConnection where
  createTime : UInt64
  request : UInt64
  /-- how often `getConnection` returned it -/
  handed : ℕ
deriving DecidableEq

/-- what a call, and the holder of the pointer it returned, does next -/
inductive Phase where
  /-- `getConnection` has read the clock and waits for the lock -/
  | locking (nowMs : UInt64)
  /-- the lock is released: `invalid` is deleted one by one, then its size subtracted -/
  | deleting (invalid : List ℕ) (size : ℕ) (ptr : Option ℕ)
  | connecting
  /-- a new connection is not yet counted -/
  | counting (ptr : ℕ)
  | borrowed (ptr : ℕ)
  /-- `releasePtr` has decided -/
  | dropping (ptr : ℕ)
  | returning (ptr : ℕ)
  | decrementing
  | done
deriving DecidableEq

open Phase

structure State where
  conns : List ℕ
  total : ℤ
  calls : List Phase
  /-- number of connections created -/
  next : ℕ
  info : ℕ → HttpConnection
  deleted : List ℕ

/-- what a step may ask the system -/
structure Input where
  now : UInt64
  connected : ℕ → Bool
  /-- the address is found and the socket connects -/
  reachable : Bool

/-- `int32_t` -/
def wrap32 (x : ℤ) : ℤ := Int.bmod x (2 ^ 32)

section

variable (pool : HttpConnectionPool)

/-- `_createTime + _maxAliveTime` -/
def HttpConnection.deadline (conn : HttpConnection) : UInt64 := conn.createTime + pool.maxAliveTime.toUInt64

/-- the loop over `_conns`: what it found invalid, what it took and what it left -/
def popIdle (info : ℕ → HttpConnection) (connected : ℕ → Bool) (nowMs : UInt64) : List ℕ → List ℕ × Option ℕ × List ℕ
  | [] => ([], none, [])
  | c :: conns =>
    if connected c = false ∨ (info c).deadline pool > nowMs then
      (c :: (popIdle info connected nowMs conns).1, (popIdle info connected nowMs conns).2)
    else ([], some c, conns)

/-- one step of a call -/
def turn (i : Input) (s : State) : Phase → Phase × State
  | .locking nowMs =>
    let (invalid, ptr, conns) := popIdle pool s.info i.connected nowMs s.conns
    (.deleting invalid invalid.length ptr, { s with conns := conns })
  | .deleting (c :: invalid) size ptr => (.deleting invalid size ptr, { s with deleted := c :: s.deleted })
  | .deleting [] size none => (.connecting, { s with total := wrap32 (s.total - size) })
  | .deleting [] size (some c) =>
    (.borrowed c, { s with
      total := wrap32 (s.total - size), info := update s.info c { s.info c with handed := (s.info c).handed + 1 } })
  | .connecting =>
    if i.reachable then
      (.counting s.next, { s with next := s.next + 1, info := update s.info s.next ⟨i.now, 0, 0⟩ })
    else (.done, s)
  | .counting c =>
    (.borrowed c, { s with
      total := wrap32 (s.total + 1), info := update s.info c { s.info c with handed := (s.info c).handed + 1 } })
  | .borrowed c =>
    let conn := { s.info c with request := (s.info c).request + 1 }
    (if i.connected c = false ∨ conn.deadline pool ≥ i.now ∨ conn.request ≥ pool.maxRequest.toUInt64 then .dropping c
      else .returning c,
      { s with info := update s.info c conn })
  | .dropping c => (.decrementing, { s with deleted := c :: s.deleted })
  | .decrementing => (.done, { s with total := wrap32 (s.total - 1) })
  | .returning c => (.done, { s with conns := s.conns ++ [c] })
  | .done => (.done, s)

inductive Op where
  /-- a call of `getConnection` -/
  | call (nowMs : UInt64)
  /-- the next step of a call -/
  | advance (k : ℕ) (i : Input)

def step (s : State) : Op → State
  | .call nowMs => { s with calls := s.calls ++ [.locking nowMs] }
  | .advance k i =>
    match s.calls[k]? with
    | none => s
    | some p => { (turn pool i s p).2 with calls := s.calls.set k (turn pool i s p).1 }

end

def State.init : State := ⟨[], 0, [], 0, fun _ => ⟨0, 0, 0⟩, []⟩

/-! ## Where connections are -/

/-- the connections in the variables of a call or with its caller -/
def Phase.holds : Phase → List ℕ
  | .deleting invalid _ ptr => invalid ++ ptr.toList
  | .counting c | .borrowed c | .dropping c | .returning c => [c]
  | .locking _ | .connecting | .decrementing | .done => []

/-- in how many places a connection is -/
def State.places (s : State) (c : ℕ) : ℕ :=
  s.conns.count c + (s.calls.map fun p => p.holds.count c).sum + s.deleted.count c

variable {pool : HttpConnectionPool} {i : Input} {s : State} {p : Phase}

section

variable (pool : HttpConnectionPool)

theorem popIdle_append (info : ℕ → HttpConnection) (connected : ℕ → Bool) (nowMs : UInt64) (conns : List ℕ) :
    (popIdle pool info connected nowMs conns).1 ++ (popIdle pool info connected nowMs conns).2.1.toList ++
      (popIdle pool info connected nowMs conns).2.2 = conns := by
  induction conns with
  | nil => rfl
  | cons c conns ih =>
    unfold popIdle
    split_ifs
    · rw [cons_append, cons_append, ih]
    · rfl

/-- 1 for a connection that has been created -/
def created (n c : ℕ) : ℕ := if c < n then 1 else 0

theorem turn_places (i : Input) (s : State) (p : Phase) (c : ℕ) :
    (turn pool i s p).2.conns.count c + (turn pool i s p).1.holds.count c + (turn pool i s p).2.deleted.count c +
      created s.next c =
      s.conns.count c + p.holds.count c + s.deleted.count c + created (turn pool i s p).2.next c := by
  cases p with
  | locking nowMs =>
    have hcount := congrArg (count c) (popIdle_append pool s.info i.connected nowMs s.conns)
    rcases hpop : popIdle pool s.info i.connected nowMs s.conns with ⟨invalid, ptr, conns⟩
    simp only [hpop, count_append] at hcount
    simp only [turn, hpop, holds, count_append, count_nil]
    omega
  | deleting invalid size ptr =>
    cases invalid with
    | nil =>
      cases ptr with
      | none | some d => rfl
    | cons d invalid =>
      simp only [turn, holds, cons_append, count_cons]
      omega
  | connecting =>
    simp only [turn]
    split_ifs with hreach
    · simp only [holds, count_cons, count_nil, created, beq_iff_eq]
      split_ifs <;> omega
    · rfl
  | counting d | decrementing | done => rfl
  | borrowed d =>
    simp only [turn]
    split_ifs
    · rfl
    · rfl
  | dropping d =>
    simp only [turn, holds, count_cons, count_nil]
    omega
  | returning d =>
    simp only [turn, holds, count_append, count_nil]
    omega

/-! ## `_total` -/

/-- what `_total` is above the connections that are not deleted, on account of a call -/
def Phase.owed : Phase → ℤ
  | .deleting invalid size _ => size - invalid.length
  | .counting _ => -1
  | .decrementing => 1
  | .locking _ | .connecting | .borrowed _ | .dropping _ | .returning _ | .done => 0

theorem wrap32_add (x y : ℤ) : wrap32 (wrap32 x + y) = wrap32 (x + y) := Int.bmod_add_bmod

theorem turn_total (i : Input) {others : ℤ} (h : s.total = wrap32 (s.next - s.deleted.length + (p.owed + others))) :
    (turn pool i s p).2.total =
      wrap32 ((turn pool i s p).2.next - (turn pool i s p).2.deleted.length + ((turn pool i s p).1.owed + others)) := by
  cases p with
  | locking nowMs =>
    simp only [turn, owed, sub_self]
    exact h
  | deleting invalid size ptr =>
    cases invalid with
    | nil =>
      cases ptr with
      | none | some d =>
        simp only [turn, owed, h, sub_eq_add_neg, wrap32_add]
        simp
        ring_nf
    | cons d invalid =>
      simp only [turn, owed, h]
      push_cast [length_cons]
      ring_nf
  | connecting =>
    simp only [turn]
    split_ifs
    · simp only [owed, h]
      push_cast
      ring_nf
    · exact h
  | counting d =>
    simp only [turn, owed, h, wrap32_add]
    ring_nf
  | borrowed d =>
    simp only [turn]
    split_ifs
    · exact h
    · exact h
  | dropping d =>
    simp only [turn, owed, h]
    push_cast [length_cons]
    ring_nf
  | returning d | done => exact h
  | decrementing =>
    simp only [turn, owed, h, sub_eq_add_neg, wrap32_add]
    ring_nf

/-! ## The counters of a connection -/

/-- it may be handed out once more -/
def HttpConnection.Reusable (conn : HttpConnection) : Prop :=
  conn.handed = conn.request.toNat ∧ conn.request.toNat < pool.maxRequest.toNat

/-- what a call knows of the connection it has -/
def Phase.Knows (info : ℕ → HttpConnection) : Phase → Prop
  | .deleting _ _ (some c) | .returning c => (info c).Reusable pool
  | .counting c => (info c).handed = 0 ∧ (info c).request = 0
  | .borrowed c => (info c).handed = (info c).request.toNat + 1 ∧
      ((info c).request = 0 ∨ (info c).request.toNat < pool.maxRequest.toNat)
  | .locking _ | .deleting _ _ none | .connecting | .dropping _ | .decrementing | .done => True

end

theorem Phase.Knows.congr {info info' : ℕ → HttpConnection} (h : p.Knows pool info)
    (hsame : ∀ c ∈ p.holds, info' c = info c) : p.Knows pool info' := by
  cases p with
  | deleting invalid size ptr =>
    cases ptr with
    | none => trivial
    | some c =>
      rw [Knows, hsame c (by simp [holds])]
      exact h
  | counting c | borrowed c | returning c =>
    rw [Knows, hsame c (mem_singleton.2 rfl)]
    exact h
  | locking _ | connecting | dropping _ | decrementing | done => trivial

theorem turn_info (pool : HttpConnectionPool) (i : Input) (s : State) {c : ℕ} (hold : c ∉ p.holds) (hnew : c ≠ s.next) :
    (turn pool i s p).2.info c = s.info c := by
  cases p with
  | deleting invalid size ptr =>
    cases invalid with
    | nil =>
      cases ptr with
      | none => rfl
      | some d =>
        have hne : c ≠ d := fun heq => hold (by simp [holds, heq])
        exact update_of_ne hne _ _
    | cons d invalid => rfl
  | connecting =>
    simp only [turn]
    split_ifs
    · exact update_of_ne hnew _ _
    · rfl
  | counting d | borrowed d =>
    have hne : c ≠ d := fun heq => hold (mem_singleton.2 heq)
    exact update_of_ne hne _ _
  | locking _ | dropping _ | returning _ | decrementing | done => rfl

/-- the counters of all connections and of those that are idle -/
structure Counters (pool : HttpConnectionPool) (s : State) : Prop where
  idle : ∀ c ∈ s.conns, (s.info c).Reusable pool
  bound : ∀ c, (s.info c).handed ≤ max 1 pool.maxRequest.toNat

theorem Counters.update (h : Counters pool s) {c : ℕ} (hc : c ∉ s.conns) (conn : HttpConnection)
    (hconn : conn.handed ≤ max 1 pool.maxRequest.toNat) {t : State} (hconns : t.conns = s.conns)
    (hinfo : t.info = update s.info c conn) : Counters pool t where
  idle d hd := by
    rw [hconns] at hd
    have hne : d ≠ c := fun heq => hc (heq ▸ hd)
    rw [hinfo, update_of_ne hne]
    exact h.idle d hd
  bound d := by
    rw [hinfo]
    by_cases heq : d = c
    · rw [heq, update_self]
      exact hconn
    · rw [update_of_ne heq]
      exact h.bound d

theorem reusable_of_kept {conn : HttpConnection} (hhanded : conn.handed = conn.request.toNat + 1)
    (hrequest : conn.request = 0 ∨ conn.request.toNat < pool.maxRequest.toNat)
    (hkept : ¬ conn.request + 1 ≥ pool.maxRequest.toUInt64) :
    { conn with request := conn.request + 1 }.Reusable pool := by
  have hmax := pool.maxRequest.toNat_lt
  have hlt : (conn.request + 1).toNat < pool.maxRequest.toNat := by
    rw [ge_iff_le, UInt64.le_iff_toNat_le, not_le] at hkept
    exact hkept
  have hsucc : (conn.request + 1).toNat = conn.request.toNat + 1 := by
    have hone : (1 : UInt64).toNat = 1 := rfl
    rw [UInt64.toNat_add]
    rcases hrequest with hzero | hbelow
    · rw [hzero]
      decide
    · omega
  exact ⟨hhanded.trans hsucc.symm, hlt⟩

theorem turn_keeps (pool : HttpConnectionPool) (i : Input) (h : Counters pool s) (hknows : p.Knows pool s.info)
    (hnext : s.next ∉ s.conns) (hold : ∀ c ∈ p.holds, c ∉ s.conns) :
    (turn pool i s p).1.Knows pool (turn pool i s p).2.info ∧ Counters pool (turn pool i s p).2 := by
  cases p with
  | locking nowMs =>
    have happ := popIdle_append pool s.info i.connected nowMs s.conns
    rcases hpop : popIdle pool s.info i.connected nowMs s.conns with ⟨invalid, ptr, conns⟩
    rw [hpop] at happ
    have hsub : ∀ c, c ∈ ptr.toList ∨ c ∈ conns → c ∈ s.conns := by
      intro c hc
      rw [← happ, mem_append, mem_append]
      rcases hc with hc | hc
      · exact .inl (.inr hc)
      · exact .inr hc
    simp only [turn, hpop]
    refine ⟨?_, fun c hc => h.idle c (hsub c (.inr hc)), h.bound⟩
    cases ptr with
    | none => trivial
    | some c => exact h.idle c (hsub c (.inl (by simp)))
  | deleting invalid size ptr =>
    cases invalid with
    | nil =>
      cases ptr with
      | none => exact ⟨trivial, h.idle, h.bound⟩
      | some c =>
        obtain ⟨hhanded, hlt⟩ := hknows
        have hc : c ∉ s.conns := hold c (by simp [holds])
        refine ⟨?_, h.update hc _ (show (s.info c).handed + 1 ≤ _ by omega) rfl rfl⟩
        simp only [turn, Knows, update_self]
        exact ⟨by rw [hhanded], .inr hlt⟩
    | cons d invalid => exact ⟨by cases ptr <;> exact hknows, h.idle, h.bound⟩
  | connecting =>
    simp only [turn]
    split_ifs
    · refine ⟨?_, h.update hnext _ (Nat.zero_le _) rfl rfl⟩
      simp [Knows]
    · exact ⟨trivial, h⟩
  | counting c =>
    obtain ⟨hhanded, hrequest⟩ := hknows
    have hc : c ∉ s.conns := hold c (mem_singleton.2 rfl)
    refine ⟨?_, h.update hc _ (show (s.info c).handed + 1 ≤ _ by omega) rfl rfl⟩
    simp only [turn, Knows, update_self, hhanded]
    exact ⟨by rw [hrequest]; rfl, .inl hrequest⟩
  | borrowed c =>
    obtain ⟨hhanded, hrequest⟩ := hknows
    have hc : c ∉ s.conns := hold c (mem_singleton.2 rfl)
    refine ⟨?_, h.update hc { s.info c with request := (s.info c).request + 1 } (h.bound c) rfl rfl⟩
    simp only [turn]
    split_ifs with hdrop
    · trivial
    · rw [not_or, not_or] at hdrop
      simp only [Knows, update_self]
      exact reusable_of_kept hhanded hrequest hdrop.2.2
  | returning c =>
    refine ⟨trivial, ?_, h.bound⟩
    exact forall_mem_append.2 ⟨h.idle, forall_mem_singleton.2 hknows⟩
  | dropping c | decrementing => exact ⟨trivial, h.idle, h.bound⟩
  | done => exact ⟨trivial, h⟩

/-! ## The invariant -/

structure Inv (pool : HttpConnectionPool) (s : State) : Prop where
  places : ∀ c, s.places c = created s.next c
  total : s.total = wrap32 (s.next - s.deleted.length + (s.calls.map owed).sum)
  knows : ∀ p ∈ s.calls, p.Knows pool s.info
  counters : Counters pool s

theorem created_le (n c : ℕ) : created n c ≤ 1 := by
  unfold created
  split_ifs
  · exact le_rfl
  · exact Nat.zero_le 1

theorem Inv.alone (h : Inv pool s) {k c : ℕ} (hk : s.calls[k]? = some p) (hc : c ∈ p.holds) :
    c < s.next ∧ c ∉ s.conns ∧ ∀ j q, j ≠ k → s.calls[j]? = some q → c ∉ q.holds := by
  have hplaces := h.places c
  have hone := created_le s.next c
  have hp : 0 < p.holds.count c := count_pos_iff.2 hc
  have hsum : p.holds.count c ≤ (s.calls.map fun p => p.holds.count c).sum :=
    le_sum_of_mem (mem_map.2 ⟨p, mem_of_getElem? hk, rfl⟩)
  unfold State.places at hplaces
  refine ⟨?_, ?_, ?_⟩
  · by_contra hge
    rw [created, if_neg hge] at hplaces
    omega
  · intro hidle
    have := count_pos_iff.2 hidle
    omega
  intro j q hj hq hcq
  have hpos := count_pos_iff.2 hcq
  have htwo := add_le_sum_map (fun p : Phase => p.holds.count c) hj hq hk
  omega

theorem Inv.next_not_idle (h : Inv pool s) : s.next ∉ s.conns := by
  intro hidle
  have hplaces := h.places s.next
  have := count_pos_iff.2 hidle
  rw [State.places, created, if_neg (lt_irrefl _)] at hplaces
  omega

theorem init_inv (pool : HttpConnectionPool) : Inv pool State.init where
  places _ := rfl
  total := rfl
  knows _ hp := absurd hp not_mem_nil
  counters := ⟨fun _ hc => absurd hc not_mem_nil, fun _ => Nat.zero_le _⟩

theorem step_call (h : Inv pool s) (nowMs : UInt64) : Inv pool (step pool s (.call nowMs)) where
  places c := by
    have hplaces := h.places c
    unfold State.places at hplaces ⊢
    simp only [step, map_append, sum_append, map_singleton, sum_singleton, holds, count_nil]
    exact hplaces
  total := by
    simp only [step, map_append, sum_append, map_singleton, sum_singleton, owed, add_zero]
    exact h.total
  knows p hp := by
    rcases mem_append.1 hp with hp | hp
    · exact h.knows p hp
    · rw [mem_singleton.1 hp]
      trivial
  counters := ⟨h.counters.idle, h.counters.bound⟩

theorem step_advance (h : Inv pool s) {k : ℕ} (hk : s.calls[k]? = some p) (i : Input) :
    Inv pool { (turn pool i s p).2 with calls := s.calls.set k (turn pool i s p).1 } := by
  have hmem := mem_of_getElem? hk
  obtain ⟨hknows, hcounters⟩ :=
    turn_keeps pool i h.counters (h.knows p hmem) h.next_not_idle fun c hc => (h.alone hk hc).2.1
  refine ⟨?_, ?_, ?_, ⟨hcounters.idle, hcounters.bound⟩⟩
  · intro c
    have hplaces := h.places c
    have hturn := turn_places pool i s p c
    have hsum := sum_map_set (fun p : Phase => p.holds.count c) hk (turn pool i s p).1
    unfold State.places at hplaces ⊢
    simp only at hsum ⊢
    omega
  · have hsum := sum_map_set owed hk (turn pool i s p).1
    have htotal := h.total
    have hothers : (s.calls.map owed).sum = p.owed + ((s.calls.map owed).sum - p.owed) := by ring
    rw [hothers] at htotal
    have hturn := turn_total pool i htotal
    have hnew : ((s.calls.set k (turn pool i s p).1).map owed).sum =
        (turn pool i s p).1.owed + ((s.calls.map owed).sum - p.owed) := by linarith
    simp only [hnew]
    exact hturn
  · intro q hq
    obtain ⟨j, hj⟩ := mem_iff_getElem?.1 hq
    by_cases hjk : j = k
    · subst hjk
      rw [List.getElem?_set_self (List.getElem?_eq_some_iff.1 hk).1] at hj
      rw [← Option.some.inj hj]
      exact hknows
    · rw [getElem?_set_ne (Ne.symm hjk)] at hj
      -- what another call holds is not touched
      refine (h.knows q (mem_of_getElem? hj)).congr fun c hc => ?_
      obtain ⟨hlt, -, hother⟩ := h.alone hj hc
      exact turn_info pool i s (hother k p (Ne.symm hjk) hk) hlt.ne

section

variable (pool : HttpConnectionPool)

theorem step_inv (s : State) (o : Op) (h : Inv pool s) : Inv pool (step pool s o) := by
  cases o with
  | call nowMs => exact step_call h nowMs
  | advance k i =>
    cases hk : s.calls[k]? with
    | none =>
      simp only [step, hk]
      exact h
    | some p =>
      simp only [step, hk]
      exact step_advance h hk i

/-- the state after any interleaving -/
def reach (ops : List Op) : State := run (step pool) State.init ops

theorem reach_inv (ops : List Op) : Inv pool (reach pool ops) :=
  run_inv_of_step (step_inv pool) State.init ops (init_inv pool)

end

/-! ## Ownership -/

/-- no call is in progress: each has returned, and its pointer is still held or its release over -/
def State.Quiet (s : State) : Prop := ∀ p ∈ s.calls, (∃ c, p = .borrowed c) ∨ p = .done

/-- how many connections are not deleted -/
def State.live (s : State) : ℕ := ((Finset.range s.next).filter (· ∉ s.deleted)).card

theorem Inv.live_eq (h : Inv pool s) : (s.live : ℤ) = s.next - s.deleted.length := by
  have hcount : ∀ c, s.deleted.count c ≤ created s.next c := by
    intro c
    rw [← h.places c]
    exact Nat.le_add_left _ _
  have hnodup : s.deleted.Nodup := nodup_iff_count_le_one.2 fun c => (hcount c).trans (created_le _ _)
  have hsub : s.deleted.toFinset ⊆ Finset.range s.next := by
    intro c hc
    have hpos := count_pos_iff.2 (mem_toFinset.1 hc)
    have hle := hcount c
    by_contra hge
    rw [Finset.mem_range] at hge
    rw [created, if_neg hge] at hle
    omega
  have hfilter : (Finset.range s.next).filter (· ∉ s.deleted) = Finset.range s.next \ s.deleted.toFinset := by
    ext c
    simp
  have hcard : s.deleted.toFinset.card = s.deleted.length := toFinset_card_of_nodup hnodup
  have hle := Finset.card_le_card hsub
  rw [Finset.card_range] at hle
  rw [State.live, hfilter, Finset.card_sdiff_of_subset hsub, Finset.card_range]
  omega

theorem State.Quiet.owed (h : s.Quiet) : (s.calls.map owed).sum = 0 := by
  refine sum_eq_zero fun x hx => ?_
  obtain ⟨p, hp, rfl⟩ := mem_map.1 hx
  rcases h p hp with ⟨c, rfl⟩ | rfl
  · rfl
  · rfl

theorem Inv.total_quiet (h : Inv pool s) (hq : s.Quiet) : s.total = wrap32 s.live := by
  rw [h.total, hq.owed, add_zero, h.live_eq]

/-- **Ownership.** -/
theorem pool_ownership (pool : HttpConnectionPool) (ops : List Op) :
    (∀ c < (reach pool ops).next, (reach pool ops).places c = 1) ∧
      ((reach pool ops).Quiet → (reach pool ops).live < 2 ^ 31 → (reach pool ops).total = (reach pool ops).live) ∧
      ∀ c, ((reach pool ops).info c).handed ≤ max 1 pool.maxRequest.toNat := by
  have hinv := reach_inv pool ops
  refine ⟨?_, ?_, hinv.counters.bound⟩
  · intro c hc
    rw [hinv.places, created, if_pos hc]
  · intro hq hlive
    rw [hinv.total_quiet hq]
    exact Int.bmod_eq_of_le (by omega) (by omega)

/-! ## More borrowers than an `int32_t` counts -/

/-- nothing fails -/
def ready : Input := ⟨0, fun _ => true, true⟩

/-- the steps of a call that finds no idle connection and makes one -/
def borrowOps (k : ℕ) : List Op := [.call 0, .advance k ready, .advance k ready, .advance k ready, .advance k ready]

/-- `n` borrowers, one after the other -/
def borrowAll (n : ℕ) : List Op := (range n).flatMap borrowOps

/-- nothing is idle or deleted, and each call has got the connection it made -/
structure AllBorrowed (n : ℕ) (s : State) : Prop where
  conns : s.conns = []
  deleted : s.deleted = []
  next : s.next = n
  calls : s.calls = (range n).map borrowed

/-- the same with one more call, which has not got its connection yet -/
structure Borrowing (n : ℕ) (p : Phase) (next : ℕ) (s : State) : Prop where
  conns : s.conns = []
  deleted : s.deleted = []
  next : s.next = next
  calls : s.calls = (range n).map borrowed ++ [p]

variable {n : ℕ} (pool : HttpConnectionPool)

theorem Borrowing.step {next next' : ℕ} {q : Phase} {t : State} (h : Borrowing n p next s)
    (hturn : turn pool ready s p = (q, t)) (hconns : t.conns = []) (hdeleted : t.deleted = [])
    (hnext : t.next = next') :
    Borrowing n q next' (ConnectionPool.step pool s (.advance n ready)) := by
  have hlen : ((range n).map borrowed).length = n := by rw [length_map, length_range]
  have hk : s.calls[n]? = some p := by
    rw [h.calls, getElem?_append_right hlen.le, hlen, Nat.sub_self]
    rfl
  have hset : s.calls.set n q = (range n).map borrowed ++ [q] := by
    rw [h.calls, set_append_right _ _ hlen.le, hlen, Nat.sub_self, set_cons_zero]
  simp only [ConnectionPool.step, hk, hturn]
  exact ⟨hconns, hdeleted, hnext, hset⟩

theorem borrow_next (h : AllBorrowed n s) : AllBorrowed (n + 1) (run (step pool) s (borrowOps n)) := by
  have hcall : Borrowing n (.locking 0) n (step pool s (.call 0)) :=
    ⟨h.conns, h.deleted, h.next, congrArg (· ++ [locking 0]) h.calls⟩
  have hnone : turn pool ready (step pool s (.call 0)) (.locking 0) =
      (.deleting [] 0 none, { step pool s (.call 0) with conns := [] }) := by
    simp [turn, hcall.conns, popIdle]
  have hlock := hcall.step pool hnone rfl hcall.deleted hcall.next
  have hempty := hlock.step pool rfl hlock.conns hlock.deleted hlock.next
  have hmade := hempty.step pool rfl hempty.conns hempty.deleted (congrArg Nat.succ hempty.next)
  have hcounted := hmade.step pool rfl hmade.conns hmade.deleted hmade.next
  have hcalls := hcounted.calls
  rw [hempty.next] at hcalls
  refine ⟨hcounted.conns, hcounted.deleted, hcounted.next, ?_⟩
  rw [range_succ, map_append]
  exact hcalls

theorem borrowAll_borrowed (n : ℕ) : AllBorrowed n (reach pool (borrowAll n)) := by
  induction n with
  | zero => exact ⟨rfl, rfl, rfl, rfl⟩
  | succ n ih =>
    have hsplit : borrowAll (n + 1) = borrowAll n ++ borrowOps n := by
      rw [borrowAll, range_succ, flatMap_append]
      rfl
    rw [reach, hsplit, run_append]
    exact borrow_next pool ih

theorem AllBorrowed.quiet (h : AllBorrowed n s) : s.Quiet := by
  intro p hp
  rw [h.calls] at hp
  obtain ⟨c, -, rfl⟩ := mem_map.1 hp
  exact .inl ⟨c, rfl⟩

theorem AllBorrowed.live (h : AllBorrowed n s) : s.live = n := by
  rw [State.live, h.deleted, h.next]
  simp

theorem total_overflow :
    (reach ⟨0, 1⟩ (borrowAll (2 ^ 31))).Quiet ∧ (reach ⟨0, 1⟩ (borrowAll (2 ^ 31))).live = 2 ^ 31 ∧
      (reach ⟨0, 1⟩ (borrowAll (2 ^ 31))).total = -2 ^ 31 := by
  have hall := borrowAll_borrowed ⟨0, 1⟩ (2 ^ 31)
  refine ⟨hall.quiet, hall.live, ?_⟩
  rw [(reach_inv ⟨0, 1⟩ (borrowAll (2 ^ 31))).total_quiet hall.quiet, hall.live]
  decide

end CoServer.Http.ConnectionPool
