/-
The notification of an earlier deadline. A thread that has called `getNextTimer` sleeps until the smallest deadline it
saw; `onTimerInsertedAtFront` wakes it when an earlier one appears. The notification is suppressed by the flag
`_tickled`, which `getNextTimer` clears, and `refresh` and the re-arming of recurring timers insert without notifying at
all.

What carries it (`Awake`): the flag stands only for a notification made or about to be made, and as long as there is
none, every deadline of the set is at least some deadline seen by the last `getNextTimer`. `refresh` and the re-arming
only postpone. The last point fails when `listExpiredCb` detects a rollover against a clock reading made before the
lock, though the clock never went back: it then re-arms the recurring timers at its old reading, before their deadlines.

Results:
- `no_lost_timer_wakeup`: while no notification is made or under way, no deadline is before all that the last
  `getNextTimer` saw; in every run with a clock that does not go back in which no sum wraps and no rollover is detected.
- `rearmed_unnotified`: a timer re-armed too early and with no notification, though the clock does not go back and no
  sum wraps.
-/
import CoServer.TimerManager.Expiry

namespace CoServer.TimerManager

open CoServer.Core List St Call

/-! ## Property and conditions -/

/-- the sleeper has been notified, or some thread has released the lock and is about to do it -/
def St.woken (s : St) : Prop := s.notified = true ∨ ∃ t, s.calls t = .notify

/-- if the smallest deadline is earlier than all that the last `getNextTimer` saw, the sleeper is woken -/
def WakeupKept (s : St) : Prop :=
  ∀ ds, s.seen = some ds → ∀ id, s.set.head? = some id → (∀ d ∈ ds, (s.timers id).next < d) → s.woken

/-- the time at which the operation takes place -/
def Op.now : Op → Option ℕ
  | .construct _ now .. | .refresh _ now _ | .resetLocked _ now | .getNextTimer _ now | .expire _ now => some now
  | _ => none

/-- the clock does not go back -/
def Forward (s : St) (o : Op) : Prop := ∀ now ∈ o.now, ∀ c ∈ s.clock, c ≤ now

instance (s : St) (o : Op) : Decidable (Forward s o) := by unfold Forward; infer_instance

/-- the clock does not go back, no sum wraps and no call of `listExpiredCb` detects a rollover -/
def Steady (s : St) (o : Op) : Prop := Forward s o ∧ NoWrap s o ∧ ∀ now ∈ s.returns o, s.detects now = false

instance (s : St) (o : Op) : Decidable (Steady s o) := by unfold Steady; infer_instance

/-! ## Insertion -/

variable {s s' : St}

theorem St.woken.ret (h : s.woken) {t : ℕ} (ht : s.calls t ≠ .notify) (c : Call) : (s.ret t c).woken := by
  rcases h with h | ⟨u, hu⟩
  · exact .inl h
  · have hut : u ≠ t := by rintro rfl; exact ht hu
    exact .inr ⟨u, by simpa [St.ret, hut] using hu⟩

theorem addTimerLocked_woken {t id : ℕ} (hf : Fits s id) (ht : s.calls t ≠ .notify)
    (htick : s.tickled = true → s.woken) :
    (s.woken → (addTimerLocked s t id).woken) ∧
    ((addTimerLocked s t id).tickled = true → (addTimerLocked s t id).woken) ∧
    ((addTimerLocked s t id).woken ∨ ∃ z ∈ s.set, (s.timers z).next ≤ (s.timers id).next) := by
  have hkeep : s.woken → (addTimerLocked s t id).woken := fun h =>
    St.woken.ret (s := { s.insertTimer id with tickled := _ }) h ht _
  cases hk : s.tickled with
  | true =>
    have hw := hkeep (htick hk)
    exact ⟨hkeep, fun _ => hw, .inl hw⟩
  | false =>
    by_cases hfront : (s.insertTimer id).set.head? = some id
    · have hw : (addTimerLocked s t id).woken := by
        refine .inr ⟨t, ?_⟩
        simp [addTimerLocked, ret, hfront, show (s.insertTimer id).tickled = false from hk]
      exact ⟨hkeep, fun _ => hw, .inl hw⟩
    · refine ⟨hkeep, fun h => ?_, .inr (hf.not_front hfront)⟩
      simp [addTimerLocked, ret, hfront, show (s.insertTimer id).tickled = false from hk] at h

/-! ## Readings of the past -/

/-- deadlines count from readings of the past, and so do the sections of `listExpiredCb` -/
structure Clocked (s : St) : Prop where
  based : ∀ id, ∃ c ∈ s.clock, s.base id ≤ c
  readings : ∀ t, ∀ r ∈ (s.calls t).reading, r.1 ∈ s.clock

section

variable (h : Clocked s)
include h

theorem Clocked.tick (now : ℕ) : Clocked (s.tick now) where
  based id := by
    obtain ⟨c, hc, hle⟩ := h.based id
    exact ⟨c, mem_append_left _ hc, hle⟩
  readings t r hr := mem_append_left _ (h.readings t r hr)

theorem Clocked.ret (t : ℕ) {c : Call} (hc : ∀ r ∈ c.reading, r.1 ∈ s.clock) :
    Clocked (s.ret t c) where
  based := h.based
  readings u r hr := by
    rcases ret_calls (s := s) (t := t) (u := u) (c := c) rfl with ⟨-, hu⟩ | ⟨-, hu⟩
    · rw [← hu] at hr
      exact hc r hr
    · rw [← hu] at hr
      exact h.readings u r hr

theorem Clocked.rebase (hclock : s'.clock = s.clock) (hcalls : s'.calls = s.calls)
    (hbase : ∀ id, s'.base id = s.base id ∨ s'.base id ∈ s.clock) : Clocked s' where
  based id := by
    rw [hclock]
    rcases hbase id with hb | hb
    · rw [hb]; exact h.based id
    · exact ⟨_, hb, le_rfl⟩
  readings t r hr := by
    rw [hcalls] at hr
    rw [hclock]
    exact h.readings t r hr

theorem Clocked.rebaseOne {id base : ℕ} (hclock : s'.clock = s.clock) (hcalls : s'.calls = s.calls)
    (hupdate : s'.base = Function.update s.base id base) (hbase : base = s.base id ∨ base ∈ s.clock) : Clocked s' := by
  refine h.rebase hclock hcalls fun z => ?_
  rw [hupdate]
  by_cases hz : z = id
  · subst hz; simpa using hbase
  · simp [hz]

theorem Clocked.move {o : Op} (hi : Inv s) (hm : Move s o s') : Clocked s' := by
  have hlast : ∀ now, now ∈ (s.tick now).clock := fun now => by simp [St.tick]
  cases hm with
  | stay => exact h
  | @call _ t _ hc => exact h.ret t fun r hr => h.readings t r (hc.reading r hr)
  | failed now => exact (h.tick now).ret _ (by simp [reading])
  | construct now ms callback recurring addr | @refresh t now id =>
    refine Clocked.ret ?_ _ (by simp [reading])
    exact (h.tick now).rebaseOne rfl rfl rfl (.inr (hlast now))
  | insert =>
    refine Clocked.ret ?_ _ (by split_ifs <;> simp [reading])
    exact h.rebase rfl rfl fun _ => .inl rfl
  | notify | cancel =>
    refine Clocked.ret ?_ _ (by simp [reading])
    exact h.rebase rfl rfl fun _ => .inl rfl
  | @reset t now id ms fromNow =>
    refine Clocked.ret ?_ _ (by split_ifs <;> simp [reading])
    refine (h.tick now).rebaseOne rfl rfl rfl ?_
    cases fromNow
    · exact .inl rfl
    · exact .inr (hlast now)
  | getNextTimer now =>
    refine Clocked.ret ?_ _ (by simp [reading])
    exact (h.tick now).rebase rfl rfl fun _ => .inl rfl
  | expire now => exact (h.tick now).ret _ (by simp [reading, hlast])
  | @collect t now pos addr ht =>
    have hnow : now ∈ s.clock := h.readings t (now, pos) (by simp [ht, reading])
    refine Clocked.ret ?_ _ (by simp [reading])
    by_cases hne : s.set = []
    · rw [expireSection_nil hne]; exact h
    have hexp := hi.expires hne now pos addr
    refine h.rebase (by rw [hexp.frame]) (by rw [hexp.frame]) fun z => ?_
    rw [hexp.base z]
    split_ifs
    · exact .inr hnow
    · exact .inl rfl
  | free => exact h.rebase rfl rfl fun _ => .inl rfl

end

/-! ## Deadlines seen and deadlines set -/

structure Covered (s : St) : Prop where
  tickled : s.tickled = true → s.woken
  covered : ∀ ds, s.seen = some ds → s.woken ∨ ∀ id ∈ s.set, ∃ d ∈ ds, d ≤ (s.timers id).next

theorem Covered.kept (h : Covered s) : WakeupKept s := by
  intro ds hds id hid hlt
  rcases h.covered ds hds with hw | hcov
  · exact hw
  · obtain ⟨d, hd, hle⟩ := hcov id (mem_of_mem_head? hid)
    exact absurd (hlt d hd) (not_lt.2 hle)

theorem Covered.postpone (h : Covered s) (htick : s'.tickled = s.tickled) (hseen : s'.seen = s.seen)
    (hwoken : s.woken → s'.woken)
    (hset : ∀ id ∈ s'.set, id ∈ s.set ∧ (s.timers id).next ≤ (s'.timers id).next) : Covered s' where
  tickled ht := hwoken (h.tickled (htick ▸ ht))
  covered ds hds := by
    rw [hseen] at hds
    refine (h.covered ds hds).imp hwoken fun hcov id hid => ?_
    obtain ⟨hin, hle⟩ := hset id hid
    obtain ⟨d, hd, hdle⟩ := hcov id hin
    exact ⟨d, hd, hdle.trans hle⟩

theorem Covered.insert (h : Covered s) {t id : ℕ} (hf : Fits s id) (ht : s.calls t ≠ .notify) :
    Covered (addTimerLocked s t id) := by
  obtain ⟨hkeep, htick, hfront⟩ := addTimerLocked_woken hf ht h.tickled
  refine ⟨htick, fun ds hds => ?_⟩
  rcases h.covered ds hds with hw | hcov
  · exact .inl (hkeep hw)
  refine hfront.imp_right fun ⟨z, hz, hle⟩ => ?_
  intro y hy
  rcases (hf.mem_insert y).1 hy with rfl | hy
  · obtain ⟨d, hd, hdle⟩ := hcov z hz
    exact ⟨d, hd, hdle.trans hle⟩
  · exact hcov y hy

theorem Covered.move {o : Op} (h : Covered s) (hi : Inv s) (he : Exact s) (hc : Clocked s) (hm : Move s o s')
    (ho : Steady s o) : Covered s' := by
  obtain ⟨hforward, hwrap, htimely⟩ := ho
  have hfree : ∀ t, (s.calls t).free = true → s.calls t ≠ .notify := fun t => Call.free_settled
  cases hm with
  | stay => exact h
  | call hcont | failed now hcont =>
    exact h.postpone rfl rfl (fun hw => hw.ret hcont.settled _) fun id hid => ⟨hid, le_rfl⟩
  | @construct t now ms callback recurring addr ht =>
    refine h.postpone rfl rfl (fun hw => hw.ret (hfree t ht) _) fun id hid => ⟨hid, le_of_eq ?_⟩
    have hne : id ≠ s.nextId := (hi.added_lt id (hi.mem_added hid)).ne
    simp [construct, ret, arm, setTimer, tick, hne]
  | @insert t id ht =>
    have hadded : Covered { s with added := s.added ++ [id] } := ⟨h.tickled, h.covered⟩
    have hsettled : s.calls t ≠ .notify := by rw [ht]; simp
    exact hadded.insert ⟨hi.sorted, (hi.fits_adding ht).addr⟩ hsettled
  | notify => exact ⟨fun _ => .inl rfl, fun _ _ => .inl (.inl rfl)⟩
  | @cancel t id hcont =>
    refine h.postpone rfl rfl (fun hw => hw.ret hcont.settled _) fun z hz => ?_
    obtain ⟨hne, hz⟩ := (hi.mem_erase z).1 hz
    exact ⟨hz, by simp [ret, setTimer, hne]⟩
  | @refresh t now id hcont hid =>
    refine h.postpone rfl rfl (fun hw => hw.ret hcont.settled _) fun z hz => ?_
    refine ⟨((hi.tick now).mem_rearmed hid _ _ _ z).1 hz, ?_⟩
    by_cases hne : z = id
    · -- counted from now, which is not before the reading the old deadline counts from
      subst hne
      obtain ⟨c, hcm, hle⟩ := hc.based z
      have hnow : s.base z ≤ now := hle.trans (hforward now rfl c hcm)
      calc (s.timers z).next = s.base z + (s.timers z).ms := (he z).1
        _ ≤ now + (s.timers z).ms := Nat.add_le_add_right hnow _
        _ = add64 now (s.timers z).ms := (add64_eq hwrap.refresh).symm
        _ = _ := by simp [ret, insertTimer, rearmed, setTimer]
    · simp [ret, insertTimer, rearmed, setTimer, tick, hne]
  | @reset t now id ms fromNow ht hid =>
    have hrearmed : ∀ next base, Covered ((s.tick now).rearmed id ms next base) := fun next base => by
      refine h.postpone rfl rfl (fun hw => hw) fun z hz => ?_
      obtain ⟨hne, hz⟩ := (hi.mem_erase z).1 hz
      exact ⟨hz, by simp [rearmed, setTimer, tick, hne]⟩
    have hsettled : s.calls t ≠ .notify := by rw [ht]; simp
    exact (hrearmed _ _).insert ((hi.tick now).fits_rearmed hid _ _ _) hsettled
  | getNextTimer now =>
    refine ⟨fun ht => absurd ht Bool.false_ne_true, fun ds hds => .inr fun id hid => ?_⟩
    obtain rfl : (s.set.map fun id => (s.timers id).next) = ds := Option.some.inj hds
    exact ⟨_, mem_map_of_mem hid, le_rfl⟩
  | expire now ht => exact h.postpone rfl rfl (fun hw => hw.ret (hfree _ ht) _) fun id hid => ⟨hid, le_rfl⟩
  | @collect t now pos addr ht =>
    have hsettled : s.calls t ≠ .notify := by rw [ht]; simp
    by_cases hne : s.set = []
    · rw [expireSection_nil hne]
      exact h.postpone rfl rfl (fun hw => hw.ret hsettled _) fun id hid => ⟨hid, le_rfl⟩
    have hroll : rolledOver s.previousTime now = false := by
      have := htimely now (by simp [returns, ht])
      simpa [detects, hne] using this
    have hexp := hi.expires hne now pos addr
    have hcalls : (expireSection s now pos addr).calls = s.calls := by rw [hexp.frame]
    have htick : (expireSection s now pos addr).tickled = s.tickled := by rw [hexp.frame]
    have hseen : (expireSection s now pos addr).seen = s.seen := by rw [hexp.frame]
    refine h.postpone htick hseen (fun hw => ?_) fun z hz => ?_
    · have hsame : (expireSection s now pos addr).woken := by
        rw [hexp.frame]
        exact hw
      exact hsame.ret (by rw [hcalls]; exact hsettled) _
    · have hin := ((hi.mem_expireSection now pos addr z).1 hz).1
      refine ⟨hin, ?_⟩
      show _ ≤ ((expireSection s now pos addr).timers z).next
      rw [hexp.timers z]
      split_ifs with hdue
      · -- the timer was due, and is armed again after now
        have hle : (s.timers z).next ≤ now := by simpa [isDue, hroll] using (mem_filter.1 hdue).2
        unfold Timer.expired
        split_ifs with hrec
        · calc (s.timers z).next ≤ now := hle
            _ ≤ now + (s.timers z).ms := Nat.le_add_right _ _
            _ = add64 now (s.timers z).ms := (add64_eq (hwrap.expire ht z hin hrec)).symm
        · exact le_rfl
      · exact le_rfl
  | free => exact h.postpone rfl rfl (fun hw => hw) fun z hz => ⟨hz, le_rfl⟩

structure Awake (s : St) : Prop where
  inv : Inv s
  exact : Exact s
  clocked : Clocked s
  covered : Covered s

theorem awake_init (now : ℕ) : Awake (init now) where
  inv := init_inv now
  exact := fun id => by simp [init]
  clocked := ⟨fun id => by simp [init], fun t => by simp [init, reading]⟩
  covered := ⟨by simp [init], by simp [init]⟩

theorem awake_step (s : St) (o : Op) (ho : Steady s o) (h : Awake s) : Awake (step s o) :=
  have hm := step_move h.inv o
  ⟨h.inv.move hm, h.exact.move h.inv hm ho.2.1, h.clocked.move h.inv hm, h.covered.move h.inv h.exact h.clocked hm ho⟩

/-! ## Results -/

/-- **No lost timer wakeup**, in every steady run. -/
theorem no_lost_timer_wakeup (now₀ : ℕ) (ops : List Op) (hops : Meets step Steady (init now₀) ops) :
    WakeupKept (run step (init now₀) ops) :=
  (run_inv awake_step hops (awake_init now₀)).covered.kept

/-- a sleeper, then a timer earlier than the one it saw -/
def earlierTimer : List Op :=
  [.construct 1 0 50 (some 1) true 100, .insert 1, .notify 1, .getNextTimer 2 5, .construct 1 6 10 (some 2) false 200,
   .insert 1]

theorem no_lost_timer_wakeup_earlier : Meets step Steady (init 0) earlierTimer ∧
    WakeupKept (run step (init 0) earlierTimer) :=
  ⟨by decide, no_lost_timer_wakeup 0 earlierTimer (by decide)⟩

/-- thread 2 reads the clock in `listExpiredCb` and is delayed; thread 3 expires the timer more than an hour later and
thread 4 goes to sleep; then thread 2 takes the lock -/
def delayedExpiry : List Op :=
  [.construct 1 0 10 (some 1) true 100, .insert 1, .notify 1, .expire 2 5, .expireTest 2, .expire 3 4000000,
    .expireTest 3,
   .expireLocked 3 200, .getNextTimer 4 4000000, .expireLocked 2 200]

/-- **A timer re-armed too early, with no notification.** -/
theorem rearmed_unnotified :
    Meets step (fun s o => Forward s o ∧ NoWrap s o) (init 0) delayedExpiry ∧
    (run step (init 0) delayedExpiry).seen = some [4000010] ∧
    ((run step (init 0) delayedExpiry).timers 0).next = 15 ∧
    ¬ WakeupKept (run step (init 0) delayedExpiry) := by
  refine ⟨by decide, by decide, by decide, fun h => ?_⟩
  rcases h [4000010] (by decide) 0 (by decide) (by decide) with hw | ⟨t, ht⟩
  · exact absurd hw (by decide)
  by_cases ht4 : t ∈ [1, 2, 3, 4]
  · have hnot : ∀ u ∈ [1, 2, 3, 4], (run step (init 0) delayedExpiry).calls u ≠ .notify := by decide
    exact hnot t ht4 ht
  -- the other threads took no step
  have hother : (run step (init 0) delayedExpiry).calls t = .idle := by
    refine calls_run 0 delayedExpiry t fun o ho hot => ht4 ?_
    have hthreads : ∀ o ∈ delayedExpiry, ∀ u ∈ o.thread, u ∈ [1, 2, 3, 4] := by decide
    exact hthreads o ho t hot
  rw [hother] at ht
  cases ht

end CoServer.TimerManager
