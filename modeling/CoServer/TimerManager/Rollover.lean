/-
Early expiry and the rollover test. `listExpiredCb` hands out every timer when the clock is more than an hour behind the
time saved by the last call that found a timer (`_previousTime`). The saved time says nothing about when the timers were
set: a timer set after the clock went back is handed out at the next call, early. Whole calls, one after the other: the
runs of one thread.

What carries it (`Guard`): as long as the readings since a timer was set are in order, the last one does not look rolled
over against the saved time, which is either the one at the setting or a reading made since; a later reading looks
rolled over only if an earlier one did (`rolledOver_mono`).

Results:
- `early_only_if_set_back`: in every run of whole calls that sets deadlines only at times that do not look rolled over,
  a timer is handed out before its deadline only if the clock went back since the deadline was set.
- `early_after_setback`: a timer set at 0 after the clock went back is handed out at 0; its deadline is 1000.
-/
import CoServer.TimerManager.Expiry

namespace CoServer.TimerManager

open CoServer.Core List St Call

/-! ## Property and condition -/

/-- the timers handed out by a step before their deadline: the clock went back since the deadline was set -/
def EarlyOnlyIfSetBack (s : St) (o : Op) : Prop :=
  ∀ now ∈ s.returns o, ∀ id ∈ ((step s o).fired.drop s.fired.length).map Prod.fst,
    now < s.base id + (s.timers id).ms → ¬ (s.clock.drop (s.setAt id)).Pairwise (· ≤ ·)

/-- the time at which an operation sets a deadline -/
def Op.setting : Op → Option ℕ
  | .construct _ now .. | .refresh _ now _ | .resetLocked _ now => some now
  | _ => none

/-- whole calls one after the other; no sum wraps; and a deadline is set at a time that does not look rolled over -/
def Guarded (s : St) (o : Op) : Prop :=
  (∀ t ∈ o.thread, t = 0) ∧ NoWrap s o ∧ ∀ now ∈ o.setting, rolledOver s.previousTime now = false

instance (s : St) (o : Op) : Decidable (Guarded s o) := by unfold Guarded; infer_instance

/-! ## Readings since the deadline was set -/

theorem rolledOver_mono {previousTime a b : ℕ} (hab : a ≤ b) (h : rolledOver previousTime a = false) :
    rolledOver previousTime b = false := by
  simp only [rolledOver, Bool.and_eq_false_iff, decide_eq_false_iff_not, not_lt] at h ⊢
  rcases h with h | h
  · exact .inl (h.trans hab)
  · exact .inr (h.trans hab)

/-- if the readings since the timer was set are in order, the last one does not look rolled over -/
def Safe (s : St) (id : ℕ) : Prop :=
  s.setAt id < s.clock.length ∧
    ((s.clock.drop (s.setAt id)).Pairwise (· ≤ ·) → ∀ c ∈ s.clock.getLast?, rolledOver s.previousTime c = false)

variable {s : St}

theorem Safe.tick {id : ℕ} (h : Safe s id) (now : ℕ) : Safe (s.tick now) id := by
  obtain ⟨hlt, hsafe⟩ := h
  have hdrop : (s.tick now).clock.drop (s.setAt id) = s.clock.drop (s.setAt id) ++ [now] :=
    drop_append_of_le_length hlt.le
  refine ⟨by simp [St.tick]; omega, fun hp c hc => ?_⟩
  change ((s.tick now).clock.drop (s.setAt id)).Pairwise (· ≤ ·) at hp
  rw [hdrop, pairwise_append] at hp
  obtain rfl : now = c := by simpa [St.tick] using hc
  -- the last reading before is one of those since the setting
  obtain ⟨last, hlast⟩ : ∃ last, s.clock.getLast? = some last :=
    ⟨_, getLast?_eq_some_getLast (ne_nil_of_length_pos (by omega))⟩
  have hmem : last ∈ s.clock.drop (s.setAt id) := by
    refine mem_of_getLast? ?_
    rw [getLast?_drop, if_neg (by omega), hlast]
  exact rolledOver_mono (hp.2.2 last hmem now (mem_singleton_self now)) (hsafe hp.1 last hlast)

theorem Safe.congr {s' : St} {id : ℕ} (h : Safe s id) (hset : s'.setAt id = s.setAt id) (hclock : s'.clock = s.clock)
    (hprev : s'.previousTime = s.previousTime) : Safe s' id := by
  unfold Safe
  rw [hset, hclock, hprev]
  exact h

theorem safe_now {id c : ℕ} (hset : s.setAt id + 1 = s.clock.length) (hlast : s.clock.getLast? = some c)
    (hroll : rolledOver s.previousTime c = false) : Safe s id := by
  refine ⟨by omega, fun _ c' hc => ?_⟩
  obtain rfl : c = c' := by simpa [hlast] using hc
  exact hroll

/-! ## The invariant -/

structure Guard (s : St) : Prop where
  safe : ∀ id, id ∈ s.set ∨ s.calls 0 = .adding id → Safe s id
  /-- the time that `listExpiredCb` works with is the last reading -/
  current : ∀ r ∈ (s.calls 0).reading, s.clock.getLast? = some r.1 ∧ r.2 + 1 = s.clock.length

theorem guard_returned {t : ℕ} {c : Call} (ht : t = 0) (hc : ∀ id, c ≠ .adding id) (hr : c.reading = none)
    (h : ∀ id ∈ s.set, Safe s id) : Guard (s.ret t c) where
  safe id hid := by
    rcases hid with hid | hid
    · exact h id hid
    · rcases ret_calls hid with ⟨-, hcid⟩ | ⟨h0, -⟩
      · exact absurd hcid (hc id)
      · exact absurd ht.symm h0
  current r hr' := by
    simp only [ret, ht, Function.update_self, hr] at hr'
    cases hr'

theorem safe_set {s' : St} {id now z : ℕ} (hclock : s'.clock = s.clock ++ [now])
    (hprev : s'.previousTime = s.previousTime) (hat : s'.setAt = Function.update s.setAt id (s'.clock.length - 1))
    (hroll : rolledOver s.previousTime now = false) (hz : z = id ∨ Safe s z) : Safe s' z := by
  by_cases hne : z = id
  · subst hne
    refine safe_now (c := now) ?_ ?_ (hprev ▸ hroll)
    · simp [hat, hclock]
    · simp [hclock]
  · exact ((hz.resolve_left hne).tick now).congr (by simp [hat, hne, tick]) hclock hprev

theorem Guard.move {s' : St} {o : Op} (h : Guard s) (hi : Inv s) (hm : Move s o s') (ho : Guarded s o) : Guard s' := by
  obtain ⟨hsolo, -, hset⟩ := ho
  have hsafe : ∀ id ∈ s.set, Safe s id := fun id hid => h.safe id (.inl hid)
  have hthread : ∀ {t}, o.thread = some t → t = 0 := fun {t} ht => hsolo t ht
  cases hm with
  | stay => exact h
  | call hc =>
    obtain rfl := hthread hc.thread
    refine ⟨fun id hid => ?_, fun r hr => ?_⟩
    · rcases hid with hid | hid
      · exact hsafe id hid
      · rcases ret_calls hid with ⟨-, hcid⟩ | ⟨h0, -⟩
        · exact absurd hcid (hc.adding id)
        · exact absurd rfl h0
    · exact h.current r (hc.reading r hr)
  | failed now hc => exact guard_returned (hthread hc.thread) (by simp) rfl fun id hid => (hsafe id hid).tick now
  | @construct t now ms callback recurring addr =>
    obtain rfl : t = 0 := hthread rfl
    refine ⟨fun id hid => safe_set rfl rfl rfl (hset now rfl) ?_, fun r hr => ?_⟩
    · rcases hid with hid | hid
      · exact .inr (hsafe id hid)
      rcases ret_calls hid with ⟨-, hid⟩ | ⟨h0, -⟩
      · cases hid
        exact .inl rfl
      · exact absurd rfl h0
    · simp [construct, ret, reading] at hr
  | @insert t id ht =>
    obtain rfl : t = 0 := hthread rfl
    refine guard_returned rfl (by intro z; split_ifs <;> simp) (by split_ifs <;> rfl) fun z hz => ?_
    rcases ((hi.fits_adding ht).mem_insert z).1 hz with rfl | hz
    · exact h.safe z (.inr ht)
    · exact hsafe z hz
  | notify => exact guard_returned (hthread rfl) (by simp) rfl hsafe
  | cancel => exact guard_returned (hthread rfl) (by simp) rfl fun z hz => hsafe z ((hi.mem_erase z).1 hz).2
  | @refresh t now id hc hid =>
    refine guard_returned (hthread rfl) (by simp) rfl fun z hz => ?_
    exact safe_set rfl rfl rfl (hset now rfl) (.inr (hsafe z (((hi.tick now).mem_rearmed hid _ _ _ z).1 hz)))
  | @reset t now id ms fromNow ht hid =>
    refine guard_returned (hthread rfl) (by intro z; split_ifs <;> simp) (by split_ifs <;> rfl) fun z hz => ?_
    exact safe_set rfl rfl rfl (hset now rfl) (.inr (hsafe z (((hi.tick now).mem_rearmed hid _ _ _ z).1 hz)))
  | getNextTimer now => exact guard_returned (hthread rfl) (by simp) rfl fun id hid => (hsafe id hid).tick now
  | @expire t now =>
    obtain rfl : t = 0 := hthread rfl
    refine ⟨fun id hid => ?_, fun r hr => ?_⟩
    · rcases hid with hid | hid
      · exact (hsafe id hid).tick now
      · simp [ret] at hid
    · obtain rfl : (now, s.clock.length) = r := by simpa [ret, reading] using hr
      simp [ret, tick]
  | @collect t now pos addr ht =>
    obtain rfl : t = 0 := hthread rfl
    obtain ⟨hlast, hpos⟩ := h.current (now, pos) (by simp [ht, reading])
    refine guard_returned rfl (by simp) rfl fun z hz => ?_
    by_cases hne : s.set = []
    · rw [expireSection_nil hne] at hz ⊢
      exact hsafe z hz
    -- the saved time is the last reading now
    have hexp := hi.expires hne now pos addr
    have hclock : (expireSection s now pos addr).clock = s.clock := by rw [hexp.frame]
    have hprev : (expireSection s now pos addr).previousTime = now := by rw [hexp.frame]
    refine ⟨?_, fun _ c hc => ?_⟩
    · rw [hclock, hexp.setAt z]
      split_ifs
      · exact Nat.lt_of_succ_le hpos.le
      · exact (hsafe z ((hi.mem_expireSection now pos addr z).1 hz).1).1
    · rw [hclock, hlast, Option.mem_some_iff] at hc
      simp [hprev, ← hc, rolledOver]
  | free => exact ⟨h.safe, h.current⟩

/-! ## Results -/

structure Guards (s : St) : Prop where
  inv : Inv s
  exact : Exact s
  guard : Guard s

theorem guards_init (now : ℕ) : Guards (init now) where
  inv := init_inv now
  exact := fun id => by simp [init]
  guard := ⟨fun id => by simp [init], by simp [init, reading]⟩

theorem guards_step (s : St) (o : Op) (ho : Guarded s o) (h : Guards s) : Guards (step s o) :=
  have hm := step_move h.inv o
  ⟨h.inv.move hm, h.exact.move h.inv hm ho.2.1, h.guard.move h.inv hm ho⟩

theorem handed_out (hi : Inv s) {o : Op} {now id : ℕ} (hret : now ∈ s.returns o)
    (hid : id ∈ ((step s o).fired.drop s.fired.length).map Prod.fst) :
    ∃ t pos, o.thread = some t ∧ s.calls t = .collecting now pos ∧ id ∈ s.set ∧ s.isDue now id = true := by
  cases o with
  | expireTest t =>
    -- this return hands out nothing
    have hsame : (step s (.expireTest t)).fired = s.fired := by
      simp only [step]
      split <;> rfl
    simp [hsame] at hid
  | expireLocked t addr =>
    simp only [returns] at hret
    split at hret
    next now' pos ht =>
      obtain rfl : now' = now := Option.some.inj hret
      refine ⟨t, pos, rfl, ht, ?_⟩
      simp only [step, ht] at hid
      by_cases hne : s.set = []
      · simp [expireSection_nil hne, ret] at hid
      · have hfired := (hi.expires hne now' pos addr).fired
        simp only [ret, hfired, drop_left, map_map] at hid
        simpa using hid
    next => cases hret
  | _ => cases hret

/-- **Early only after a setback**, over whole calls that set deadlines at times that do not look rolled over. -/
theorem early_only_if_set_back (now₀ : ℕ) (ops : List Op) (o : Op)
    (hops : Meets step Guarded (init now₀) (ops ++ [o])) :
    EarlyOnlyIfSetBack (run step (init now₀) ops) o := by
  rw [meets_append] at hops
  have h := run_inv guards_step hops.1 (guards_init now₀)
  intro now hret id hid hearly hp
  obtain ⟨t, pos, hot, ht, hset, hdue⟩ := handed_out h.inv hret hid
  obtain rfl : t = 0 := hops.2.1.1 t hot
  obtain ⟨hlast, -⟩ := h.guard.current (now, pos) (by simp [ht, reading])
  have hroll := (h.guard.safe id (.inl hset)).2 hp now hlast
  rw [← (h.exact id).1] at hearly
  simp [isDue, hroll] at hdue
  omega

/-- the clock is set back by 10000 s after the timer was added -/
def setBackAfter : List Op :=
  [.construct 0 10000000 1000 (some 1) false 100, .insert 0, .notify 0, .expire 0 0, .expireTest 0]

theorem early_only_if_set_back_after : Meets step Guarded (init 10000000) (setBackAfter ++ [.expireLocked 0 200]) ∧
    (run step (init 10000000) (setBackAfter ++ [.expireLocked 0 200])).fired = [(0, some 1)] ∧
    EarlyOnlyIfSetBack (run step (init 10000000) setBackAfter) (.expireLocked 0 200) :=
  ⟨by decide, by decide, early_only_if_set_back 10000000 setBackAfter (.expireLocked 0 200) (by decide)⟩

/-- the clock is set back by 10000 s before the timer is added -/
def setBackBefore : List Op :=
  [.construct 0 0 1000 (some 1) false 100, .insert 0, .notify 0, .expire 0 0, .expireTest 0]

/-- **Early with an orderly clock.** -/
theorem early_after_setback :
    Meets step (fun s o => (∀ t ∈ o.thread, t = 0) ∧ NoWrap s o) (init 10000000)
      (setBackBefore ++ [.expireLocked 0 200]) ∧
    (run step (init 10000000) setBackBefore).clock = [10000000, 0, 0] ∧
    (run step (init 10000000) (setBackBefore ++ [.expireLocked 0 200])).fired = [(0, some 1)] ∧
    ¬ EarlyOnlyIfSetBack (run step (init 10000000) setBackBefore) (.expireLocked 0 200) := by
  refine ⟨by decide, by decide, by decide, fun h => ?_⟩
  exact h 0 (by decide) 0 (by decide) (by decide) (by decide)

end CoServer.TimerManager
