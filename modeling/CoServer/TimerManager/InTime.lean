/-
A timer is not returned before its time. A deadline is the sum of a clock reading and an interval, formed in 64 bits,
and `listExpiredCb` returns a timer when its reading has reached the deadline or a rollover is detected.

What carries it (`Waiting`): until the timer is returned its deadline is `c + ms`, and from then on the saved time
(`_previousTime`) is at least that. Sections in order move the saved time forward only, so none of them detects a
rollover.

Results:
- `in_time_iff`: for every way to arm a timer, one-shot or recurring, over whole calls and over sections in order, it is
  in time iff the sum does not wrap.
- `early_by_wrap`: a timer due in 584 million years is returned at once; and with a clock that does not go back and no
  sum that wraps, a delayed thread returns at its reading 0 two timers due at 4001000 and 5000000.
-/
import CoServer.TimerManager.Rollover
import CoServer.TimerManager.Wakeup

namespace CoServer.TimerManager

open CoServer.Core List St Call

/-! ## Property -/

/-- the functions that arm a timer at the current time -/
inductive Arming where
  | addTimer
  | refresh
  | reset
deriving DecidableEq

variable (s : St)

/-- the timer that the step arms, with the clock reading and the interval: the constructor in `addTimer`, or `refresh`
or `reset(ms, true)` of a timer that is still there -/
def St.arms : Op → Option (Arming × ℕ × ℕ × ℕ)
  | .construct t c ms _ _ addr =>
    if (s.calls t).free = true ∧ ∀ i < s.nextId, i ∉ s.freed → (s.timers i).addr ≠ addr then
      some (.addTimer, s.nextId, c, ms)
    else none
  | .refresh t c id =>
    if ((s.calls t).free = true ∧ s.usable id) ∧ (s.timers id).callback ≠ none then
      some (.refresh, id, c, (s.timers id).ms)
    else none
  | .resetLocked t c =>
    match s.calls t with
    | .resetting id ms true => if s.usable id ∧ (s.timers id).callback ≠ none then some (.reset, id, c, ms) else none
    | _ => none
  | _ => none

/-- the user arms the timer again, by `refresh` or by `reset` -/
def St.rearms (id : ℕ) : Op → Prop
  | .refresh _ _ id' => id' = id
  | .resetLocked t _ =>
    match s.calls t with
    | .resetting id' _ _ => id' = id
    | _ => False
  | _ => False

/-- the timers that the step returns to the caller of `listExpiredCb` -/
def St.handsOut (o : Op) : List ℕ := ((step s o).fired.drop s.fired.length).map Prod.fst

/-- in the runs whose steps all meet `ok`, a timer armed at `c` with the interval `ms` is returned only at readings `c +
ms` and later, until the user arms it again -/
def InTime (ok : St → Op → Prop) (how : Arming) (recurring : Bool) (c ms : ℕ) : Prop :=
  ∀ (now₀ : ℕ) (before : List Op) (arm : Op) (after : List Op) (o : Op) (id now : ℕ),
    Meets step ok (init now₀) (before ++ arm :: (after ++ [o])) →
    (run step (init now₀) before).arms arm = some (how, id, c, ms) →
    ((run step (init now₀) (before ++ [arm])).timers id).recurring = recurring →
    Meets step (fun s o => ¬ s.rearms id o) (run step (init now₀) (before ++ [arm])) after →
    (run step (init now₀) (before ++ arm :: after)).returns o = some now →
    id ∈ (run step (init now₀) (before ++ arm :: after)).handsOut o → c + ms ≤ now

/-! ## Conditions -/

/-- readings and intervals are 64-bit values -/
def Op.wide : Op → Prop
  | .construct _ now ms .. => now < 2 ^ 64 ∧ ms < 2 ^ 64
  | .refresh _ now _ | .resetLocked _ now | .getNextTimer _ now | .expire _ now => now < 2 ^ 64
  | .reset _ _ ms _ => ms < 2 ^ 64
  | _ => True

instance (o : Op) : Decidable o.wide := by cases o <;> unfold Op.wide <;> infer_instance

/-- whole calls, one after the other, with a clock that does not go back -/
def WholeCalls (o : Op) : Prop := (∀ t ∈ o.thread, t = 0) ∧ Forward s o ∧ o.wide

instance (s : St) (o : Op) : Decidable (WholeCalls s o) := by unfold WholeCalls; infer_instance

/-- calls of any threads; the sections of `listExpiredCb` come in the order of their readings -/
def InOrder (o : Op) : Prop := Forward s o ∧ o.wide ∧ ∀ now ∈ s.returns o, s.set ≠ [] → s.previousTime ≤ now

instance (s : St) (o : Op) : Decidable (InOrder s o) := by unfold InOrder; infer_instance

/-! ## Whole calls come in order -/

/-- the saved time is a reading of the past, and a call of `listExpiredCb` works with the latest reading -/
structure Paced (s : St) : Prop where
  saved : s.previousTime ∈ s.clock
  latest : ∀ r ∈ (s.calls 0).reading, ∀ c ∈ s.clock, c ≤ r.1

variable {s : St} {o : Op} {c ms : ℕ}

theorem paced_ret {t : ℕ} {c : Call} (ht : t = 0) (hc : c.reading = none) (hs : s.previousTime ∈ s.clock) :
    Paced (s.ret t c) where
  saved := hs
  latest r hr := by
    simp only [ret, ht, Function.update_self, hc] at hr
    cases hr

theorem Paced.move {s' : St} (h : Paced s) (hi : Inv s) (hclocked : Clocked s) (hm : Move s o s')
    (ho : WholeCalls s o) : Paced s' := by
  obtain ⟨hsolo, hforward, -⟩ := ho
  have htick : ∀ now, (s.tick now).previousTime ∈ (s.tick now).clock := fun now => mem_append_left _ h.saved
  have hthread : ∀ {t}, o.thread = some t → t = 0 := fun {t} ht => hsolo t ht
  cases hm with
  | stay => exact h
  | call hc =>
    obtain rfl := hthread hc.thread
    refine ⟨h.saved, fun r hr => h.latest r (hc.reading r ?_)⟩
    simpa only [ret, Function.update_self, Option.mem_def] using hr
  | failed now hc => exact paced_ret (hthread hc.thread) rfl (by exact htick now)
  | construct now | @refresh _ now | getNextTimer now => exact paced_ret (hthread rfl) rfl (by exact htick now)
  | insert => exact paced_ret (hthread rfl) (by split_ifs <;> rfl) (by exact h.saved)
  | notify | cancel => exact paced_ret (hthread rfl) rfl (by exact h.saved)
  | @reset _ now => exact paced_ret (hthread rfl) (by split_ifs <;> rfl) (by exact htick now)
  | @expire t now =>
    obtain rfl : t = 0 := hthread rfl
    refine ⟨htick now, fun r hr c hc => ?_⟩
    obtain rfl : (now, s.clock.length) = r := by simpa [ret, reading] using hr
    rcases mem_append.1 hc with hc | hc
    · exact hforward now rfl c hc
    · exact (mem_singleton.1 hc).le
  | @collect t now pos addr ht =>
    obtain rfl : t = 0 := hthread rfl
    have hnow : now ∈ s.clock := hclocked.readings 0 (now, pos) (by simp [ht, reading])
    refine paced_ret rfl rfl ?_
    by_cases hne : s.set = []
    · rw [expireSection_nil hne]
      exact h.saved
    · rw [(hi.expires hne now pos addr).frame]
      exact hnow
  | free => exact ⟨h.saved, h.latest⟩

structure Sequential (s : St) : Prop where
  inv : Inv s
  clocked : Clocked s
  paced : Paced s

theorem sequential_init (now : ℕ) : Sequential (init now) where
  inv := init_inv now
  clocked := ⟨fun id => by simp [init], fun t => by simp [init, reading]⟩
  paced := ⟨mem_singleton_self now, by simp [init, reading]⟩

theorem sequential_step (s : St) (o : Op) (ho : WholeCalls s o) (h : Sequential s) : Sequential (step s o) :=
  have hm := step_move h.inv o
  ⟨h.inv.move hm, h.clocked.move h.inv hm, h.paced.move h.inv h.clocked hm ho⟩

theorem returns_reading {now : ℕ} (h : s.returns o = some now) : ∃ t pos, o.thread = some t ∧
    (now, pos) ∈ (s.calls t).reading := by
  cases o with
  | expireTest t =>
    simp only [returns] at h
    split at h
    next now' pos ht =>
      split_ifs at h
      cases h
      exact ⟨t, pos, rfl, by simp [ht, reading]⟩
    next => cases h
  | expireLocked t addr =>
    simp only [returns] at h
    split at h
    next now' pos ht =>
      cases h
      exact ⟨t, pos, rfl, by simp [ht, reading]⟩
    next => cases h
  | _ => cases h

theorem Sequential.inOrder (h : Sequential s) (ho : WholeCalls s o) : InOrder s o := by
  refine ⟨ho.2.1, ho.2.2, fun now hret _ => ?_⟩
  obtain ⟨t, pos, hot, hr⟩ := returns_reading hret
  obtain rfl := ho.1 t hot
  exact h.paced.latest (now, pos) hr s.previousTime h.paced.saved

theorem inOrder_of_wholeCalls {now₀ : ℕ} {ops : List Op} (h : Meets step WholeCalls (init now₀) ops) :
    Meets step InOrder (init now₀) ops :=
  h.imp sequential_step (fun _ _ hs ho => hs.inOrder ho) (sequential_init now₀)

/-! ## Waiting for the deadline -/

/-- armed with the deadline `d`: it stands, or it has passed -/
def Waiting (id d : ℕ) (s : St) : Prop := id < s.nextId ∧ ((s.timers id).next = d ∨ d ≤ s.previousTime)

theorem not_rolledOver {previousTime now : ℕ} (h : previousTime ≤ now) : rolledOver previousTime now = false := by
  simp [rolledOver, not_lt.2 h]

theorem Waiting.update {id d : ℕ} {s' : St} (h : Waiting id d s) (hid : s.nextId ≤ s'.nextId)
    (hnext : (s'.timers id).next = (s.timers id).next) (hprev : s'.previousTime = s.previousTime) :
    Waiting id d s' := by
  refine ⟨h.1.trans_le hid, ?_⟩
  rw [hnext, hprev]
  exact h.2

theorem Waiting.move {id d : ℕ} {s' : St} (h : Waiting id d s) (hi : Inv s) (hm : Move s o s')
    (ho : InOrder s o) (hre : ¬ s.rearms id o) : Waiting id d s' := by
  cases hm with
  | stay => exact h
  | call | failed | insert | notify | getNextTimer | expire | free => exact h.update le_rfl rfl rfl
  | construct now ms callback recurring addr =>
    have hne : id ≠ s.nextId := h.1.ne
    exact h.update (Nat.le_succ _) (by simp [construct, ret, arm, setTimer, tick, hne]) rfl
  | @cancel t id' =>
    refine h.update le_rfl ?_ rfl
    exact proj_update Timer.next (by rfl) id
  | @refresh t now id' =>
    have hne : id ≠ id' := fun heq => hre heq.symm
    exact h.update le_rfl (by simp [ret, insertTimer, rearmed, setTimer, tick, hne]) rfl
  | @reset t now id' ms fromNow ht =>
    have hne : id ≠ id' := by
      rintro rfl
      simp [rearms, ht] at hre
    refine h.update le_rfl ?_ rfl
    simp [addTimerLocked, ret, insertTimer, rearmed, setTimer, tick, hne]
  | @collect t now pos addr ht =>
    by_cases hne : s.set = []
    · rw [expireSection_nil hne]
      exact h.update le_rfl rfl rfl
    have hexp := hi.expires hne now pos addr
    have horder : s.previousTime ≤ now := ho.2.2 now (by simp [returns, ht]) hne
    have hprev : (expireSection s now pos addr).previousTime = now := by rw [hexp.frame]
    have hcount : (expireSection s now pos addr).nextId = s.nextId := by rw [hexp.frame]
    refine ⟨h.1.trans_le hcount.ge, ?_⟩
    show ((expireSection s now pos addr).timers id).next = d ∨ d ≤ (expireSection s now pos addr).previousTime
    rw [hprev, hexp.timers id]
    rcases h.2 with hnext | hpast
    · split_ifs with hdue
      · -- returned by this section, at a reading that has reached the deadline
        right
        have hle := (mem_filter.1 hdue).2
        simp [isDue, not_rolledOver horder, hnext] at hle
        exact hle
      · exact Or.inl hnext
    · exact Or.inr (hpast.trans horder)

theorem arms_next (hi : Inv s) {how : Arming} {id : ℕ} (h : s.arms o = some (how, id, c, ms)) :
    id < (step s o).nextId ∧ ((step s o).timers id).next = add64 c ms := by
  cases o with
  | construct t now ms' callback recurring addr =>
    simp only [arms] at h
    split_ifs at h with hg
    cases h
    rw [step, if_pos hg]
    simp [construct, ret, arm]
  | refresh t now id' =>
    simp only [arms] at h
    split_ifs at h with hg
    cases h
    have hset := hi.mem_set hg.1.2.1 hg.2
    rw [step, if_pos hg.1, refreshLocked, if_neg (by exact hg.2), find_own (hi.tick c) hset]
    exact ⟨hi.added_lt id hg.1.2.1, by simp [ret, insertTimer, arm, tick]⟩
  | resetLocked t now =>
    simp only [arms] at h
    split at h
    next id' ms' ht =>
      split_ifs at h with hg
      cases h
      have hset := hi.mem_set hg.1.1 hg.2
      simp only [step, ht, if_pos hg.1]
      rw [resetLocked, if_neg (by exact hg.2), find_own (hi.tick c) hset]
      exact ⟨hi.added_lt id hg.1.1, by simp [addTimerLocked, ret, insertTimer, arm]⟩
    next => cases h
  | _ => cases h

theorem inTime_of_sum {how : Arming} {recurring : Bool} (hsum : c + ms < 2 ^ 64) :
    InTime InOrder how recurring c ms := by
  intro now₀ before arm after o id now hops harms _ hafter hret hout
  rw [meets_append] at hops
  obtain ⟨-, -, hops⟩ := hops
  rw [meets_append] at hops
  obtain ⟨hmid, hlast, -⟩ := hops
  have hi := inv_run now₀ before
  have hrun :
      run step (init now₀) (before ++ arm :: after) = run step (step (run step (init now₀) before) arm) after := by
    rw [run_append, run_cons]
  rw [run_append] at hafter
  rw [hrun] at hret hout
  obtain ⟨hid, hnext⟩ := arms_next hi harms
  rw [add64_eq hsum] at hnext
  have hboth := run_inv (I := fun s => Inv s ∧ Waiting id (c + ms) s)
    (fun s o ho h => ⟨step_inv s o h.1, h.2.move h.1 (step_move h.1 o) ho.1 ho.2⟩) (hmid.and hafter)
    ⟨step_inv _ arm hi, hid, Or.inl hnext⟩
  generalize run step (step (run step (init now₀) before) arm) after = s at *
  obtain ⟨hi, -, hwait⟩ := hboth
  obtain ⟨t, pos, -, -, hset, hdue⟩ := handed_out hi hret hout
  have horder : s.previousTime ≤ now := hlast.2.2 now hret (ne_nil_of_mem hset)
  simp only [isDue, not_rolledOver horder, Bool.false_or, decide_eq_true_eq] at hdue
  rcases hwait with hwait | hwait
  · exact hwait ▸ hdue
  · exact hwait.trans horder

/-! ## A sum that wraps -/

theorem handsOut_due (hi : Inv s) {t now pos id : ℕ} (addr : ℕ) (ht : s.calls t = .collecting now pos)
    (hset : id ∈ s.set) (hdue : s.isDue now id = true) : id ∈ s.handsOut (.expireLocked t addr) := by
  have hfired := (hi.expires (ne_nil_of_mem hset) now pos addr).fired
  simp only [handsOut, step, ht, ret, hfired, drop_left, map_map]
  simpa using ⟨hset, hdue⟩

/-- the calls before the timer is armed, at the reading `c` -/
def callsBefore (c ms : ℕ) (recurring : Bool) : Arming → List Op
  | .addTimer => []
  | .refresh => [.construct 0 c ms (some 1) recurring 100, .insert 0, .notify 0]
  | .reset => [.construct 0 c 0 (some 1) recurring 100, .insert 0, .notify 0, .reset 0 0 ms true]

def armingStep (c ms : ℕ) (recurring : Bool) : Arming → Op
  | .addTimer => .construct 0 c ms (some 1) recurring 100
  | .refresh => .refresh 0 c 0
  | .reset => .resetLocked 0 c

/-- the rest of `addTimer`, and `listExpiredCb` up to its section -/
def callsAfter (c : ℕ) : Arming → List Op
  | .addTimer => [.insert 0, .notify 0, .expire 0 c, .expireTest 0]
  | .refresh | .reset => [.expire 0 c, .expireTest 0]

/-- these calls arm the timer 0 at `c` and come to the section, with the timer in the set -/
structure ArmedRun (how : Arming) (recurring : Bool) (c ms : ℕ) (before : List Op) (arm : Op)
    (after : List Op) : Prop where
  calls : Meets step WholeCalls (init c) (before ++ arm :: (after ++ [.expireLocked 0 200]))
  arms : (run step (init c) before).arms arm = some (how, 0, c, ms)
  recurring : ((run step (init c) (before ++ [arm])).timers 0).recurring = recurring
  kept : Meets step (fun s o => ¬ s.rearms 0 o) (run step (init c) (before ++ [arm])) after
  collecting : ∃ pos, (run step (init c) (before ++ arm :: after)).calls 0 = .collecting c pos
  set : (run step (init c) (before ++ arm :: after)).set = [0]
  next : ((run step (init c) (before ++ arm :: after)).timers 0).next = add64 c ms

theorem armedRun (hc : c < 2 ^ 64) (hms : ms < 2 ^ 64) (how : Arming) (recurring : Bool) :
    ArmedRun how recurring c ms (callsBefore c ms recurring how) (armingStep c ms recurring how)
    (callsAfter c how) := by
  norm_num at hc hms
  cases how <;> constructor <;>
    simp [callsBefore, armingStep, callsAfter, Meets, WholeCalls, Op.thread, Op.wide, Forward, Op.now, arms,
      rearms, hc, hms,
      step, init, construct, addTimerLocked, refreshLocked, resetLocked, ret, arm, setTimer, tick,
      insertTimer, usable, lt, less, free, OrderedSet.insert, OrderedSet.find]

theorem not_inTime_of_wrap {how : Arming} {recurring : Bool} (hc : c < 2 ^ 64) (hms : ms < 2 ^ 64)
    (hsum : 2 ^ 64 ≤ c + ms) : ¬ InTime WholeCalls how recurring c ms := by
  intro h
  have hrun := armedRun hc hms how recurring
  obtain ⟨pos, hcollect⟩ := hrun.collecting
  have hdeadline : add64 c ms ≤ c := by
    unfold add64
    omega
  have hset :
      0 ∈ (run step (init c)
        (callsBefore c ms recurring how ++ armingStep c ms recurring how :: callsAfter c how)).set := by
    rw [hrun.set]
    exact mem_singleton_self 0
  have hout := handsOut_due (inv_run c _) 200 hcollect hset (by simp [isDue, hrun.next, hdeadline])
  have hle := h c _ _ _ _ 0 c hrun.calls hrun.arms hrun.recurring hrun.kept (by simp [returns, hcollect]) hout
  omega

/-! ## The result -/

/-- **In time unless the sum wraps.** -/
theorem in_time_iff (how : Arming) (recurring : Bool) (c ms : ℕ) (hc : c < 2 ^ 64) (hms : ms < 2 ^ 64) :
    (InTime WholeCalls how recurring c ms ↔ c + ms < 2 ^ 64) ∧
      (InTime InOrder how recurring c ms ↔ c + ms < 2 ^ 64) := by
  have hwhole : InTime InOrder how recurring c ms → InTime WholeCalls how recurring c ms :=
    fun h now₀ before arm after o id now hops => h now₀ before arm after o id now (inOrder_of_wholeCalls hops)
  have hwrap : InTime WholeCalls how recurring c ms → c + ms < 2 ^ 64 :=
    fun h => by_contra fun hsum => not_inTime_of_wrap hc hms (not_lt.1 hsum) h
  exact ⟨⟨hwrap, fun h => hwhole (inTime_of_sum h)⟩, ⟨fun h => hwrap (hwhole h), inTime_of_sum⟩⟩

theorem in_time_minute : 60000 < 2 ^ 64 ∧ InTime WholeCalls .addTimer true 1700000000000 60000 :=
  ⟨by norm_num, (in_time_iff .addTimer true 1700000000000 60000 (by norm_num) (by norm_num)).1.2 (by norm_num)⟩

/-- `addTimer` of the largest interval, at the reading 1000, and `listExpiredCb` at the same reading -/
def largestInterval : List Op :=
  [.construct 0 1000 (2 ^ 64 - 1) (some 1) false 100, .insert 0, .notify 0, .expire 0 1000, .expireTest 0]

/-- thread 2 reads the clock in `listExpiredCb` and is delayed; more than an hour later thread 1 adds a timer of 1000 ms
and thread 3 saves the time; then thread 2 takes the lock -/
def delayedSection : List Op :=
  [.construct 1 0 5000000 (some 1) false 100, .insert 1, .notify 1, .expire 2 0, .expireTest 2,
   .construct 1 4000000 1000 (some 2) false 300, .insert 1, .notify 1, .expire 3 4000000, .expireTest 3,
   .expireLocked 3 200]

/-- **Early.** -/
theorem early_by_wrap :
    Meets step WholeCalls (init 1000) (largestInterval ++ [.expireLocked 0 200]) ∧
    (run step (init 1000) largestInterval).returns (.expireLocked 0 200) = some 1000 ∧
    (run step (init 1000) largestInterval).handsOut (.expireLocked 0 200) = [0] ∧
    ¬ InTime WholeCalls .addTimer false 1000 (2 ^ 64 - 1) ∧
    Meets step (fun s o => Forward s o ∧ NoWrap s o) (init 0) (delayedSection ++ [.expireLocked 2 200]) ∧
    (run step (init 0) delayedSection).returns (.expireLocked 2 200) = some 0 ∧
    (run step (init 0) delayedSection).handsOut (.expireLocked 2 200) = [1, 0] := by
  refine ⟨by decide, by decide, by decide, ?_, by decide, by decide, by decide⟩
  exact not_inTime_of_wrap (by norm_num) (by norm_num) (by norm_num)

end CoServer.TimerManager
