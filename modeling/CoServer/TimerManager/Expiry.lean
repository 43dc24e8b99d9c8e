/-
The timer set is exact: it holds the live timers and nothing else, in strict order of (deadline, address), and
`listExpiredCb` hands out the callback of every live timer that is due, once. Premise `NoWrap`: each sum the step forms
stays below 2^64. Nothing is assumed of the clock.

Results:
- `timers_exact`: that, for any number of threads, any calls and any clock readings, as long as no sum wraps; and a
  cancelled timer is not handed out later.
- `hasTimer_iff`: `hasTimer` is true iff a timer is live, in every run.
-/
import CoServer.TimerManager.Moves

namespace CoServer.TimerManager

open CoServer.Core List St
open CoServer.Core.OrderedSet (Sorted)

theorem hasTimer_iff (now : ℕ) (ops : List Op) : hasTimer (run step (init now) ops) = true ↔
    ∃ id, (run step (init now) ops).live id := by
  simp only [← (inv_run now ops).members, hasTimer, Bool.not_eq_true', isEmpty_eq_false_iff_exists_mem]

/-! ## Deadlines -/

/-- the sums of a time and an interval that the step forms -/
def St.sums (s : St) : Op → List ℕ
  | .construct _ now ms .. => [now + ms]
  | .refresh _ now id => [now + (s.timers id).ms]
  | .resetLocked t now =>
    match s.calls t with
    | .resetting id ms fromNow => [(if fromNow then now else s.base id) + ms]
    | _ => []
  | .expireLocked t _ =>
    match s.calls t with
    | .collecting now _ => (s.set.filter fun id => (s.timers id).recurring).map fun id => now + (s.timers id).ms
    | _ => []
  | _ => []

/-- none of them wraps -/
def NoWrap (s : St) (o : Op) : Prop := ∀ n ∈ s.sums o, n < 2 ^ 64

instance (s : St) (o : Op) : Decidable (NoWrap s o) := by unfold NoWrap; infer_instance

variable {s : St} {ms t : ℕ}

theorem NoWrap.construct {now addr : ℕ} {callback : Option ℕ} {recurring : Bool}
    (h : NoWrap s (.construct t now ms callback recurring addr)) : now + ms < 2 ^ 64 := h _ (mem_singleton_self _)

theorem NoWrap.refresh {now id : ℕ} (h : NoWrap s (.refresh t now id)) : now + (s.timers id).ms < 2 ^ 64 :=
  h _ (mem_singleton_self _)

theorem NoWrap.reset {now id : ℕ} {fromNow : Bool} (h : NoWrap s (.resetLocked t now))
    (ht : s.calls t = .resetting id ms fromNow) : (if fromNow then now else s.base id) + ms < 2 ^ 64 := by
  refine h _ ?_
  simp [sums, ht]

theorem NoWrap.expire {addr now pos : ℕ} (h : NoWrap s (.expireLocked t addr)) (ht : s.calls t = .collecting now pos) :
    ∀ id ∈ s.set, (s.timers id).recurring = true → now + (s.timers id).ms < 2 ^ 64 := by
  intro id hid hr
  refine h _ ?_
  simp only [sums, ht]
  exact mem_map.2 ⟨id, mem_filter.2 ⟨hid, hr⟩, rfl⟩

/-- every deadline is its base plus the interval -/
def Exact (s : St) : Prop :=
  ∀ id, (s.timers id).next = s.base id + (s.timers id).ms ∧ s.base id + (s.timers id).ms < 2 ^ 64

theorem Exact.update {s' : St} (h : Exact s) (id : ℕ)
    (hid : (s'.timers id).next = s'.base id + (s'.timers id).ms ∧ s'.base id + (s'.timers id).ms < 2 ^ 64)
    (hother : ∀ z, z ≠ id → s'.timers z = s.timers z ∧ s'.base z = s.base z) : Exact s' := by
  intro z
  by_cases hz : z = id
  · rw [hz]; exact hid
  · rw [(hother z hz).1, (hother z hz).2]; exact h z

theorem add64_eq {a b : ℕ} (h : a + b < 2 ^ 64) : add64 a b = a + b := Nat.mod_eq_of_lt h

theorem sub64_base {base : ℕ} (h : base + ms < 2 ^ 64) : sub64 (base + ms) ms = base := by
  unfold sub64
  omega

theorem Exact.rearmed (h : Exact s) (now id : ℕ) {base : ℕ} (hw : base + ms < 2 ^ 64) :
    Exact ((s.tick now).rearmed id ms (base + ms) base) := by
  refine h.update id ?_ fun z hz => ?_
  · simpa [St.rearmed, St.setTimer] using hw
  · simp [St.rearmed, St.setTimer, St.tick, hz]

theorem Exact.expire (h : Exact s) (hi : Inv s) (now pos addr : ℕ)
    (hw : ∀ id ∈ s.set, (s.timers id).recurring = true → now + (s.timers id).ms < 2 ^ 64) :
    Exact (expireSection s now pos addr) := by
  by_cases hne : s.set = []
  · rw [expireSection_nil hne]; exact h
  have hexp := hi.expires hne now pos addr
  intro z
  rw [hexp.timers z, hexp.base z]
  by_cases hz : z ∈ s.set.filter (s.isDue now)
  · by_cases hr : (s.timers z).recurring = true
    · have hwz := hw z (mem_filter.1 hz).1 hr
      simpa [hz, hr, Timer.expired, add64_eq hwz] using hwz
    · simpa [hz, hr, Timer.expired] using h z
  · simpa [hz] using h z

theorem Exact.move {s' : St} {o : Op} (h : Exact s) (hi : Inv s) (hm : Move s o s') (hw : NoWrap s o) : Exact s' := by
  cases hm with
  | stay | call | failed | insert | notify | getNextTimer | expire | free => exact h
  | construct now ms callback recurring addr =>
    refine h.update s.nextId ?_ fun z hz => ?_
    · have hsum := hw.construct
      simpa [construct, ret, arm, setTimer, add64_eq hsum] using hsum
    · simp [construct, ret, arm, setTimer, tick, hz]
  | @cancel t id =>
    refine h.update id ?_ fun z hz => ?_
    · simpa [ret, setTimer] using h id
    · simp [ret, setTimer, hz]
  | @refresh t now id =>
    rw [add64_eq hw.refresh]
    exact h.rearmed now id hw.refresh
  | @reset t now id ms fromNow ht =>
    have hstart : (if fromNow = true then now else sub64 (s.timers id).next (s.timers id).ms) =
        if fromNow = true then now else s.base id := by
      rw [(h id).1, sub64_base (h id).2]
    rw [hstart, add64_eq (hw.reset ht)]
    exact h.rearmed now id (hw.reset ht)
  | @collect t now pos addr ht => exact h.expire hi now pos addr (hw.expire ht)

/-! ## Calls of `listExpiredCb` -/

/-- the step by which a call of `listExpiredCb` returns, with the time it read -/
def St.returns (s : St) : Op → Option ℕ
  | .expireTest t =>
    match s.calls t with
    | .expiring now _ => if s.set = [] then some now else none
    | _ => none
  | .expireLocked t _ =>
    match s.calls t with
    | .collecting now _ => some now
    | _ => none
  | _ => none

/-- a rollover is detected: the test is made only when there is a timer -/
def St.detects (s : St) (now : ℕ) : Bool := !s.set.isEmpty && rolledOver s.previousTime now

/-- what a call of `listExpiredCb` at `now` does -/
structure Collects (now : ℕ) (s s' : St) : Prop where
  /-- one copy of the callback of each live timer that is due, and no other -/
  callbacks : ∃ l : List ℕ, s'.fired = s.fired ++ (l.map fun id => (id, (s.timers id).callback)) ∧ l.Nodup ∧
    ∀ id, id ∈ l ↔ s.live id ∧ (s.timers id).next ≤ now
  rearmed : ∀ id, s.live id → (s.timers id).next ≤ now → (s.timers id).recurring = true →
    id ∈ s'.set ∧ s'.timers id = { s.timers id with next := now + (s.timers id).ms }
  spent : ∀ id, s.live id → (s.timers id).next ≤ now → (s.timers id).recurring = false → id ∉ s'.set
  others : ∀ id, ¬ (s.live id ∧ (s.timers id).next ≤ now) → (id ∈ s'.set ↔ id ∈ s.set) ∧ s'.timers id = s.timers id

theorem collects_nil (hi : Inv s) (hset : s.set = []) (now t : ℕ) (c : Call) : Collects now s (s.ret t c) := by
  have hnone : ∀ id, ¬ s.live id := fun id hl => by
    have := (hi.members id).2 hl
    simp [hset] at this
  refine ⟨⟨[], by simp [ret], nodup_nil, fun id => ?_⟩, fun id hl => absurd hl (hnone id),
    fun id hl => absurd hl (hnone id), fun id _ => ⟨Iff.rfl, rfl⟩⟩
  simp [hnone id]

theorem collects_section (hi : Inv s) (hne : s.set ≠ []) {now pos : ℕ} (addr t : ℕ) (c : Call)
    (hw : ∀ id ∈ s.set, (s.timers id).recurring = true → now + (s.timers id).ms < 2 ^ 64)
    (hr : rolledOver s.previousTime now = false) : Collects now s ((expireSection s now pos addr).ret t c) := by
  have hexp := hi.expires hne now pos addr
  have hset := hi.mem_expireSection now pos addr
  have hdue : ∀ id, s.isDue now id = true ↔ (s.timers id).next ≤ now := by simp [isDue, hr]
  have hmem : ∀ id, id ∈ s.set.filter (s.isDue now) ↔ s.live id ∧ (s.timers id).next ≤ now := fun id => by
    rw [mem_filter, hi.members, hdue]
  refine ⟨⟨_, hexp.fired, hi.sorted.nodup.filter _, hmem⟩, fun id hl hle hrec => ⟨?_, ?_⟩, fun id hl hle hrec hin => ?_,
    fun id hnot => ⟨?_, ?_⟩⟩
  · exact (hset id).2 ⟨(hi.members id).2 hl, fun _ => hrec⟩
  · have hwid := hw id ((hi.members id).2 hl) hrec
    refine (hexp.timers id).trans ?_
    rw [if_pos ((hmem id).2 ⟨hl, hle⟩), Timer.expired, if_pos hrec, add64_eq hwid]
  · have := ((hset id).1 hin).2 ((hdue id).2 hle)
    rw [hrec] at this
    cases this
  · refine (hset id).trans ⟨And.left, fun hin => ⟨hin, fun hd => ?_⟩⟩
    exact absurd ⟨(hi.members id).1 hin, (hdue id).1 hd⟩ hnot
  · refine (hexp.timers id).trans ?_
    rw [if_neg fun hin => hnot ((hmem id).1 hin)]

theorem collects_step (hi : Inv s) {o : Op} {now : ℕ} (hw : NoWrap s o) (ho : s.returns o = some now)
    (hd : s.detects now = false) : Collects now s (step s o) := by
  cases o with
  | expireTest t =>
    simp only [returns] at ho
    split at ho
    next now' pos ht =>
      split_ifs at ho with hset
      simp only [step, ht]
      exact collects_nil hi hset now t _
    next => cases ho
  | expireLocked t addr =>
    simp only [returns] at ho
    split at ho
    next now' pos ht =>
      cases ho
      simp only [step, ht]
      by_cases hne : s.set = []
      · rw [expireSection_nil hne]
        exact collects_nil hi hne now t _
      · refine collects_section hi hne addr t _ (hw.expire ht) ?_
        simpa [detects, hne] using hd
    next => cases ho
  | _ => cases ho

/-! ## Cancelled timers -/

theorem fired_move {s' : St} {o : Op} (hi : Inv s) (hm : Move s o s') :
    (∀ id ∈ s.cancelled, id ∈ s'.cancelled) ∧ ∃ l, s'.fired = s.fired ++ l ∧ ∀ e ∈ l, e.1 ∈ s.set := by
  have hsame : ∃ l, s.fired = s.fired ++ l ∧ ∀ e ∈ l, e.1 ∈ s.set := ⟨[], by simp, by simp⟩
  cases hm with
  | cancel => exact ⟨fun id hid => mem_append_left _ hid, hsame⟩
  | @collect t now pos addr =>
    by_cases hne : s.set = []
    · rw [expireSection_nil hne]
      exact ⟨fun _ => id, hsame⟩
    have hexp := hi.expires hne now pos addr
    refine ⟨fun id hid => ?_, _, hexp.fired, fun e he => ?_⟩
    · have hc : (expireSection s now pos addr).cancelled = s.cancelled := by rw [hexp.frame]
      show id ∈ (expireSection s now pos addr).cancelled
      rw [hc]
      exact hid
    · obtain ⟨id, hid, rfl⟩ := mem_map.1 he
      exact (mem_filter.1 hid).1
  | _ => exact ⟨fun _ => id, hsame⟩

/-- what a run keeps of an earlier state: its cancelled timers stay cancelled and are not handed out -/
structure Kept (s₀ s : St) : Prop where
  inv : Inv s
  cancelled : ∀ id ∈ s₀.cancelled, id ∈ s.cancelled
  fired : ∃ l, s.fired = s₀.fired ++ l ∧ ∀ e ∈ l, e.1 ∉ s₀.cancelled

theorem kept_run {s₀ : St} (hi : Inv s₀) (ops : List Op) : Kept s₀ (run step s₀ ops) := by
  refine run_inv_of_step (I := Kept s₀) (fun s o h => ?_) s₀ ops ⟨hi, fun _ => id, [], by simp, by simp⟩
  obtain ⟨hcan, l', hl', hset⟩ := fired_move h.inv (step_move h.inv o)
  obtain ⟨l, hl, hout⟩ := h.fired
  refine ⟨step_inv s o h.inv, fun id hid => hcan id (h.cancelled id hid), l ++ l', ?_, fun e he => ?_⟩
  · rw [hl', hl, append_assoc]
  · rcases mem_append.1 he with he | he
    · exact hout e he
    · exact fun hc => ((h.inv.members e.1).1 (hset e he)).2.1 (h.cancelled e.1 hc)

/-! ## The result -/

/-- a state in which the set is what it should be, and the next return of `listExpiredCb` hands out what it should -/
structure ExactTimers (s : St) : Prop where
  members : ∀ id, id ∈ s.set ↔ s.live id
  ordered : s.set.Pairwise fun a b => less (s.timers a) (s.timers b) = true
  deadlines : ∀ id ∈ s.set, (s.timers id).next = s.base id + (s.timers id).ms
  collects : ∀ o now, NoWrap s o → s.returns o = some now → s.detects now = false → Collects now s (step s o)

/-- **Exact timers.** -/
theorem timers_exact (now₀ : ℕ) (ops : List Op) (hops : Meets step NoWrap (init now₀) ops) :
    ExactTimers (run step (init now₀) ops) ∧
    ∀ n, ∀ id ∈ (run step (init now₀) (ops.take n)).cancelled,
      ∃ later, (run step (init now₀) ops).fired = (run step (init now₀) (ops.take n)).fired ++ later ∧
        id ∉ later.map Prod.fst := by
  have hi := inv_run now₀ ops
  have hexact : Inv (run step (init now₀) ops) ∧ Exact (run step (init now₀) ops) :=
    run_inv (I := fun s => Inv s ∧ Exact s) (fun s o hw h => ⟨step_inv s o h.1, h.2.move h.1 (step_move h.1 o) hw⟩) hops
      ⟨init_inv now₀, fun id => by simp [init]⟩
  refine ⟨⟨hi.members, ?_, fun id _ => (hexact.2 id).1, fun o now => collects_step hi⟩, fun n id hid => ?_⟩
  · exact hi.sorted.imp fun hab => (lt_keyed _ _ _).2 hab
  have hkept := kept_run (inv_run now₀ (ops.take n)) (ops.drop n)
  rw [← run_take_drop] at hkept
  obtain ⟨later, hlater, hout⟩ := hkept.fired
  refine ⟨later, hlater, fun hin => ?_⟩
  obtain ⟨e, he, rfl⟩ := mem_map.1 hin
  exact hout e he hid

/-- a recurring timer, two others of which one is cancelled, and a call of `listExpiredCb` before its write lock -/
def threeTimers : List Op :=
  [.construct 1 0 10 (some 1) true 100, .insert 1, .notify 1, .construct 1 2 5 (some 2) false 200, .insert 1,
   .construct 1 2 8 (some 3) false 300, .insert 1, .cancel 1 2, .expire 1 12, .expireTest 1]

theorem timers_exact_three : Meets step NoWrap (init 0) threeTimers ∧ (run step (init 0) threeTimers).set = [1, 0] ∧
    Collects 12 (run step (init 0) threeTimers) (step (run step (init 0) threeTimers) (.expireLocked 1 400)) :=
  ⟨by decide, by decide, (timers_exact 0 threeTimers (by decide)).1.collects _ 12 (by decide) (by decide) (by decide)⟩

end CoServer.TimerManager
