/-
One call of `FoxThreadPool::check`, with the releases inside it, while the other agents do nothing.

`check` gives a callback to a free thread that is started. From another thread it takes the callback back, and when the
shared pointer goes at the end of the loop's body, `releaseFoxThread` puts the thread behind the other free threads and
checks again. Nothing has changed then but their order. `check` is the call as one function, for counting how deep the
checks inside it are; `alone_check` and `leaves_iff` connect it with the steps `act` of an agent.

Results:
- `check_ends_iff`: the call ends, at most as deep as there are free threads, exactly if the pool is not started, or all
  free threads are started, or there are as many started ones as callbacks. The other agents are idle during the call.
- `alone_check`: the steps of an agent that acts alone lead to the pool that `check` returns, with as many calls inside
  each other.
- `leaves_iff`: an agent that acts alone leaves `check` exactly if the call ends.
- `stopped_thread`: with one callback and one free thread that has stopped the call never ends.
-/
import CoServer.Db.FoxThreadPool

namespace CoServer.Db.FoxPool.State

open List Function

section

variable (s : State) (t cb : ℕ) (free callbacks : List ℕ)

/-- a loop of `check` with a thread that is started: the task keeps the shared pointer -/
def handOver : State :=
  let k := (s.threads t).refs.length
  let s := s.take t free callbacks
  s.setThread t (((s.threads t).dispatchLease k cb).unref k)

/-- a loop of `check` with another thread, and the locked section of `releaseFoxThread` -/
def takeBack : State :=
  let k := (s.threads t).refs.length
  let s := s.take t free callbacks
  { s.setThread t ((s.threads t).unref k) with callbacks := cb :: callbacks, freeFoxThreads := free ++ [t] }

end

/-- `check` within so many calls and loops: how deep the checks inside it were, and the pool after it -/
def check : ℕ → State → Option (ℕ × State)
  | 0, _ => none
  | n + 1, s =>
    match s.start, s.freeFoxThreads, s.callbacks with
    | true, t :: free, cb :: callbacks =>
      if (s.threads t).start then check n (s.handOver t cb free callbacks)
      else (check n (s.takeBack t cb free callbacks)).bind fun r => (check n r.2).map fun r' =>
        (max (r.1 + 1) r'.1, r'.2)
    | _, _, _ => some (0, s)

variable {s : State} {st : ℕ → Bool}

theorem check_of_done (h : s.start = false ∨ s.freeFoxThreads = [] ∨ s.callbacks = []) (n : ℕ) :
    check (n + 1) s = some (0, s) := by
  rw [check]
  split
  · simp_all
  · rfl

theorem check_cases (s : State) : (s.start = false ∨ s.freeFoxThreads = [] ∨ s.callbacks = []) ∨
    ∃ t free cb callbacks, s.start = true ∧ s.freeFoxThreads = t :: free ∧ s.callbacks = cb :: callbacks := by
  by_cases hdone : s.start = false ∨ s.freeFoxThreads = [] ∨ s.callbacks = []
  · exact .inl hdone
  push Not at hdone
  obtain ⟨t, free, hf⟩ := exists_cons_of_ne_nil hdone.2.1
  obtain ⟨cb, callbacks, hcb⟩ := exists_cons_of_ne_nil hdone.2.2
  exact .inr ⟨t, free, cb, callbacks, by simpa using hdone.1, hf, hcb⟩

theorem start_loop (t cb : ℕ) (free callbacks : List ℕ) (hst : ∀ i, (s.threads i).start = st i) (i : ℕ) :
    ((s.handOver t cb free callbacks).threads i).start = st i ∧
      ((s.takeBack t cb free callbacks).threads i).start = st i := by
  by_cases hi : i = t <;>
    simp [handOver, takeBack, State.take, setThread, FoxThread.unref, FoxThread.dispatchLease,
      FoxThread.dispatch, hi, hst]

theorem check_ends (g h : List ℕ) (hst : ∀ i, (s.threads i).start = st i) (hf : s.freeFoxThreads = g ++ h)
    (hg : s.callbacks.length ≤ g.countP st ∨ h = [] ∧ ∀ t ∈ g, st t = true) :
    ∃ n d s', check n s = some (d, s') ∧ d ≤ g.length ∧
      (s'.start = false ∨ s'.freeFoxThreads = [] ∨ s'.callbacks = []) := by
  induction g generalizing s h with
  | nil =>
    have hdone : s.start = false ∨ s.freeFoxThreads = [] ∨ s.callbacks = [] := by
      obtain hc | ⟨rfl, -⟩ := hg
      · exact .inr (.inr (length_eq_zero_iff.1 (Nat.le_zero.1 hc)))
      · exact .inr (.inl hf)
    exact ⟨1, 0, s, check_of_done hdone 0, le_rfl, hdone⟩
  | cons t g ih =>
    rcases check_cases s with hdone | ⟨-, -, cb, callbacks, hs, -, hcb⟩
    · exact ⟨1, 0, s, check_of_done hdone 0, Nat.zero_le _, hdone⟩
    have hloop := start_loop t cb (g ++ h) callbacks hst
    have hcheck (n : ℕ) := check.eq_2 s n
    simp only [hs, hf, hcb, cons_append, hst] at hcheck
    rw [hcb] at hg
    cases hstt : st t with
    | true =>
      obtain ⟨n, d, s', hn, hd, hdone'⟩ :=
        ih h (fun i => (hloop i).1) rfl (by simp_all [handOver, State.take, setThread])
      exact ⟨n + 1, d, s', by simpa [hcheck, hstt] using hn, hd.trans (Nat.le_succ _), hdone'⟩
    | false =>
      obtain ⟨n, d, s', hn, hd, hdone'⟩ :=
        ih (h ++ [t]) (fun i => (hloop i).2) (append_assoc g h [t]) (by simp_all [takeBack])
      cases n with
      | zero => cases hn
      | succ n =>
        refine ⟨n + 2, d + 1, s', ?_, Nat.succ_le_succ hd, hdone'⟩
        simp [hcheck, hstt, hn, check_of_done hdone' n]

theorem check_never_ends (n : ℕ) (hst : ∀ i, (s.threads i).start = st i) (hs : s.start = true)
    (ht : ∃ t ∈ s.freeFoxThreads, st t = false) (hlt : s.freeFoxThreads.countP st < s.callbacks.length) :
    check n s = none := by
  induction n generalizing s with
  | zero => rfl
  | succ n ih =>
    obtain ⟨t, free, hf⟩ := exists_cons_of_ne_nil (ne_nil_of_mem ht.choose_spec.1)
    obtain ⟨cb, callbacks, hcb⟩ := exists_cons_of_ne_nil (ne_nil_of_length_pos (Nat.zero_lt_of_lt hlt))
    have hloop := start_loop t cb free callbacks hst
    rw [hf] at ht hlt
    rw [hcb] at hlt
    rw [check, hs, hf, hcb]
    simp only [hst]
    split_ifs with hstt
    · simp [hstt] at ht hlt
      exact ih (fun i => (hloop i).1) hs ht hlt
    · rw [ih (fun i => (hloop i).2) hs (by simpa [takeBack, or_comm] using ht) (by simpa [takeBack, hstt] using hlt)]
      rfl

/-- **A call of `check`.** It ends, with no more checks inside each other than there are free threads, iff the pool is
not started, all free threads are, or there are enough of them that are. -/
theorem check_ends_iff (s : State) : (∃ n d s', check n s = some (d, s') ∧ d ≤ s.freeFoxThreads.length) ↔
    (s.start = true →
      s.callbacks.length ≤ (s.freeFoxThreads.countP fun t => (s.threads t).start) ∨
      ∀ t ∈ s.freeFoxThreads, (s.threads t).start = true) := by
  constructor
  · rintro ⟨n, d, s', h, -⟩ hs
    by_contra hno
    push Not at hno
    obtain ⟨hlt, t, ht, hst⟩ := hno
    rw [check_never_ends n (fun _ => rfl) hs ⟨t, ht, by simpa using hst⟩ hlt] at h
    cases h
  · intro h
    by_cases hs : s.start = true
    · obtain ⟨n, d, s', hn, hd, -⟩ :=
        check_ends s.freeFoxThreads [] (fun _ => rfl) (append_nil _).symm ((h hs).imp_right (⟨rfl, ·⟩))
      exact ⟨n, d, s', hn, hd⟩
    · exact ⟨1, 0, s, check_of_done (.inl (by simpa using hs)) 0, Nat.zero_le _⟩

/-- one callback, and a free thread that has stopped -/
theorem stopped_thread :
    ¬ ∃ n d s', check n { begun 1 0 1 with threads := fun _ => { started with start := false } } = some (d, s') := by
  rintro ⟨n, d, s', h⟩
  rw [check_never_ends n (fun _ => rfl) rfl ⟨0, by decide⟩ (by decide)] at h
  cases h

/-! ## The call step by step -/

/-- the agent takes so many steps while the others take none; it is in at most `height` calls of the pool at a time -/
inductive Alone (a height : ℕ) : ℕ → State → State → Prop
  | refl (s : State) : Alone a height 0 s s
  | act {i : ℕ} {s s' : State} (hle : ((s.act a).calls a).length ≤ height) (h : Alone a height i (s.act a) s') :
      Alone a height (i + 1) s s'

/-- the agent has entered `check`, with its other calls below -/
abbrev entered (s : State) (a : ℕ) (rest : List Frame) : State := s.setCalls a (.checking :: rest)

variable {s s' s'' : State} {a t cb d n i j height : ℕ} {free callbacks : List ℕ} {rest : List Frame} {r : ℕ × State}

namespace Alone

theorem mono {height' : ℕ} (hle : height ≤ height') (h : Alone a height i s s') : Alone a height' i s s' := by
  induction h with
  | refl s => exact .refl s
  | act hh _ ih => exact .act (hh.trans hle) ih

theorem trans (h : Alone a height i s s') (h' : Alone a height j s' s'') : Alone a height (j + i) s s'' := by
  induction h with
  | refl s => exact h'
  | act hh _ ih => exact .act hh (ih h')

theorem acts (h : Alone a height i s s') : (fun s => s.act a)^[i] s = s' := by
  induction h with
  | refl s => rfl
  | act _ _ ih => exact ih

theorem passed (h : Alone a height i s s') (hin : s'.calls a ≠ []) (hout : ((fun s => s.act a)^[j] s).calls a = []) :
    i < j ∧ ((fun s => s.act a)^[j - i] s').calls a = [] := by
  induction h generalizing j with
  | refl s =>
    refine ⟨Nat.pos_of_ne_zero ?_, hout⟩
    rintro rfl
    exact hin hout
  | @act i s s' _ _ ih =>
    cases j with
    | zero =>
      have hstay : s.act a = s := by simp [State.act, show s.calls a = [] from hout]
      exact absurd (ih (j := 0) hin (by rw [hstay]; exact hout)).1 (Nat.not_lt_zero _)
    | succ j =>
      obtain ⟨hlt, hrest⟩ := ih hin hout
      rw [Nat.add_sub_add_right]
      exact ⟨Nat.succ_lt_succ hlt, hrest⟩

end Alone

section

variable (hs : s.start = true) (hf : s.freeFoxThreads = t :: free) (hcb : s.callbacks = cb :: callbacks)
include hs hf hcb

theorem alone_handOver (hst : (s.threads t).start = true) :
    Alone a (rest.length + 1) 3 (s.entered a rest) ((s.handOver t cb free callbacks).entered a rest) := by
  have hend : ((((s.entered a rest).act a).act a).act a) = (s.handOver t cb free callbacks).entered a rest := by
    simp [act, setCalls, setThread, hs, hf, hcb, State.take, hst, handOver, FoxThread.dispatchLease, FoxThread.dispatch,
      FoxThread.unref, FoxThread.uses]
  refine .act ?_ (.act ?_ (.act ?_ (hend ▸ .refl _)))
  · simp [act, setCalls, setThread, hs, hf, hcb, State.take]
  · simp [act, setCalls, setThread, hs, hf, hcb, State.take, hst]
  · rw [hend]
    simp [setCalls]

theorem alone_takeBack (hst : (s.threads t).start = false) :
    Alone a (rest.length + 2) 4 (s.entered a rest)
    ((s.takeBack t cb free callbacks).entered a (.checking :: rest)) := by
  have hend : (((((s.entered a rest).act a).act a).act a).act a) =
      (s.takeBack t cb free callbacks).entered a (.checking :: rest) := by
    simp [act, setCalls, setThread, hs, hf, hcb, State.take, hst, takeBack, FoxThread.unref, FoxThread.uses]
  refine .act ?_ (.act ?_ (.act ?_ (.act ?_ (hend ▸ .refl _))))
  · simp [act, setCalls, setThread, hs, hf, hcb, State.take]
  · simp [act, setCalls, setThread, hs, hf, hcb, State.take, hst]
  · simp [act, setCalls, setThread, hs, hf, hcb, State.take, hst, FoxThread.unref, FoxThread.uses]
  · rw [hend]
    simp [setCalls]

end

theorem alone_leave (h : s.start = false ∨ s.freeFoxThreads = [] ∨ s.callbacks = []) :
    Alone a rest.length 1 (s.entered a rest) (s.setCalls a rest) := by
  have hact : (s.entered a rest).act a = s.setCalls a rest := by
    rcases h with h | h | h
    · simp [act, setCalls, h]
    · simp [act, setCalls, h]
    · simp only [act, setCalls, update_self, update_idem, h]
      split_ifs
      · cases s.freeFoxThreads with
        | nil | cons t free => rfl
      · rfl
  exact .act (by rw [hact]; simp [setCalls]) (hact ▸ .refl _)

theorem alone_check (a : ℕ) (rest : List Frame) (h : check n s = some (d, s')) :
    ∃ i, Alone a (rest.length + 1 + d) i (s.entered a rest) (s'.setCalls a rest) := by
  induction n generalizing s s' d rest with
  | zero => cases h
  | succ n ih =>
    rcases check_cases s with hdone | ⟨t, free, cb, callbacks, hs, hf, hcb⟩
    · rw [check_of_done hdone] at h
      obtain ⟨rfl, rfl⟩ := Prod.mk.inj (Option.some.inj h)
      exact ⟨1, (alone_leave hdone).mono (by omega)⟩
    simp only [check, hs, hf, hcb] at h
    cases hst : (s.threads t).start with
    | true =>
      rw [if_pos hst] at h
      obtain ⟨i, hi⟩ := ih rest h
      exact ⟨_, ((alone_handOver hs hf hcb hst).mono (by omega)).trans hi⟩
    | false =>
      rw [if_neg (by simp [hst])] at h
      obtain ⟨r, hr, hmap⟩ := Option.bind_eq_some_iff.1 h
      obtain ⟨r', hr', hd⟩ := Option.map_eq_some_iff.1 hmap
      obtain ⟨rfl, rfl⟩ := Prod.mk.inj hd
      obtain ⟨i, hi⟩ := ih (.checking :: rest) hr
      obtain ⟨j, hj⟩ := ih rest hr'
      rw [length_cons] at hi
      exact ⟨_,
        ((alone_takeBack hs hf hcb hst).mono (by omega)).trans ((hi.mono (by omega)).trans (hj.mono (by omega)))⟩

theorem check_mono {m : ℕ} (hle : n ≤ m) (h : check n s = some r) : check m s = some r := by
  induction n generalizing m s r with
  | zero => cases h
  | succ n ih =>
    obtain ⟨m, rfl⟩ : ∃ k, m = k + 1 := ⟨m - 1, by omega⟩
    have hle := Nat.le_of_succ_le_succ hle
    rcases check_cases s with hdone | ⟨t, free, cb, callbacks, hs, hf, hcb⟩
    · rwa [check_of_done hdone] at h ⊢
    simp only [check, hs, hf, hcb] at h ⊢
    split_ifs at h ⊢
    · exact ih hle h
    · obtain ⟨x, hx, hmap⟩ := Option.bind_eq_some_iff.1 h
      obtain ⟨y, hy, rfl⟩ := Option.map_eq_some_iff.1 hmap
      rw [ih hle hx, Option.bind_some, ih hle hy, Option.map_some]

theorem ends_of_acts (j : ℕ) (s : State) (k : ℕ)
    (hout : ((fun s => s.act a)^[j] (s.entered a (replicate k .checking))).calls a = []) :
    ∃ n r, check n s = some r := by
  induction j using Nat.strong_induction_on generalizing s k with
  | _ j ih =>
    have hin : ∀ (s : State) k, (s.entered a (replicate k .checking)).calls a ≠ [] := fun s k => by simp [setCalls]
    rcases check_cases s with hdone | ⟨t, free, cb, callbacks, hs, hf, hcb⟩
    · exact ⟨1, _, check_of_done hdone 0⟩
    cases hst : (s.threads t).start with
    | true =>
      obtain ⟨hlt, hrest⟩ := (alone_handOver hs hf hcb hst).passed (hin _ _) hout
      obtain ⟨n, r, hr⟩ := ih _ (by omega) _ k hrest
      exact ⟨n + 1, r, by simp [check, hs, hf, hcb, hst, hr]⟩
    | false =>
      obtain ⟨hlt, hrest⟩ := (alone_takeBack hs hf hcb hst).passed (hin _ (k + 1)) hout
      obtain ⟨n, r, hr⟩ := ih _ (by omega) _ (k + 1) hrest
      -- the check inside is over; the one around it goes on
      obtain ⟨i, hi⟩ := alone_check a (replicate (k + 1) .checking) hr
      obtain ⟨hlt', hrest'⟩ := hi.passed (hin _ k) hrest
      obtain ⟨m, r', hr'⟩ := ih _ (by omega) _ k hrest'
      refine ⟨max n m + 1, (max (r.1 + 1) r'.1, r'.2), ?_⟩
      simp [check, hs, hf, hcb, hst, check_mono (le_max_left n m) hr, check_mono (le_max_right n m) hr']

theorem leaves_iff (s : State) (a : ℕ) : (∃ j, ((fun s => s.act a)^[j] (s.entered a [])).calls a = []) ↔
    ∃ n r, check n s = some r := by
  constructor
  · rintro ⟨j, hj⟩
    exact ends_of_acts j s 0 hj
  · rintro ⟨n, r, hr⟩
    obtain ⟨i, hi⟩ := alone_check a [] hr
    exact ⟨i, by rw [hi.acts]; exact update_self ..⟩

end CoServer.Db.FoxPool.State
