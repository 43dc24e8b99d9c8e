/-
Concurrent `setValue` calls on one `ConfigVar` (include/utils/config.h). `setValue` compares and notifies in one
write-locked section and stores in a second one. A thread is between calls, waits for the first section or waits for the
second. `log` is what the callbacks were given, in order.

Results:
- `told_iff_alone`: one step keeps what a registered callback has to be told iff it announces no change while a call is
  between its sections.
- `notifications_iff`: after every step of any interleaving of `setValue` calls, the pairs a registered callback was
  given form a chain from the initial value, and once every call has returned the stored value is the last new one, iff
  no call announces a change while another is between its two sections.
- `overlapping_updates`: two calls are told to replace 0, and the value stored last is the one announced first.
-/
import CoServer.Config.ConfigVar
import CoServer.Core.Update

namespace CoServer.Config

open CoServer.Core List

/-! ## Chains -/

section Chain

variable {T : Type}

/-- the last new value -/
def lastNew (initial : T) (pairs : List (T × T)) : T := pairs.foldl (fun _ p => p.2) initial

/-- each old value is the new one before it, and the first is the initial one -/
def Chained : T → List (T × T) → Prop
  | _, [] => True
  | initial, p :: pairs => p.1 = initial ∧ Chained p.2 pairs

theorem chained_append (initial : T) (pairs : List (T × T)) (old new : T) :
    Chained initial (pairs ++ [(old, new)]) ↔ Chained initial pairs ∧ old = lastNew initial pairs := by
  induction pairs generalizing initial with
  | nil => simp [Chained, lastNew]
  | cons p pairs ih =>
    rw [cons_append, Chained, Chained, ih, and_assoc]
    rfl

theorem lastNew_append (initial : T) (pairs : List (T × T)) (old new : T) :
    lastNew initial (pairs ++ [(old, new)]) = new := by
  rw [lastNew, foldl_append]
  rfl

end Chain

/-! ## Threads -/

/-- where a thread is in `setValue` -/
inductive Phase (T : Type) where
  | idle
  /-- it waits for the first section -/
  | comparing (v : T)
  /-- it waits for the second one -/
  | storing (v : T)

structure State (T C : Type) where
  var : ConfigVar T C
  thread : ℕ → Phase T
  /-- the calls of callbacks -/
  log : List ((UInt64 × C) × T × T)

inductive Move (T : Type) where
  /-- a thread that is between calls calls `setValue` -/
  | setValue (thread : ℕ) (v : T)
  /-- it runs its next section -/
  | enter (thread : ℕ)

namespace State

variable {T C : Type}

/-- the first section -/
def compare [DecidableEq T] (s : State T C) (i : ℕ) (v : T) : State T C :=
  match s.var.notify v with
  | none => { s with thread := Function.update s.thread i .idle }
  | some given => { s with thread := Function.update s.thread i (.storing v), log := s.log ++ given }

def step [DecidableEq T] (s : State T C) : Move T → State T C
  | .setValue i v =>
    match s.thread i with
    | .idle => { s with thread := Function.update s.thread i (.comparing v) }
    | _ => s
  | .enter i =>
    match s.thread i with
    | .idle => s
    | .comparing v => s.compare i v
    | .storing v => { s with thread := Function.update s.thread i .idle, var := s.var.store v }

def init (initial : T) (callbacks : Callbacks C) : State T C := ⟨⟨initial, callbacks⟩, fun _ => .idle, []⟩

/-- the pairs a callback was given -/
def received [DecidableEq C] (s : State T C) (e : UInt64 × C) : List (T × T) :=
  (s.log.filter fun x => x.1 = e).map Prod.snd

/-- the pairs form a chain; when every call has returned, the stored value is the last new one -/
def Told [DecidableEq C] (initial : T) (e : UInt64 × C) (s : State T C) : Prop :=
  Chained initial (s.received e) ∧ ((∀ i, s.thread i = .idle) → s.var.val = lastNew initial (s.received e))

/-- a change is announced only while no call is between its sections -/
def Alone (s : State T C) : Move T → Prop
  | .setValue _ _ => True
  | .enter i => ∀ v, s.thread i = .comparing v → v ≠ s.var.val → ∀ j w, s.thread j ≠ .storing w

/-! ## One change at a time -/

section

variable [DecidableEq C] {initial : T} {e : UInt64 × C} {s : State T C}

/-- a chain that ends in the stored value, or in the one that a single call is about to store -/
structure Follows (initial : T) (e : UInt64 × C) (s : State T C) : Prop where
  registered : e ∈ s.var.callbacks.values
  chained : Chained initial (s.received e)
  last : (∀ j w, s.thread j ≠ .storing w) ∧ s.var.val = lastNew initial (s.received e) ∨
    ∃ j w, s.thread j = .storing w ∧ w ≠ s.var.val ∧ w = lastNew initial (s.received e) ∧
    ∀ j' w', s.thread j' = .storing w' → j' = j

theorem Follows.told (h : Follows initial e s) : Told initial e s := by
  refine ⟨h.chained, fun hidle => ?_⟩
  rcases h.last with ⟨-, hval⟩ | ⟨j, w, hj, -⟩
  · exact hval
  · rw [hidle j] at hj
    cases hj

theorem Follows.update {i : ℕ} {p : Phase T} (h : Follows initial e s) (hi : ∀ w, s.thread i ≠ .storing w)
    (hp : ∀ w, p ≠ .storing w) : Follows initial e { s with thread := Function.update s.thread i p } := by
  have hother : ∀ j w, Function.update s.thread i p j = .storing w ↔ s.thread j = .storing w := by
    intro j w
    constructor
    · intro hj
      rcases update_cases hj with ⟨-, heq⟩ | ⟨-, hj⟩
      · exact absurd heq (hp w)
      · exact hj
    · intro hj
      have hne : j ≠ i := fun heq => hi w (heq ▸ hj)
      rw [Function.update_of_ne hne, hj]
  refine ⟨h.registered, h.chained, ?_⟩
  rcases h.last with ⟨hnone, hval⟩ | ⟨j, w, hj, hw, hlast, hone⟩
  · exact .inl ⟨fun j w hj => hnone j w ((hother j w).1 hj), hval⟩
  · exact .inr ⟨j, w, (hother j w).2 hj, hw, hlast, fun j' w' hj' => hone j' w' ((hother j' w').1 hj')⟩

theorem follows_store {i : ℕ} {v : T} (h : Follows initial e s) (hi : s.thread i = .storing v) :
    Follows initial e { s with thread := Function.update s.thread i .idle, var := s.var.store v } := by
  rcases h.last with ⟨hnone, -⟩ | ⟨j, w, hj, -, hlast, hone⟩
  · exact absurd hi (hnone i v)
  obtain rfl : i = j := hone i v hi
  obtain rfl : v = w := by
    rw [hi] at hj
    exact Phase.storing.inj hj
  refine ⟨h.registered, h.chained, .inl ⟨fun j w hj => ?_, hlast⟩⟩
  rcases update_cases hj with ⟨-, heq⟩ | ⟨hne, hj⟩
  · cases heq
  · exact hne (hone j w hj)

theorem follows_init {callbacks : Callbacks C} (he : e ∈ callbacks.values) :
    Follows initial e (init initial callbacks) :=
  ⟨he, trivial, .inl ⟨fun _ _ => nofun, rfl⟩⟩

end

variable [DecidableEq T]

theorem compare_same {s : State T C} {i : ℕ} {v : T} (hv : v = s.var.val) :
    s.compare i v = { s with thread := Function.update s.thread i .idle } := by
  simp only [compare, ConfigVar.notify, if_pos hv]

variable [DecidableEq C] {initial : T} {e : UInt64 × C} {s : State T C}

theorem received_compare (he : e ∈ s.var.callbacks.values) {i : ℕ} {v : T} (hv : v ≠ s.var.val) :
    (s.compare i v).received e = s.received e ++ [(s.var.val, v)] := by
  have hone :
      (s.var.callbacks.values.map fun x => (x, s.var.val, v)).filter (fun x => x.1 = e) = [(e, s.var.val, v)] := by
    have hnodup : s.var.callbacks.values.Nodup := s.var.callbacks.nodup.of_map _
    have hsame : (fun x : (UInt64 × C) × T × T => decide (x.1 = e)) ∘ (fun x => (x, s.var.val, v)) = fun x =>
        x == e := by
      funext x
      exact (beq_eq_decide x e).symm
    rw [filter_map, hsame, filter_beq, count_eq_one_of_mem hnodup he]
    rfl
  simp only [compare, ConfigVar.notify, if_neg hv, received, filter_append, map_append, hone]
  rfl

theorem follows_announce {i : ℕ} {v : T} (h : Follows initial e s) (hv : v ≠ s.var.val)
    (hnone : ∀ j w, s.thread j ≠ .storing w) : Follows initial e (s.compare i v) := by
  have hval : s.var.val = lastNew initial (s.received e) := by
    rcases h.last with ⟨-, hval⟩ | ⟨j, w, hj, -⟩
    · exact hval
    · exact absurd hj (hnone j w)
  have hstate : (s.compare i v).var = s.var ∧ (s.compare i v).thread = Function.update s.thread i (.storing v) := by
    simp [compare, ConfigVar.notify, if_neg hv]
  obtain ⟨hvar, hthread⟩ := hstate
  refine ⟨hvar ▸ h.registered, ?_, .inr ⟨i, v, ?_, ?_, ?_, ?_⟩⟩
  · rw [received_compare h.registered hv, chained_append]
    exact ⟨h.chained, hval⟩
  · rw [hthread, Function.update_self]
  · rw [hvar]
    exact hv
  · rw [received_compare h.registered hv, lastNew_append]
  intro j w hj
  rw [hthread] at hj
  rcases update_cases hj with ⟨hji, -⟩ | ⟨-, hj⟩
  · exact hji
  · exact absurd hj (hnone j w)

theorem follows_step (m : Move T) (halone : s.Alone m) (h : Follows initial e s) : Follows initial e (s.step m) := by
  cases m with
  | setValue i v =>
    cases hi : s.thread i with
    | idle =>
      simp only [step, hi]
      exact h.update (by simp [hi]) (by simp)
    | comparing _ | storing _ =>
      simp only [step, hi]
      exact h
  | enter i =>
    cases hi : s.thread i with
    | idle =>
      simp only [step, hi]
      exact h
    | comparing v =>
      simp only [step, hi]
      by_cases hv : v = s.var.val
      · rw [compare_same hv]
        exact h.update (by simp [hi]) (by simp)
      · exact follows_announce h hv (halone v hi hv)
    | storing v =>
      simp only [step, hi]
      exact follows_store h hi

theorem alone_of_told (h : Follows initial e s) {m : Move T} (htold : Told initial e (s.step m)) : s.Alone m := by
  cases m with
  | setValue i v => trivial
  | enter i =>
    intro v hi hv j w hj
    have hchain := htold.1
    simp only [step, hi] at hchain
    rw [received_compare h.registered hv, chained_append] at hchain
    rcases h.last with ⟨hnone, -⟩ | ⟨j', w', -, hne, hlast, -⟩
    · exact hnone j w hj
    · exact hne (hlast.trans hchain.2.symm)

theorem told_iff_alone (h : Follows initial e s) (m : Move T) : Told initial e (s.step m) ↔ s.Alone m :=
  ⟨alone_of_told h, fun halone => (follows_step m halone h).told⟩

/-- **Notifications.** -/
theorem notifications_iff (initial : T) (callbacks : Callbacks C) (e : UInt64 × C) (he : e ∈ callbacks.values)
    (moves : List (Move T)) :
    Meets step (fun s m => Told initial e (s.step m)) (init initial callbacks) moves ↔
      Meets step Alone (init initial callbacks) moves :=
  meets_congr (fun _ m halone h => follows_step m halone h) (fun _ m h => told_iff_alone h m) (follows_init he) moves

/-- one callback -/
def oneCallback : Callbacks String := KeyMap.empty.add (0, "a")

/-- a call that finds the value changed and another that finds it stored -/
def serialMoves : List (Move ℤ) := [.setValue 0 1, .enter 0, .enter 0, .setValue 1 2, .enter 1]

theorem notifications_serial : Meets step (fun s m => Told 0 (0, "a") (s.step m)) (init 0 oneCallback) serialMoves := by
  refine (notifications_iff 0 oneCallback (0, "a") (by decide) serialMoves).2 ⟨trivial, ?_, ?_, trivial, ?_, trivial⟩
  · intro _ _ _ j w hj
    rcases j with _ | j <;> cases hj
  · intro v hv
    cases hv
  · intro _ _ _ j w hj
    rcases j with _ | _ | j <;> cases hj

theorem overlapping_updates :
    let s := run step (init 0 oneCallback)
      ([.setValue 0 1, .setValue 1 2, .enter 0, .enter 1, .enter 1, .enter 0] : List (Move ℤ))
    s.received (0, "a") = [(0, 1), (0, 2)] ∧ s.var.val = 1 ∧ ¬ Told 0 (0, "a") s := by
  intro s
  have hreceived : s.received (0, "a") = [(0, 1), (0, 2)] := by decide
  refine ⟨hreceived, by decide, ?_⟩
  rintro ⟨hchain, -⟩
  exact absurd hchain.2.1 (by decide)

end State

end CoServer.Config
