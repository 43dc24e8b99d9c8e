/-
The vector of contexts: does an fd keep its `FdContext`?

`addEvent` tests the size under the read lock and resizes under the write lock, to `fd * 1.5` for ITS fd, without
looking at the size again. Between the two another call may have grown the vector further; the resize then shrinks it,
and the contexts behind the new end are lost to every later lookup, with the events registered on them.

Results:
- `indexed_run`: in every run the context at place `i` of the vector is that of fd `i`, and a call works on the context
  of its own fd.
- `contexts_stay`: in every run in which no resize is to less than the current size (nor to 2^31 and more), once an fd
  has a context every later lookup of the fd finds it, and the vector never shrinks.
- `resize_shrinks`: a late resize for fd 32 cuts off fd 50, whose event is registered; `delEvent` on it returns false.
-/
import CoServer.IOManager.Registration

namespace CoServer.IOManager

open CoServer.Core Function List
open Scheduler (Task FiberState)

/-! ## Contexts and their fds -/

/-- the context at index `i` was made for fd `i`, as was every pointer held by a call on it -/
structure Indexed (s : St) : Prop where
  vec : ∀ (i p : ℕ), s.vec[i]? = some p → (s.ctxs p).fd = i
  held : ∀ t r fd p, s.calls t = .found r fd p → (s.ctxs p).fd = fd

variable {s s' : St} {p : ℕ}

theorem Indexed.of_fd (h : Indexed s) (hfd : ∀ p, (s'.ctxs p).fd = (s.ctxs p).fd) (hv : s'.vec = s.vec)
    (hc : ∀ t r fd p, s'.calls t = .found r fd p → (s.ctxs p).fd = fd) : Indexed s' :=
  ⟨fun i p hp => by rw [hfd]; exact h.vec i p (hv ▸ hp), fun t r fd p hp => by rw [hfd]; exact hc t r fd p hp⟩

theorem update_fd {ctxs : ℕ → FdContext} {c : FdContext} (hc : c.fd = (ctxs p).fd) (q : ℕ) :
    (update ctxs p c q).fd = (ctxs q).fd :=
  proj_update FdContext.fd hc q

theorem release_fd (s : St) (p : ℕ) (e : Event) (x : EventContext) (o : Outcome) (q : ℕ) :
    ((release s p e x o).ctxs q).fd = (s.ctxs q).fd :=
  update_fd (FdContext.assign_fd ..) q

/-- a section leaves the vector and the fds of all contexts alone -/
structure Keeps (s s' : St) : Prop where
  fd : ∀ q, (s'.ctxs q).fd = (s.ctxs q).fd
  vec : s'.vec = s.vec
  nextCtx : s'.nextCtx = s.nextCtx
  aborted : s'.aborted = s.aborted

theorem Triggers.frame {br bw : Bool} (h : Triggers s p br bw s') : Keeps s s' ∧ s'.calls = s.calls ∧
    s'.kernel = s.kernel := by
  refine h.induct (fun s => ⟨⟨fun _ => rfl, rfl, rfl, rfl⟩, rfl, rfl⟩) (fun h₁ h₂ => ?_) fun s e x o _ _ =>
    ⟨⟨release_fd s p e x o, rfl, rfl, rfl⟩, rfl, rfl⟩
  obtain ⟨⟨a1, a2, a3, a4⟩, a5, a6⟩ := h₁
  obtain ⟨⟨b1, b2, b3, b4⟩, b5, b6⟩ := h₂
  exact ⟨⟨fun q => (b1 q).trans (a1 q), b2.trans a2, b3.trans a3, b4.trans a4⟩, b5.trans a5, b6.trans a6⟩

theorem requestSection_frame {t fd : ℕ} {ok : Bool} {r : Request} (h : requestSection s t fd p ok r = .ok s') :
    Keeps s s' ∧ ∃ ok', s'.calls = update s.calls t (.returned ok') := by
  cases requestSection_ok h with
  | failed => exact ⟨⟨fun _ => rfl, rfl, rfl, rfl⟩, _, rfl⟩
  | add hb he hk => exact ⟨⟨update_fd (FdContext.assign_fd ..), rfl, rfl, rfl⟩, _, rfl⟩
  | @release r e x o kernel hr hk hx ho =>
    exact ⟨⟨release_fd { s with kernel := kernel } p e x o, rfl, rfl, rfl⟩, _, rfl⟩
  | all hk ht he =>
    obtain ⟨h1, h2, -⟩ := ht.frame
    exact ⟨⟨h1.fd, h1.vec, h1.nextCtx, h1.aborted⟩, true, by simp only [St.ret, h2]⟩

theorem contextResize_length (s : St) (size : ℕ) : (contextResize s size).vec.length = size := by
  simp only [contextResize, length_append, length_take, length_range']
  omega

theorem contextResize_getElem (s : St) (size i : ℕ) :
    (contextResize s size).vec[i]? =
      if i < (s.vec.take size).length then s.vec[i]?
      else if i < size then some (s.nextCtx + (i - (s.vec.take size).length)) else none := by
  simp only [contextResize]
  by_cases hi : i < (s.vec.take size).length
  · rw [if_pos hi, List.getElem?_append_left hi, getElem?_take_of_lt (by simp at hi; omega)]
  rw [if_neg hi, getElem?_append_right (by omega)]
  by_cases hs : i < size
  · rw [if_pos hs, getElem?_range' (by omega)]
    simp
  · rw [if_neg hs]
    exact getElem?_eq_none (by simp at hi ⊢; omega)

theorem Indexed.resize (h : Indexed s) (hv : ∀ p ∈ s.vec, p < s.nextCtx)
    (hc : ∀ t r fd p, s.calls t = .found r fd p → p < s.nextCtx) (size : ℕ) : Indexed (contextResize s size) := by
  refine ⟨fun i p hp => ?_, fun t r fd p hp => ?_⟩
  · rw [contextResize_getElem] at hp
    split_ifs at hp with h1 h2
    · rw [contextResize_ctxs_lt s size (hv p (mem_of_getElem? hp))]
      exact h.vec i p hp
    cases hp
    rw [contextResize_ctxs_ge s size (Nat.le_add_right _ _)]
    show (s.vec.take size).length + _ = i
    omega
  · rw [contextResize_ctxs_lt s size (hc t r fd p hp)]
    exact h.held t r fd p hp

theorem Indexed.hold (h : Indexed s) {t : ℕ} {c : Call} (hfd : ∀ p, (s'.ctxs p).fd = (s.ctxs p).fd)
    (hv : s'.vec = s.vec) (hc : s'.calls = update s.calls t c)
    (hheld : ∀ r fd p, c = .found r fd p → (s.ctxs p).fd = fd) : Indexed s' := by
  refine h.of_fd hfd hv fun v r fd p hp => ?_
  rw [hc] at hp
  rcases update_cases hp with ⟨-, hp⟩ | ⟨-, hp⟩
  · exact hheld r fd p hp
  · exact h.held v r fd p hp

theorem getElem_of_extends {a b : List ℕ} (h : a <+: b) {i : ℕ} (hp : a[i]? = some p) : b[i]? = some p := by
  obtain ⟨c, rfl⟩ := h
  rw [List.getElem?_append_left (List.getElem?_eq_some_iff.1 hp).1]
  exact hp

theorem lookup_getElem {fd : ℕ} (h : lookup s fd = some p) : s.vec[fd]? = some p := by
  unfold lookup at h
  split_ifs at h
  exact h

theorem step_indexed (s : St) (o : Op) (hb : Books s) (h : Indexed s) : Indexed (step s o) := by
  have hm := step_moves s o
  generalize step s o = s' at hm
  cases hm with
  | same => exact h
  | abort a | reports ho t rs | close fd => exact ⟨h.vec, h.held⟩
  | call t r fd =>
    refine h.hold (t := t) (fun _ => rfl) rfl rfl fun r' fd' p hp => ?_
    obtain ⟨rfl, hl⟩ := afterLookup_found hp
    exact h.vec fd' p (lookup_getElem hl)
  | @resize t fd p a hc hp =>
    have hr := h.resize hb.vec hb.held (resizeTo fd)
    refine hr.hold (t := t) (fun _ => rfl) rfl rfl fun r' fd' q hq => ?_
    cases hq
    exact hr.vec fd p hp
  | enter hc hs =>
    obtain ⟨hkeep, ok', hcalls⟩ := requestSection_frame hs
    exact h.hold hkeep.fd hkeep.vec hcalls (by simp)
  | deliver hm hne hk ht =>
    obtain ⟨hkeep, hcalls, -⟩ := ht.frame
    exact h.of_fd hkeep.fd hkeep.vec fun v r fd p hp => h.held v r fd p (by rwa [hcalls] at hp)

theorem indexed_init : Indexed init := Indexed.resize ⟨by simp, by simp⟩ (by simp) (by simp) 32

theorem indexed_run (ops : List Op) : Indexed (run step init ops) :=
  (run_inv_of_step (I := fun s => Books s ∧ Indexed s)
    (fun s o h => ⟨step_books s o h.1, step_indexed s o h.1 h.2⟩) _ ops
    ⟨books_init, indexed_init⟩).2

/-! ## The vector only grows -/

/-- the fd for which the thread is about to resize -/
def Call.resizing : Call → Option ℕ
  | .resize fd _ => some fd
  | _ => none

/-- no resize is to less than the current size, nor beyond what the `int` comparison can hold -/
def Grows (s : St) : Op → Prop
  | .resize t => ∀ fd ∈ (s.calls t).resizing, s.vec.length ≤ resizeTo fd ∧ resizeTo fd < 2 ^ 31
  | _ => True

instance (s : St) : (o : Op) → Decidable (Grows s o)
  | .resize t => inferInstanceAs
      (Decidable (∀ fd ∈ (s.calls t).resizing, s.vec.length ≤ resizeTo fd ∧ resizeTo fd < 2 ^ 31))
  | .call .. | .enter .. | .wait .. | .deliver .. | .close _ => isTrue trivial

theorem intOfSize_eq {n : ℕ} (h : n < 2 ^ 31) : intOfSize n = n := by
  unfold intOfSize
  omega

/-- the sizes are in range, a call resizes only for an fd behind the end of every earlier vector, and a held pointer is
the one in the vector -/
structure Growing (s : St) : Prop where
  low : 32 ≤ s.vec.length
  high : s.vec.length < 2 ^ 31
  resizing : ∀ t, ∀ fd ∈ (s.calls t).resizing, 32 ≤ fd
  held : ∀ t r fd p, s.calls t = .found r fd p → s.vec[fd]? = some p

theorem Growing.lookup (h : Growing s) (fd : ℕ) : lookup s fd = s.vec[fd]? := by
  unfold IOManager.lookup
  rw [intOfSize_eq h.high]
  split_ifs with hlt
  · rfl
  · rw [getElem?_eq_none (by omega)]

theorem Growing.move (h : Growing s) {t : ℕ} {c : Call} (hv : s.vec <+: s'.vec)
    (hhigh : s'.vec.length < 2 ^ 31) (hc : s'.calls = update s.calls t c)
    (hres : ∀ fd ∈ c.resizing, 32 ≤ fd) (hheld : ∀ r fd p, c = .found r fd p → s'.vec[fd]? = some p) : Growing s' := by
  refine ⟨h.low.trans hv.length_le, hhigh, fun v fd hfd => ?_, fun v r fd p hp => ?_⟩
  · rw [hc] at hfd
    by_cases hvt : v = t
    · rw [hvt, update_self] at hfd; exact hres fd hfd
    · rw [update_of_ne hvt] at hfd; exact h.resizing v fd hfd
  · rw [hc] at hp
    rcases update_cases hp with ⟨-, hp⟩ | ⟨-, hp⟩
    · exact hheld r fd p hp
    · exact getElem_of_extends hv (h.held v r fd p hp)

theorem contextResize_keeps {size : ℕ} (h : s.vec.length ≤ size) : s.vec <+: (contextResize s size).vec := by
  simp only [contextResize, take_of_length_le h]
  exact prefix_append _ _

theorem step_growing (s : St) (o : Op) (hx : Grows s o) (h : Growing s) :
    Growing (step s o) ∧ s.vec <+: (step s o).vec := by
  have hm := step_moves s o
  generalize step s o = s' at hm
  cases hm with
  | same => exact ⟨h, prefix_rfl⟩
  | abort a | reports ho t rs | close fd => exact ⟨⟨h.low, h.high, h.resizing, h.held⟩, prefix_rfl⟩
  | call t r fd =>
    refine ⟨h.move (t := t) prefix_rfl h.high rfl (fun fd' hfd => ?_) fun r' fd' p hp => ?_, prefix_rfl⟩
    · -- the lookup failed, so the fd is behind the end
      unfold afterLookup at hfd
      rw [h.lookup] at hfd
      split at hfd
      · cases hfd
      · rename_i hnone
        cases hfd
        have := h.low
        have := getElem?_eq_none_iff.1 hnone
        omega
      · cases hfd
    · obtain ⟨rfl, hl⟩ := afterLookup_found hp
      exact lookup_getElem hl
  | @resize t fd p a hc hp =>
    obtain ⟨hle, hhigh⟩ := hx fd (by simp [hc, Call.resizing])
    have hpre := contextResize_keeps hle
    refine ⟨h.move (t := t) hpre ?_ rfl (by simp [Call.resizing]) fun r' fd' q hq => ?_, hpre⟩
    · rw [contextResize_length]
      exact hhigh
    · cases hq
      exact hp
  | enter hc hs =>
    obtain ⟨hkeep, ok', hcalls⟩ := requestSection_frame hs
    have hpre : s.vec <+: s'.vec := by rw [hkeep.vec]
    exact ⟨h.move hpre (by rw [hkeep.vec]; exact h.high) hcalls (by simp [Call.resizing]) (by simp), hpre⟩
  | deliver hm hne hk ht =>
    obtain ⟨hkeep, hcalls, -⟩ := ht.frame
    have hv : s'.vec = s.vec := hkeep.vec
    have hc : s'.calls = s.calls := hcalls
    exact ⟨⟨by rw [hv]; exact h.low, by rw [hv]; exact h.high, by rw [hc]; exact h.resizing,
      by rw [hc, hv]; exact h.held⟩, by rw [hv]⟩

theorem growing_init : Growing init := by
  have hlen : init.vec.length = 32 := contextResize_length _ 32
  refine ⟨by omega, by omega, fun t fd hfd => ?_, fun t r fd p hp => ?_⟩
  · simp [init, contextResize, Call.resizing] at hfd
  · simp [init, contextResize] at hp

/-- what a fd's context is in `s`, every lookup of the fd in `s'` finds, as did every call that holds a pointer for it;
and the vector has not shrunk -/
def SameContext (s s' : St) : Prop :=
  s.vec.length ≤ s'.vec.length ∧
    ∀ (fd p : ℕ), s.vec[fd]? = some p → lookup s' fd = some p ∧ ∀ t r q, s'.calls t = .found r fd q → q = p

/-- **An fd keeps its context**, in every run in which no resize is to less than the current size. -/
theorem contexts_stay (ops : List Op) (hops : Meets step Grows init ops) (n : ℕ) :
    SameContext (run step init (ops.take n)) (run step init ops) := by
  obtain ⟨hfirst, hrest⟩ := hops.take_drop n
  have hmid : Growing (run step init (ops.take n)) :=
    run_inv (fun s o hx h => (step_growing s o hx h).1) hfirst growing_init
  -- the invariant of the rest of the run: the vector of the middle state is a beginning of the current one
  have hlast : Growing (run step init ops) ∧ (run step init (ops.take n)).vec <+: (run step init ops).vec := by
    rw [run_take_drop step init ops n]
    refine run_inv (I := fun s => Growing s ∧ (run step init (ops.take n)).vec <+: s.vec) (fun s o hx h => ?_) hrest
      ⟨hmid, prefix_rfl⟩
    obtain ⟨h1, h2⟩ := step_growing s o hx h.1
    exact ⟨h1, h.2.trans h2⟩
  obtain ⟨hg, hpre⟩ := hlast
  refine ⟨hpre.length_le, fun fd p hp => ?_⟩
  have hp' : (run step init ops).vec[fd]? = some p := getElem_of_extends hpre hp
  refine ⟨by rw [hg.lookup]; exact hp', fun t r q hq => ?_⟩
  exact Option.some.inj ((hg.held t r fd q hq).symm.trans hp')

/-- an `addEvent` of the read event from scheduler 0 -/
def addRead (fn : ℕ) : Request := .add ⟨.read, some fn, some 0, 0, .execute⟩

/-- two `addEvent` calls on new fds, one after the other -/
def resizeInTurn : List Op :=
  [.call 1 (addRead 7) 32, .resize 1, .enter 1 true, .call 2 (addRead 8) 50, .resize 2, .enter 2 true]

theorem contexts_stay_in_turn :
    Meets step Grows init resizeInTurn ∧ (run step init resizeInTurn).vec.length = 75 ∧
      SameContext (run step init (resizeInTurn.take 2)) (run step init resizeInTurn) :=
  ⟨by decide, by decide, contexts_stay resizeInTurn (by decide) 2⟩

/-- the same calls, but thread 1 takes the write lock only after thread 2 is done -/
def resizeLate : List Op := [.call 1 (addRead 7) 32, .call 2 (addRead 8) 50, .resize 2, .enter 2 true, .resize 1]

/-- **A resize can shrink the vector.** -/
theorem resize_shrinks :
    (run step init (resizeLate.take 4)).vec[50]? = some 50 ∧ ((run step init resizeLate).ctxs 50).events.read = true ∧
      lookup (run step init resizeLate) 50 = none ∧
      (run step init (resizeLate ++ [.call 2 (.del .read) 50])).calls 2 = .returned false ∧
      ¬ SameContext (run step init (resizeLate.take 4)) (run step init resizeLate) := by
  refine ⟨by decide, by decide, by decide, by decide, fun h => ?_⟩
  have := (h.2 50 50 (by decide)).1
  exact absurd this (by decide)

end CoServer.IOManager
