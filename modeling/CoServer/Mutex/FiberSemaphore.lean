/-
`FiberSemaphore` (`mutex.cpp`): a counting semaphore for fibers with direct hand-over.

`wait` and `notify` are each one section under the spinlock. `notify` hands its token to the fiber at the front of the
queue, if there is one, so a token is never in the counter while a fiber is queued (`Idle`). The waiters are of an
arbitrary type `α`: the pair of a scheduler and a fiber in the source, the call that waits in the machines built on it.
-/
import Mathlib.Tactic

namespace CoServer.Mutex

structure FiberSemaphore (α : Type) where
  /-- `_concurrency` -/
  concurrency : ℕ
  /-- `_waiters` -/
  waiters : List α
deriving DecidableEq

namespace FiberSemaphore

variable {α : Type} (s : FiberSemaphore α)

/-- the constructor -/
def make (initialConcurrency : ℕ) : FiberSemaphore α := ⟨initialConcurrency, []⟩

/-- the locked section of `wait`: true if it returns at once, false if the fiber was queued and yields -/
def wait (w : α) : FiberSemaphore α × Bool :=
  if s.concurrency > 0 then ({ s with concurrency := s.concurrency - 1 }, true)
  else ({ s with waiters := s.waiters ++ [w] }, false)

/-- `notify`, and the waiter it schedules -/
def notify : FiberSemaphore α × Option α :=
  match s.waiters with
  | w :: ws => ({ s with waiters := ws }, some w)
  | [] => ({ s with concurrency := s.concurrency + 1 }, none)

/-- nobody waits while there is a token -/
def Idle : Prop := 0 < s.concurrency → s.waiters = []

theorem idle_make (n : ℕ) : (make n : FiberSemaphore α).Idle := fun _ => rfl

theorem wait_cases (w : α) :
    (0 < s.concurrency ∧ s.wait w = (⟨s.concurrency - 1, s.waiters⟩, true)) ∨
      (s.concurrency = 0 ∧ s.wait w = (⟨0, s.waiters ++ [w]⟩, false)) := by
  unfold wait
  split_ifs with hc
  · exact Or.inl ⟨hc, rfl⟩
  · have h0 : s.concurrency = 0 := by omega
    exact Or.inr ⟨h0, by rw [h0]⟩

theorem notify_cases :
    (∃ w ws, s.waiters = w :: ws ∧ s.notify = (⟨s.concurrency, ws⟩, some w)) ∨
      (s.waiters = [] ∧ s.notify = (⟨s.concurrency + 1, []⟩, none)) := by
  unfold notify
  cases h : s.waiters with
  | cons w ws => exact Or.inl ⟨w, ws, rfl, rfl⟩
  | nil => exact Or.inr ⟨rfl, rfl⟩

theorem Idle.wait {s : FiberSemaphore α} (h : s.Idle) (w : α) : (s.wait w).1.Idle := by
  rcases s.wait_cases w with ⟨hc, he⟩ | ⟨-, he⟩
  · rw [he]; exact fun _ => h hc
  · rw [he]; intro hlt; exact absurd hlt (lt_irrefl 0)

theorem Idle.notify {s : FiberSemaphore α} (h : s.Idle) : s.notify.1.Idle := by
  rcases s.notify_cases with ⟨w, ws, hw, he⟩ | ⟨-, he⟩
  · rw [he]
    intro hlt
    have hnil := h hlt
    rw [hw] at hnil
    cases hnil
  · rw [he]; exact fun _ => rfl

end FiberSemaphore

end CoServer.Mutex
