/-
Who holds the tokens of a semaphore. Parties `0 .. next - 1` are each in a state of some type `κ`, which says how many
tokens the party holds and whether it is queued (`Accounts`). `Ledger` says that every token is in the counter or held,
and that the queue is made of the parties that say so, each once. A machine built on the semaphore changes it in four
ways: `enter`, `move`, `wait` and `notify`.
-/
import CoServer.Core.Update
import CoServer.Mutex.FiberSemaphore

namespace CoServer.Mutex

open CoServer.Core List Function

/-- what the state of a party says about tokens and the queue; a party that does not exist yet is `blank` -/
structure Accounts (κ : Type) where
  blank : κ
  tokens : κ → ℕ
  queued : κ → Bool
  blank_queued : queued blank = false

structure Ledger {κ : Type} (A : Accounts κ) (total : ℕ) (sem : FiberSemaphore ℕ) (calls : ℕ → κ)
    (next : ℕ) : Prop where
  /-- every token is in the counter or held -/
  tokens : sem.concurrency + ∑ c ∈ Finset.range next, A.tokens (calls c) = total
  queue : ∀ c, c ∈ sem.waiters ↔ A.queued (calls c) = true
  once : sem.waiters.Nodup
  fresh : ∀ c, next ≤ c → calls c = A.blank

/-- the parties after a `notify` handed its token to `w` -/
def handOver {κ : Type} (resumed : κ → κ) (calls : ℕ → κ) : Option ℕ → ℕ → κ
  | some w => Function.update calls w (resumed (calls w))
  | none => calls

theorem ledger_make {κ : Type} (A : Accounts κ) (n : ℕ) : Ledger A n (.make n) (fun _ => A.blank) 0 where
  tokens := by simp [FiberSemaphore.make]
  queue c := by simp [FiberSemaphore.make, A.blank_queued]
  once := nodup_nil
  fresh _ _ := rfl

namespace Ledger

variable {κ : Type} {A : Accounts κ} {total : ℕ} {sem : FiberSemaphore ℕ} {calls : ℕ → κ} {next : ℕ}

variable {c : ℕ} {x : κ}

section

variable (h : Ledger A total sem calls next)
include h

theorem lt_next (hc : calls c ≠ A.blank) : c < next := by
  by_contra hlt
  exact hc (h.fresh c (not_lt.1 hlt))

theorem lt_of_queued (hc : A.queued (calls c) = true) : c < next := by
  refine h.lt_next fun heq => ?_
  rw [heq, A.blank_queued] at hc
  cases hc

theorem update (hc : c < next) (sem' : FiberSemaphore ℕ)
    (htok : sem'.concurrency + A.tokens x = sem.concurrency + A.tokens (calls c))
    (hq : ∀ d, d ∈ sem'.waiters ↔ if d = c then A.queued x = true else d ∈ sem.waiters) (hnd : sem'.waiters.Nodup) :
    Ledger A total sem' (Function.update calls c x) next := by
  refine ⟨?_, fun d => ?_, hnd, fun d hd => ?_⟩
  · have hsum := sum_range_update (fun _ => A.tokens) calls hc x
    have := h.tokens
    omega
  · by_cases hd : d = c
    · subst hd; simp [hq]
    · simp [hq, hd, h.queue]
  · rw [update_of_ne (by rintro rfl; exact absurd hc (not_lt.2 hd))]
    exact h.fresh d hd

theorem move (hc : c < next) (htok : A.tokens x = A.tokens (calls c))
    (hq : A.queued x = A.queued (calls c)) : Ledger A total sem (Function.update calls c x) next := by
  refine h.update hc sem (by rw [htok]) (fun d => ?_) h.once
  by_cases hd : d = c
  · subst hd; simp [h.queue, hq]
  · simp [hd]

theorem enter (htok : A.tokens x = 0) (hq : A.queued x = false) :
    Ledger A total sem (Function.update calls next x) (next + 1) := by
  have hold : ∀ d, d ≠ next → Function.update calls next x d = calls d := fun d hd => update_of_ne hd x calls
  refine ⟨?_, fun d => ?_, h.once, fun d hd => ?_⟩
  · have hsame : ∑ c ∈ Finset.range next, A.tokens (Function.update calls next x c) =
        ∑ c ∈ Finset.range next, A.tokens (calls c) :=
      Finset.sum_congr rfl fun c hc => by rw [hold c (Finset.mem_range.1 hc).ne]
    rw [Finset.sum_range_succ, hsame, update_self, htok]
    exact h.tokens
  · by_cases hd : d = next
    · subst hd
      rw [update_self, hq, h.queue, h.fresh d le_rfl, A.blank_queued]
    · rw [hold d hd, h.queue]
  · rw [hold d (by omega)]
    exact h.fresh d (by omega)

theorem wait (hc : c < next) (hout : A.queued (calls c) = false)
    {granted waiting : κ} (hg : A.tokens granted = A.tokens (calls c) + 1) (hgq : A.queued granted = false)
    (hw : A.tokens waiting = A.tokens (calls c)) (hwq : A.queued waiting = true) :
    Ledger A total (sem.wait c).1 (Function.update calls c (if (sem.wait c).2 then granted else waiting)) next := by
  have hnot : c ∉ sem.waiters := by
    rw [h.queue, hout]
    exact Bool.false_ne_true
  rcases sem.wait_cases c with ⟨hpos, he⟩ | ⟨hzero, he⟩
  · rw [he]
    refine h.update hc _ ?_ (fun d => ?_) h.once
    · simp only [if_true]; omega
    · by_cases hd : d = c
      · subst hd; simp [hgq, hnot]
      · simp [hd]
  · rw [he]
    refine h.update hc _ ?_ (fun d => ?_) ?_
    · simp [hw, hzero]
    · by_cases hd : d = c
      · subst hd; simp [hwq]
      · simp [hd]
    · exact Nodup.append h.once (nodup_singleton c) (disjoint_singleton.2 hnot)

theorem notify (hc : c < next) (hout : A.queued (calls c) = false)
    (hx : A.tokens x + 1 = A.tokens (calls c)) (hxq : A.queued x = false) (resumed : κ → κ)
    (hres : ∀ w, A.queued (calls w) = true →
      A.tokens (resumed (calls w)) = A.tokens (calls w) + 1 ∧ A.queued (resumed (calls w)) = false) :
    Ledger A total sem.notify.1 (handOver resumed (Function.update calls c x) sem.notify.2) next := by
  have hnot : c ∉ sem.waiters := by
    rw [h.queue, hout]
    exact Bool.false_ne_true
  -- the party without its token, which is in the counter
  have hback : Ledger A total ⟨sem.concurrency + 1, sem.waiters⟩ (Function.update calls c x) next := by
    refine h.update hc _ (by simp only; omega) (fun d => ?_) h.once
    by_cases hd : d = c
    · subst hd; simp [hnot, hxq]
    · simp [hd]
  rcases sem.notify_cases with ⟨w, ws, hw, he⟩ | ⟨hnil, he⟩
  · -- and the first of the queue takes it
    have hmem : w ∈ sem.waiters := hw ▸ mem_cons_self
    have hne : w ≠ c := fun heq => hnot (heq ▸ hmem)
    have hsame : Function.update calls c x w = calls w := update_of_ne hne x calls
    have hwq := (h.queue w).1 hmem
    obtain ⟨htok, hq⟩ := hres w hwq
    have hnd := h.once
    rw [hw, nodup_cons] at hnd
    rw [he]
    simp only [handOver, hsame]
    refine hback.update (h.lt_of_queued hwq) ⟨sem.concurrency, ws⟩ ?_ (fun d => ?_) hnd.2
    · rw [hsame]; simp only; omega
    · by_cases hd : d = w
      · subst hd; simpa [hq] using hnd.1
      · simp [hd, hw]
  · rw [he]
    simpa only [handOver, hnil] using hback

theorem add_le {d : ℕ} (hc : c < next) (hd : d < next) (hne : c ≠ d) :
    A.tokens (calls c) + A.tokens (calls d) ≤ total := by
  have hpair : ∑ e ∈ ({c, d} : Finset ℕ), A.tokens (calls e) ≤ ∑ e ∈ Finset.range next, A.tokens (calls e) := by
    refine Finset.sum_le_sum_of_subset fun e he => ?_
    rcases Finset.mem_insert.1 he with rfl | he
    · exact Finset.mem_range.2 hc
    · rw [Finset.mem_singleton.1 he]
      exact Finset.mem_range.2 hd
  rw [Finset.sum_pair hne] at hpair
  have := h.tokens
  omega

end

end Ledger

end CoServer.Mutex
