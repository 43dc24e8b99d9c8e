/-
The window of a `HolderStatsSet` of any size (`load_balance.cpp`). A slot serves every second with its remainder; `init`
clears the slots of the seconds that have passed since the last call, once around at most.

Results:
- `window_exact`: after any accesses at seconds that do not go back and are not the last of 32 bits, the slot of each of
  the last `size` seconds holds exactly the updates made at that second, and `getTotal` is the sum over these seconds.
-/
import CoServer.LoadBalance.HolderStats
import Mathlib.Algebra.BigOperators.Intervals
import Mathlib.Data.UInt

namespace CoServer.LoadBalance.Stats

open CoServer.Core Function List HolderStats Nat

/-! ## The code -/

open HolderStatsSet

/-- `rt.f += i.f` for all counters -/
instance : Add HolderStats where
  add a b := ⟨a.usedTime + b.usedTime, a.total + b.total, a.doing + b.doing, a.timeouts + b.timeouts, a.oks + b.oks,
    a.errs + b.errs⟩

instance : Zero HolderStats := ⟨{}⟩

theorem HolderStats.add_def (a b : HolderStats) :
    a + b = ⟨a.usedTime + b.usedTime, a.total + b.total, a.doing + b.doing,
    a.timeouts + b.timeouts, a.oks + b.oks, a.errs + b.errs⟩ := rfl

theorem HolderStats.zero_def : (0 : HolderStats) = {} := rfl

instance : AddCommMonoid HolderStats where
  add_assoc a b c := by simp only [add_def, add_assoc]
  add_comm a b := by simp only [add_def, add_comm]
  zero_add a := by simp only [add_def, zero_def, zero_add]
  add_zero a := by simp only [add_def, zero_def, add_zero]
  nsmul := nsmulRec

/-- an update of a slot -/
abbrev Change := HolderStats → HolderStats

section

variable (size : ℕ)

namespace HolderStatsSet

/-- `get(now)`, and an update of the slot it returns -/
def access (s : HolderStatsSet) (a : UInt32 × Change) : HolderStatsSet :=
  let s := s.init size a.1
  { s with stats := update s.stats (a.1.toNat % size) (a.2 (s.stats (a.1.toNat % size))) }

def getTotal (s : HolderStatsSet) : HolderStats := (range size).foldl (fun rt i => rt + s.stats i) {}

end HolderStatsSet

end

/-! ## One call -/

variable {size p : ℕ} {now : UInt32} {s : HolderStatsSet}

theorem eq_of_mod_eq {t u : ℕ} (htu : t ≤ u) (hlt : u < t + size) (h : u % size = t % size) : u = t :=
  mod_injOn_Ico t size (by simp; omega) (by simp; omega) h

/-- the slots hold what `f` says of the seconds of the window; slots that no second has used yet are those of seconds to
come -/
structure Exact (size : ℕ) (s : HolderStatsSet) (f : ℕ → HolderStats) : Prop where
  holds : ∀ t, s.lastUpdateTime.toNat < t + size → (t ≤ s.lastUpdateTime.toNat ∨ t < size) → s.stats (t % size) = f t
  future : ∀ t, s.lastUpdateTime.toNat < t → f t = {}

variable {f : ℕ → HolderStats}

theorem Exact.init (hsize : 0 < size) (hnow : now.toNat + 1 < 2 ^ 32) (hle : s.lastUpdateTime ≤ now)
    (h : Exact size s f) : Exact size (s.init size now) f ∧ (s.init size now).lastUpdateTime = now := by
  rw [UInt32.le_iff_toNat_le] at hle
  unfold HolderStatsSet.init
  split_ifs with hlt
  · rw [UInt32.lt_iff_toNat_lt] at hlt
    have hsucc : (s.lastUpdateTime + 1).toNat = s.lastUpdateTime.toNat + 1 := toNat_succ hlt
    refine ⟨⟨fun t hin hused => ?_, fun t ht => h.future t (hlt.trans ht)⟩, rfl⟩
    simp only at hin hused ⊢
    rw [clearSlots_apply]
    split_ifs with hpassed
    · -- no second passed has the slot of one still in the window
      obtain ⟨u, hu, hun, hlast, heq⟩ := of_mem_clearedFrom hnow hpassed
      rw [hsucc] at hu hlast
      refine (h.future t ?_).symm
      by_contra hold
      have := eq_of_mod_eq (by omega) (by omega) heq.symm
      omega
    · refine h.holds t (by omega) ?_
      by_contra hnew
      -- some second with this remainder is among the first `size` passed
      have h₁ := mod_le (t - (s.lastUpdateTime.toNat + 1)) size
      have h₂ := mod_lt (t - (s.lastUpdateTime.toNat + 1)) hsize
      have hslot : (s.lastUpdateTime.toNat + 1 + (t - (s.lastUpdateTime.toNat + 1)) % size) % size = t % size := by
        rw [add_mod_mod]
        congr 1
        omega
      rw [← hslot] at hpassed
      exact hpassed (mem_clearedFrom (by omega) (by omega) (by omega))
  · rw [UInt32.lt_iff_toNat_lt] at hlt
    exact ⟨h, UInt32.toNat_inj.1 (by omega)⟩

theorem Exact.update (h : Exact size s f) (hnow : s.lastUpdateTime = now) (g : Change) :
    Exact size { s with stats := update s.stats (now.toNat % size) (g (s.stats (now.toNat % size))) }
      (update f now.toNat (g (f now.toNat))) := by
  subst hnow
  refine ⟨fun t hin hused => ?_, fun t ht => ?_⟩
  · simp only at hin hused ⊢
    by_cases ht : t = s.lastUpdateTime.toNat
    · rw [ht, update_self, update_self, h.holds _ (by omega) (Or.inl le_rfl)]
    have hslot : t % size ≠ s.lastUpdateTime.toNat % size := by
      intro heq
      rcases le_total t s.lastUpdateTime.toNat with hle | hge
      · exact ht (eq_of_mod_eq hle hin heq.symm).symm
      · exact ht (eq_of_mod_eq hge (by omega) heq)
    rw [update_of_ne hslot, update_of_ne ht, h.holds t hin hused]
  · rw [update_of_ne (show t ≠ _ from ht.ne'), h.future t ht]

/-! ## Runs -/

variable (accesses : List (UInt32 × Change))

/-- what the updates at second `t` make of an empty slot -/
def made (t : ℕ) : HolderStats :=
  (accesses.filter fun a => a.1.toNat = t).foldl (fun h a => a.2 h) {}

/-- the time of the last access -/
def latestNow : UInt32 := (accesses.getLast?.map Prod.fst).getD 0

theorem exact_run (hsize : 0 < size) (accesses : List (UInt32 × Change))
    (hmono : accesses.Pairwise fun a b => a.1 ≤ b.1) (hlt : ∀ a ∈ accesses, a.1.toNat < 2 ^ 32 - 1) :
    Exact size (run (access size) {} accesses) (made accesses) ∧
      (run (access size) {} accesses).lastUpdateTime = latestNow accesses := by
  induction accesses using reverseRecOn with
  | nil => exact ⟨⟨fun t _ _ => rfl, fun t _ => rfl⟩, rfl⟩
  | append_singleton accesses a ih =>
    obtain ⟨hmono, -, hlast⟩ := pairwise_append.1 hmono
    rw [forall_mem_append] at hlt
    obtain ⟨hexact, hnow⟩ := ih hmono hlt.1
    have hle : latestNow accesses ≤ a.1 := by
      unfold latestNow
      cases hl : accesses.getLast? with
      | none => exact UInt32.zero_le
      | some b => exact hlast b (mem_of_getLast? hl) a mem_cons_self
    have hbound := hlt.2 a mem_cons_self
    obtain ⟨hinit, hinit'⟩ := hexact.init hsize (by omega) (hnow ▸ hle)
    have hmade : made (accesses ++ [a]) = update (made accesses) a.1.toNat (a.2 (made accesses a.1.toNat)) := by
      funext t
      by_cases ht : t = a.1.toNat
      · subst ht
        simp [made]
      · simp [made, Ne.symm ht, ht]
    have hlatest : latestNow (accesses ++ [a]) = a.1 := by simp [latestNow]
    rw [run_append, hmade, hlatest]
    exact ⟨hinit.update hinit' a.2, hinit'⟩

theorem getTotal_eq_sum (s : HolderStatsSet) (size : ℕ) : s.getTotal size = ∑ i ∈ Finset.range size, s.stats i := by
  induction size with
  | zero => rfl
  | succ n ih =>
    rw [Finset.sum_range_succ, ← ih, getTotal, range_succ, foldl_append]
    rfl

/-- **The window.** -/
theorem window_exact (size : ℕ) (hsize : 1 ≤ size) (accesses : List (UInt32 × Change))
    (hmono : accesses.Pairwise fun a b => a.1 ≤ b.1) (hlt : ∀ a ∈ accesses, a.1.toNat < 2 ^ 32 - 1) :
    (∀ t ≤ (latestNow accesses).toNat, (latestNow accesses).toNat < t + size →
        (run (access size) {} accesses).stats (t % size) = made accesses t) ∧
      (run (access size) {} accesses).getTotal size =
        ∑ t ∈ Finset.Ico ((latestNow accesses).toNat + 1 - size) ((latestNow accesses).toNat + 1), made accesses t := by
  obtain ⟨hexact, hnow⟩ := exact_run hsize accesses hmono hlt
  refine ⟨fun t hle hin => hexact.holds t (hnow ▸ hin) (Or.inl (hnow ▸ hle)), ?_⟩
  rw [getTotal_eq_sum, ← image_Ico_mod ((latestNow accesses).toNat + 1 - size) size,
    Finset.sum_image (mod_injOn_Ico _ _)]
  -- before the window has gone around once, the other slots are those of seconds to come
  calc _ = ∑ t ∈ Finset.Ico ((latestNow accesses).toNat + 1 - size) ((latestNow accesses).toNat + 1 - size + size),
    made accesses t := by
        refine Finset.sum_congr rfl fun t ht =>
          hexact.holds t ?_ ?_ <;> rw [Finset.mem_Ico] at ht <;> rw [hnow] <;> omega
    _ = _ := by
        refine (Finset.sum_subset (Finset.Ico_subset_Ico_right (by omega)) fun t hin ht => hexact.future t ?_).symm
        rw [Finset.mem_Ico] at hin ht
        rw [hnow]
        omega

/-- a window of two seconds: an update at second 1, two at second 7 and one at second 8 -/
def twoSeconds : List (UInt32 × Change) :=
  [(1, (·.incTotal 5)), (7, (·.incTotal 1)), (7, (·.incOks 1)), (8, (·.incTotal 2))]

theorem window_exact_two :
    (∀ t ≤ 8, 8 < t + 2 → (run (access 2) {} twoSeconds).stats (t % 2) = made twoSeconds t) ∧
      (run (access 2) {} twoSeconds).getTotal 2 = ∑ t ∈ Finset.Ico 7 9, made twoSeconds t :=
  window_exact 2 (by decide) twoSeconds (by simp [twoSeconds]) (by simp [twoSeconds])

example : (run (access 2) {} twoSeconds).getTotal 2 = { total := 3, oks := 1 } := by decide

end CoServer.LoadBalance.Stats
