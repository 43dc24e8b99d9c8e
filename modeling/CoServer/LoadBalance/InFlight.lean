/-
`_doing` over the slots of an item, and the requests in flight.

A request is in flight from its `incDoing` to its `decDoing`; it started within the window if its second is one of the
last five up to the last shift. A request that lasts longer lowers a slot that has been cleared since, and takes one
from a younger request or wraps below zero.

Results:
- `shiftKeeps_of_lt`: a shift clears only slots of seconds that have left the window, unless it goes to the last second
  of all.
- `doing_iff`: in every state of a run the sum of `_doing` over the slots is the number of requests in flight that
  started within the window, and no `_doing` is lowered below zero, iff `_doing` is raised and lowered only within the
  window of its request, is never raised beyond 32 bits, and no shift clears the slot of a request of the new window.
- `long_request_wraps`: a request starts at second 1, another one at second 6 clears the slot that the two share, and
  the first one is answered.
-/
import CoServer.LoadBalance.HolderStats

namespace CoServer.LoadBalance.Stats

open CoServer.Core List Function Phase

/-! ## Requests within the window -/

variable (last : UInt32)

/-- the request's second is among the last `size` ones up to the last shift -/
def InWindow (ts : UInt64) : Prop := last.toNat < (second ts).toNat + size

instance (last : UInt32) (ts : UInt64) : Decidable (InWindow last ts) :=
  inferInstanceAs (Decidable (last.toNat < (second ts).toNat + size))

/-- the slot that should count the request: its own while it is in flight and started within the window -/
def Phase.counted (p : Phase) : Option ℕ :=
  p.inFlight.bind fun ts => if InWindow last ts then some (slot ts) else none

/-- the requests in flight that started within the window -/
def active (l : List Phase) : ℕ := (l.map fun p => if (p.counted last).isSome then 1 else 0).sum

/-- and those of one slot -/
def load (l : List Phase) (i : ℕ) : ℕ := (l.map fun p => if p.counted last = some i then 1 else 0).sum

variable (s : State)

def State.doing : ℕ := ∑ i ∈ Finset.range size, (s.stats i).doing.toNat

/-- the sum of `_doing` is the number of requests in flight that started within the window -/
def Balanced : Prop := s.doing = active s.lastUpdateTime s.requests

/-- the step does not lower a `_doing` of zero -/
def NoWrap : Op → Prop
  | .advance k _ => ∀ ts, s.requests[k]? = some (.finishing ts) → (s.stats (slot ts)).doing ≠ 0
  | _ => True

def Right (o : Op) : Prop := NoWrap s o ∧ Balanced (step s o)

/-! ## The condition -/

/-- the shift to `now` clears no slot of a request that started within the new window -/
def ShiftKeeps (now : UInt32) : Prop :=
  s.lastUpdateTime < now → ∀ p ∈ s.requests, ∀ i ∈ p.counted now, i ∉ cleared s.lastUpdateTime now

/-- `_doing` is raised and lowered within the request's window, and not raised beyond 32 bits -/
def FreshTurn : Phase → Prop
  | .started ts => ShiftKeeps s (second ts)
  | .counting ts => InWindow s.lastUpdateTime ts ∧ (s.stats (slot ts)).doing.toNat + 1 < 2 ^ 32
  | .finishing ts => InWindow s.lastUpdateTime ts
  | _ => True

def Fresh : Op → Prop
  | .advance k _ => ∀ p ∈ s.requests[k]?, FreshTurn s p
  | .weigh => ShiftKeeps s (second s.clock)
  | _ => True

/-! ## Counting -/

/-- every slot counts its requests; a request refers to a slot of a second that the window has reached -/
structure Inv (s : State) : Prop where
  counts : ∀ i < size, (s.stats i).doing.toNat = load s.lastUpdateTime s.requests i
  reached : ∀ p ∈ s.requests, ∀ ts, p.inFlight = some ts ∨ p = .counting ts → (second ts).toNat ≤ s.lastUpdateTime.toNat

variable {s : State} {p p' : Phase} {i k : ℕ} {ts : UInt64} {l : List Phase}

theorem counted_eq_some_iff {last : UInt32} : p.counted last = some i ↔
    ∃ ts, p.inFlight = some ts ∧ InWindow last ts ∧ slot ts = i := by
  simp [counted, Option.bind_eq_some_iff]

theorem sum_load (last : UInt32) (l : List Phase) : ∑ i ∈ Finset.range size, load last l i = active last l := by
  unfold load active
  induction l with
  | nil => simp
  | cons p l ih =>
    have hone : ∑ i ∈ Finset.range size, (if p.counted last = some i then 1 else 0) = if (p.counted last).isSome then 1
        else 0 := by
      cases hp : p.counted last with
      | none => simp
      | some j =>
        obtain ⟨ts, -, -, rfl⟩ := counted_eq_some_iff.1 hp
        simp [slot_lt ts]
    simp [Finset.sum_add_distrib, ih, hone]

theorem load_eq_zero_iff {last : UInt32} : load last l i = 0 ↔ ∀ p ∈ l, p.counted last ≠ some i := by
  simp [load, sum_eq_zero_iff]

theorem Inv.balanced (h : Inv s) : Balanced s := by
  unfold Balanced
  rw [← sum_load]
  exact Finset.sum_congr rfl fun i hi => h.counts i (Finset.mem_range.1 hi)

/-! ## Shifts -/

variable {now : UInt32}

theorem load_shift (h : Inv s) (hlt : s.lastUpdateTime < now) (hi : i ∉ cleared s.lastUpdateTime now) :
    load now s.requests i = load s.lastUpdateTime s.requests i := by
  refine congrArg List.sum (map_congr_left fun p hp => if_congr ?_ rfl rfl)
  rw [counted_eq_some_iff, counted_eq_some_iff]
  constructor
  · rintro ⟨ts, hts, hw, hslot⟩
    exact ⟨ts, hts, hlt.trans hw, hslot⟩
  rintro ⟨ts, hts, hw, rfl⟩
  refine ⟨ts, hts, ?_, rfl⟩
  -- otherwise the shift passes the second five after the request's, which has the same slot
  by_contra hout
  have hreached := h.reached p hp ts (Or.inl hts)
  have hsucc := toNat_succ hlt
  unfold InWindow at hw hout
  have hmem : ((second ts).toNat + size) % size ∈ cleared s.lastUpdateTime now :=
    mem_clearedFrom (by omega) (by omega) (by omega)
  rw [Nat.add_mod_right] at hmem
  exact hi hmem

theorem init_of_not_lt (hle : ¬ s.lastUpdateTime < now) : s.init now = s := by
  rw [State.init, HolderStatsSet.init, if_neg hle]

section

variable (hlt : s.lastUpdateTime < now)
include hlt

theorem init_of_lt :
    s.init now = { s with
      stats := clearSlots size now size (s.lastUpdateTime + 1) s.stats, lastUpdateTime := now } := by
  rw [State.init, HolderStatsSet.init, if_pos hlt]

theorem doing_init (i : ℕ) : ((s.init now).stats i).doing = if i ∈ cleared s.lastUpdateTime now then 0 else
    (s.stats i).doing := by
  rw [init_of_lt hlt]
  dsimp only
  rw [clearSlots_apply, apply_ite HolderStats.doing]
  rfl

theorem shiftKeeps_iff : ShiftKeeps s now ↔ ∀ i ∈ cleared s.lastUpdateTime now, load now s.requests i = 0 := by
  simp only [load_eq_zero_iff]
  constructor
  · intro hkeep i hi p hp hcount
    exact hkeep hlt p hp i hcount hi
  · intro hzero _ p hp i hcount hi
    exact hzero i hi p hp hcount

end

theorem counts_init (h : Inv s) (hlt : s.lastUpdateTime < now) (hi : i < size) :
    ((s.init now).stats i).doing.toNat = if i ∈ cleared s.lastUpdateTime now then 0 else load now s.requests i := by
  rw [doing_init hlt]
  split
  · rfl
  · rename_i hnot
    rw [load_shift h hlt hnot]
    exact h.counts i hi

theorem balanced_shift_iff (h : Inv s) (now : UInt32) : Balanced (s.init now) ↔ ShiftKeeps s now := by
  by_cases hlt : s.lastUpdateTime < now
  · have hle : ∀ i ∈ Finset.range size, ((s.init now).stats i).doing.toNat ≤ load now s.requests i := by
      intro i hi
      rw [counts_init h hlt (Finset.mem_range.1 hi)]
      split
      · exact Nat.zero_le _
      · exact le_rfl
    have hactive :
        active (s.init now).lastUpdateTime (s.init now).requests = ∑ i ∈ Finset.range size, load now s.requests i := by
      rw [init_of_lt hlt, sum_load]
    rw [Balanced, State.doing, hactive, Finset.sum_eq_sum_iff_of_le hle, shiftKeeps_iff hlt]
    constructor
    · intro heq i hi
      by_cases hsize : i < size
      · rw [← heq i (Finset.mem_range.2 hsize), counts_init h hlt hsize, if_pos hi]
      rw [load_eq_zero_iff]
      intro p _ hcount
      obtain ⟨ts, -, -, rfl⟩ := counted_eq_some_iff.1 hcount
      exact hsize (slot_lt ts)
    · intro hzero i hi
      rw [counts_init h hlt (Finset.mem_range.1 hi)]
      split
      · rename_i hc
        exact (hzero i hc).symm
      · rfl
  · rw [init_of_not_lt hlt]
    exact iff_of_true h.balanced fun hlt' => absurd hlt' hlt

theorem inv_init (h : Inv s) (hkeep : ShiftKeeps s now) : Inv (s.init now) := by
  by_cases hlt : s.lastUpdateTime < now
  · have hreq : (s.init now).requests = s.requests := by rw [init_of_lt hlt]
    have hlast : (s.init now).lastUpdateTime = now := by rw [init_of_lt hlt]
    refine ⟨fun i hi => ?_, fun p hp ts hts => ?_⟩
    · rw [counts_init h hlt hi, hreq, hlast]
      split
      · rename_i hc
        exact ((shiftKeeps_iff hlt).1 hkeep i hc).symm
      · rfl
    · rw [hreq] at hp
      rw [hlast]
      exact (h.reached p hp ts hts).trans (UInt32.lt_iff_toNat_lt.1 hlt).le
  · rwa [init_of_not_lt hlt]

theorem le_last_init (s : State) (now : UInt32) : now.toNat ≤ (s.init now).lastUpdateTime.toNat := by
  unfold State.init HolderStatsSet.init
  split
  · exact le_rfl
  · rename_i hnot
    exact UInt32.le_iff_toNat_le.1 (UInt32.not_lt.1 hnot)

theorem requests_init (s : State) (now : UInt32) : (s.init now).requests = s.requests := rfl

theorem shiftKeeps_of_lt (h : Inv s) (hnow : now.toNat + 1 < 2 ^ 32) : ShiftKeeps s now := by
  intro hlt p hp i hcount hi
  obtain ⟨ts, hts, hw, rfl⟩ := counted_eq_some_iff.1 hcount
  have hreached := h.reached p hp ts (Or.inl hts)
  obtain ⟨u, hu, hun, -, hslot⟩ := of_mem_clearedFrom hnow hi
  rw [toNat_succ hlt] at hu
  unfold InWindow at hw
  unfold slot at hslot
  unfold size at hw hslot
  omega

/-! ## Raising and lowering `_doing` -/

theorem doing_modify (s : State) (ts : UInt64) (f : HolderStats → HolderStats) :
    (s.modify ts f).doing + (s.stats (slot ts)).doing.toNat = s.doing + (f (s.stats (slot ts))).doing.toNat :=
  sum_range_update (fun _ (h : HolderStats) => h.doing.toNat) s.stats (slot_lt ts) (f (s.stats (slot ts)))

section

variable (last : UInt32)

theorem load_set (hk : l[k]? = some p) (p' : Phase) (i : ℕ) :
    load last (l.set k p') i + (if p.counted last = some i then 1 else 0) =
      load last l i + if p'.counted last = some i then 1 else 0 :=
  sum_map_set (fun p : Phase => if p.counted last = some i then 1 else 0) hk p'

theorem active_set (hk : l[k]? = some p) (p' : Phase) :
    active last (l.set k p') + (if (p.counted last).isSome then 1 else 0) =
      active last l + if (p'.counted last).isSome then 1 else 0 :=
  sum_map_set (fun p : Phase => if (p.counted last).isSome then 1 else 0) hk p'

theorem step_advance (hk : s.requests[k]? = some p) (result : ℤ) :
    step s (.advance k result) = { (turn s result p).2 with requests := s.requests.set k (turn s result p).1 } := by
  simp only [step, hk]

theorem counted_of_inFlight (h : p.inFlight = some ts) (last : UInt32) :
    p.counted last = if InWindow last ts then some (slot ts) else none := by
  rw [counted, h, Option.bind_some]

theorem isSome_counted (h : p.inFlight = some ts) (last : UInt32) : (p.counted last).isSome = true ↔
    InWindow last ts := by
  rw [counted_of_inFlight h]
  split
  · rename_i hw
    exact iff_of_true rfl hw
  · rename_i hw
    exact iff_of_false Bool.false_ne_true hw

theorem balanced_modify_iff (s : State) (ts : UInt64) (f : HolderStats → HolderStats) (l : List Phase) :
    Balanced { s.modify ts f with requests := l } ↔ (s.modify ts f).doing = active s.lastUpdateTime l := Iff.rfl

theorem toNat_decDoing {h : HolderStats} (hpos : 0 < h.doing.toNat) :
    (h.decDoing 1).doing.toNat = h.doing.toNat - 1 := by
  have hle : (1 : UInt32) ≤ h.doing := UInt32.le_iff_toNat_le.2 hpos
  exact UInt32.toNat_sub_of_le _ _ hle

theorem noWrap_of_ne (hk : s.requests[k]? = some p) (hf : ∀ ts, p ≠ .finishing ts) (result : ℤ) :
    NoWrap s (.advance k result) :=
  fun ts hk' => absurd (Option.some.inj (hk.symm.trans hk')) (hf ts)

theorem right_inc_iff (h : Inv s) (hk : s.requests[k]? = some (.counting ts)) (result : ℤ) :
    Right s (.advance k result) ↔ FreshTurn s (.counting ts) := by
  have hbalanced : s.doing = active s.lastUpdateTime s.requests := h.balanced
  have hdoing := doing_modify s ts (·.incDoing 1)
  have hactive := active_set s.lastUpdateTime hk (.totalling ts)
  rw [if_congr (isSome_counted (p := .totalling ts) rfl s.lastUpdateTime) rfl rfl] at hactive
  have hd := (s.stats (slot ts)).doing.toNat_lt
  rw [Right, and_iff_right (noWrap_of_ne hk nofun result), step_advance hk, turn, balanced_modify_iff]
  dsimp only
  rw [HolderStats.incDoing, UInt32.toNat_add, UInt32.toNat_one] at hdoing
  have hzero : (if (counted s.lastUpdateTime (.counting ts)).isSome then 1 else 0) = 0 := rfl
  by_cases hlt : (s.stats (slot ts)).doing.toNat + 1 < 2 ^ 32
  · by_cases hw : InWindow s.lastUpdateTime ts
    · rw [if_pos hw] at hactive
      exact iff_of_true (by omega) ⟨hw, hlt⟩
    · rw [if_neg hw] at hactive
      exact iff_of_false (by omega) fun hf => hw hf.1
  · -- the counter wraps: the sum falls
    refine iff_of_false ?_ fun hf => hlt hf.2
    omega

theorem inv_inc (h : Inv s) (hk : s.requests[k]? = some (.counting ts))
    (hfresh : FreshTurn s (.counting ts)) (result : ℤ) : Inv (step s (.advance k result)) := by
  rw [step_advance hk, turn]
  refine ⟨fun i hi => ?_, fun p hp ts' hts' => ?_⟩
  · have hload := load_set s.lastUpdateTime hk (.totalling ts) i
    rw [counted_of_inFlight (p := .totalling ts) rfl, if_pos hfresh.1] at hload
    have hzero : (if counted s.lastUpdateTime (.counting ts) = some i then 1 else 0) = 0 := rfl
    have hcount := h.counts i hi
    simp only [State.modify]
    by_cases hij : i = slot ts
    · subst hij
      rw [Function.update_self, HolderStats.incDoing, UInt32.toNat_add, UInt32.toNat_one, Nat.mod_eq_of_lt hfresh.2]
      rw [if_pos rfl] at hload
      omega
    · rw [update_of_ne hij]
      rw [if_neg fun heq => hij (Option.some.inj heq).symm] at hload
      omega
  · rcases mem_or_eq_of_mem_set hp with hp | rfl
    · exact h.reached p hp ts' hts'
    rcases hts' with hts' | hts'
    · cases hts'
      exact h.reached _ (mem_of_getElem? hk) ts (Or.inr rfl)
    · cases hts'

theorem right_dec_iff (h : Inv s) (hk : s.requests[k]? = some (.finishing ts)) (result : ℤ) :
    Right s (.advance k result) ↔ FreshTurn s (.finishing ts) := by
  have hbalanced : s.doing = active s.lastUpdateTime s.requests := h.balanced
  have hnowrap : NoWrap s (.advance k result) ↔ (s.stats (slot ts)).doing.toNat ≠ 0 := by
    simp [NoWrap, hk, UInt32.toNat_inj.symm]
  have hdoing := doing_modify s ts (·.decDoing 1)
  have hactive := active_set s.lastUpdateTime hk .returned
  rw [if_congr (isSome_counted (p := .finishing ts) rfl s.lastUpdateTime) rfl rfl] at hactive
  rw [Right, hnowrap, step_advance hk, turn, balanced_modify_iff]
  dsimp only
  have hzero : (if (counted s.lastUpdateTime .returned).isSome then 1 else 0) = 0 := rfl
  by_cases hw : InWindow s.lastUpdateTime ts
  · -- the slot counts this request, so its counter is not zero
    have hload := load_set s.lastUpdateTime hk .returned (slot ts)
    have hnone : (if counted s.lastUpdateTime .returned = some (slot ts) then 1 else 0) = 0 := rfl
    rw [counted_of_inFlight (p := .finishing ts) rfl, if_pos hw, if_pos rfl] at hload
    have hpos : 0 < (s.stats (slot ts)).doing.toNat := by
      rw [h.counts _ (slot_lt ts)]
      omega
    rw [toNat_decDoing hpos] at hdoing
    rw [if_pos hw] at hactive
    exact iff_of_true ⟨by omega, by omega⟩ hw
  · rw [if_neg hw] at hactive
    refine iff_of_false ?_ hw
    rintro ⟨hne, heq⟩
    rw [toNat_decDoing (Nat.pos_of_ne_zero hne)] at hdoing
    omega

theorem inv_dec (h : Inv s) (hk : s.requests[k]? = some (.finishing ts))
    (hfresh : FreshTurn s (.finishing ts)) (result : ℤ) : Inv (step s (.advance k result)) := by
  have hw : InWindow s.lastUpdateTime ts := hfresh
  rw [step_advance hk, turn]
  refine ⟨fun i hi => ?_, fun p hp ts' hts' => ?_⟩
  · have hload := load_set s.lastUpdateTime hk .returned i
    rw [counted_of_inFlight (p := .finishing ts) rfl, if_pos hw] at hload
    have hzero : (if counted s.lastUpdateTime .returned = some i then 1 else 0) = 0 := rfl
    have hcount := h.counts i hi
    simp only [State.modify]
    by_cases hij : i = slot ts
    · subst hij
      rw [if_pos rfl] at hload
      rw [update_self, toNat_decDoing (by omega)]
      omega
    · rw [update_of_ne hij]
      rw [if_neg fun heq => hij (Option.some.inj heq).symm] at hload
      omega
  · rcases mem_or_eq_of_mem_set hp with hp | rfl
    · exact h.reached p hp ts' hts'
    · rcases hts' with hts' | hts' <;> cases hts'

/-! ## The other steps -/

/-- the two states have the same window, the same requests and the same `_doing` in every slot -/
structure SameDoing (s s' : State) : Prop where
  doing : ∀ i, (s'.stats i).doing = (s.stats i).doing
  last : s'.lastUpdateTime = s.lastUpdateTime
  requests : s'.requests = s.requests

theorem SameDoing.inv {s' : State} (hs : SameDoing s s') (h : Inv s) : Inv s' := by
  refine ⟨fun i hi => ?_, ?_⟩
  · rw [hs.doing, hs.last, hs.requests]
    exact h.counts i hi
  · rw [hs.last, hs.requests]
    exact h.reached

/-- a step of a request that leaves `_doing` and the window alone, and the request as much in flight as it was -/
structure Quiet (s : State) (p : Phase) (r : Phase × State) : Prop where
  fresh : FreshTurn s p
  keeps : ∀ ts, p ≠ .finishing ts
  same : SameDoing s r.2
  inFlight : r.1.inFlight = p.inFlight
  counts : ∀ ts, r.1 ≠ .counting ts

theorem turn_cases (s : State) (p : Phase) (result : ℤ) :
    (∃ ts, p = .started ts) ∨ (∃ ts, p = .counting ts) ∨ (∃ ts, p = .finishing ts) ∨ Quiet s p (turn s result p) := by
  have hmodify : ∀ (ts : UInt64) (f : HolderStats → HolderStats), (∀ h, (f h).doing = h.doing) →
      SameDoing s (s.modify ts f) := by
    intro ts f hdoing
    exact ⟨fun i => proj_update HolderStats.doing (hdoing (s.stats (slot ts))) i, rfl, rfl⟩
  cases p with
  | started ts => exact .inl ⟨ts, rfl⟩
  | counting ts => exact .inr (.inl ⟨ts, rfl⟩)
  | finishing ts => exact .inr (.inr (.inl ⟨ts, rfl⟩))
  | totalling ts => exact .inr (.inr (.inr ⟨trivial, nofun, hmodify ts (·.incTotal 1) fun _ => rfl, rfl, nofun⟩))
  | timing ts used =>
    exact .inr (.inr (.inr ⟨trivial, nofun, hmodify ts (·.incUsedTime used) fun _ => rfl, rfl, nofun⟩))
  | waiting ts | returned => exact .inr (.inr (.inr ⟨trivial, nofun, ⟨fun _ => rfl, rfl, rfl⟩, rfl, nofun⟩))
  | replied ts ts2 r =>
    refine .inr (.inr (.inr ?_))
    simp only [turn]
    split_ifs
    · exact ⟨trivial, nofun, hmodify ts (·.incOks 1) fun _ => rfl, rfl, nofun⟩
    · exact ⟨trivial, nofun, hmodify ts (·.incTimeouts 1) fun _ => rfl, rfl, nofun⟩
    · exact ⟨trivial, nofun, hmodify ts (·.incErrs 1) fun _ => rfl, rfl, nofun⟩
    · exact ⟨trivial, nofun, ⟨fun _ => rfl, rfl, rfl⟩, rfl, nofun⟩

theorem counted_congr (h : p'.inFlight = p.inFlight) (last : UInt32) : p'.counted last = p.counted last := by
  rw [counted, h]
  rfl

theorem load_set_same (hk : l[k]? = some p) (h : p'.inFlight = p.inFlight)
    (i : ℕ) : load last (l.set k p') i = load last l i := by
  have hset := load_set last hk p' i
  rw [counted_congr h] at hset
  exact Nat.add_right_cancel hset

theorem active_set_same (hk : l[k]? = some p) (h : p'.inFlight = p.inFlight) :
    active last (l.set k p') = active last l := by
  have hset := active_set last hk p'
  rw [counted_congr h] at hset
  exact Nat.add_right_cancel hset

end

theorem inv_set {s' : State} (h : Inv s') (hreq : s'.requests = s.requests) (hk : s.requests[k]? = some p)
    (hp : p'.inFlight = p.inFlight) (hreached : ∀ ts, p' = .counting ts → (second ts).toNat ≤ s'.lastUpdateTime.toNat) :
    Inv { s' with requests := s.requests.set k p' } := by
  rw [← hreq] at hk ⊢
  refine ⟨fun i hi => (h.counts i hi).trans (load_set_same s'.lastUpdateTime hk hp i).symm, fun q hq ts hts => ?_⟩
  rcases mem_or_eq_of_mem_set hq with hq | rfl
  · exact h.reached q hq ts hts
  · rcases hts with hts | hts
    · exact h.reached p (mem_of_getElem? hk) ts (Or.inl (hp ▸ hts))
    · exact hreached ts hts

theorem balanced_set_iff {s' : State} (hreq : s'.requests = s.requests) (hk : s.requests[k]? = some p)
    (hp : p'.inFlight = p.inFlight) : Balanced { s' with requests := s.requests.set k p' } ↔ Balanced s' := by
  rw [← hreq] at hk ⊢
  unfold Balanced
  rw [active_set_same s'.lastUpdateTime hk hp]
  rfl

theorem right_advance_iff (h : Inv s) (hk : s.requests[k]? = some p) (result : ℤ) : Right s (.advance k result) ↔
    FreshTurn s p := by
  rcases turn_cases s p result with ⟨ts, rfl⟩ | ⟨ts, rfl⟩ | ⟨ts, rfl⟩ | hquiet
  · have hflight : (counting ts).inFlight = (started ts).inFlight := rfl
    rw [Right, and_iff_right (noWrap_of_ne hk nofun result), step_advance hk]
    exact (balanced_set_iff (requests_init s (second ts)) hk hflight).trans (balanced_shift_iff h (second ts))
  · exact right_inc_iff h hk result
  · exact right_dec_iff h hk result
  · rw [Right, and_iff_right (noWrap_of_ne hk hquiet.keeps result), step_advance hk,
      balanced_set_iff hquiet.same.requests hk hquiet.inFlight]
    exact iff_of_true (hquiet.same.inv h).balanced hquiet.fresh

theorem inv_advance (h : Inv s) (hk : s.requests[k]? = some p) (hfresh : FreshTurn s p) (result : ℤ) :
    Inv (step s (.advance k result)) := by
  rcases turn_cases s p result with ⟨ts, rfl⟩ | ⟨ts, rfl⟩ | ⟨ts, rfl⟩ | hquiet
  · rw [step_advance hk]
    refine inv_set (inv_init h hfresh) (requests_init s (second ts)) hk rfl ?_
    rintro ts' ⟨⟩
    exact le_last_init s (second ts)
  · exact inv_inc h hk hfresh result
  · exact inv_dec h hk hfresh result
  · rw [step_advance hk]
    exact inv_set (hquiet.same.inv h) hquiet.same.requests hk hquiet.inFlight fun ts hp => absurd hp (hquiet.counts ts)

/-! ## Runs -/

theorem inv_request (h : Inv s) : Inv (step s .request) := by
  refine ⟨fun i hi => ?_, fun p hp ts hts => ?_⟩
  · have hload : load s.lastUpdateTime (s.requests ++ [.started s.clock]) i = load s.lastUpdateTime s.requests i := by
      rw [load, map_append, sum_append]
      rfl
    exact (h.counts i hi).trans hload.symm
  · rcases mem_append.1 hp with hp | hp
    · exact h.reached p hp ts hts
    · obtain rfl := mem_singleton.1 hp
      rcases hts with hts | hts <;> cases hts

theorem inv_tick (h : Inv s) (now : UInt64) : Inv (step s (.tick now)) := ⟨h.counts, h.reached⟩

theorem inv_step {o : Op} (hfresh : Fresh s o) (h : Inv s) : Inv (step s o) := by
  cases o with
  | tick now => exact inv_tick h now
  | request => exact inv_request h
  | weigh => exact inv_init h hfresh
  | advance k result =>
    cases hk : s.requests[k]? with
    | none =>
      simp only [step, hk]
      exact h
    | some p => exact inv_advance h hk (hfresh p hk) result

theorem right_iff_fresh (h : Inv s) (o : Op) : Right s o ↔ Fresh s o := by
  cases o with
  | tick now => exact iff_of_true ⟨trivial, (inv_tick h now).balanced⟩ trivial
  | request => exact iff_of_true ⟨trivial, (inv_request h).balanced⟩ trivial
  | weigh => exact (and_iff_right trivial).trans (balanced_shift_iff h (second s.clock))
  | advance k result =>
    cases hk : s.requests[k]? with
    | none =>
      simp only [Right, NoWrap, Fresh, step, hk]
      exact iff_of_true ⟨nofun, h.balanced⟩ nofun
    | some p =>
      rw [right_advance_iff h hk result, Fresh, hk]
      exact ⟨fun hp q hq => Option.some.inj hq ▸ hp, fun hp => hp p rfl⟩

theorem inv_start : Inv start where
  counts _ _ := rfl
  reached p hp := by cases hp

/-- **Requests in flight.** -/
theorem doing_iff (ops : List Op) : Meets step Right start ops ↔ Meets step Fresh start ops :=
  meets_congr (fun _ _ hfresh h => inv_step hfresh h) (fun _ o h => right_iff_fresh h o) inv_start ops

theorem long_request_wraps :
    let s := run step start
      [.tick 1000, .request, .advance 0 0, .advance 0 0, .advance 0 0, .tick 6000, .request, .advance 1 0,
      .advance 0 0, .advance 0 0, .advance 0 0]
    let s' := step s (.advance 0 0)
    s.requests = [.finishing 1000, .counting 6000] ∧ (s.stats (slot 1000)).doing = 0 ∧ s'.doing = 2 ^ 32 - 1 ∧
      active s'.lastUpdateTime s'.requests = 0 := by
  decide +kernel

end CoServer.LoadBalance.Stats
