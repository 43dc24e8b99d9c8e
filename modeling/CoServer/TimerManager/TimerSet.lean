/-
The timer set: its order, what the sections of the manager do to it, and the invariant they keep.

The key of the set is a mutable deadline. `refresh`, `reset` and the re-arming of recurring timers erase the timer,
change its deadline and insert it again, so the members of the set keep the key they were inserted with (`Inv.sorted`),
and `find` finds a timer by its own key. A timer outside the set has no callback (`Inv.spent`). `Inv.expires`: the
write-locked section hands out every timer due, once, and inserts the recurring ones again.
-/
import CoServer.Core.Update
import CoServer.TimerManager.Machine

namespace CoServer.TimerManager

open CoServer.Core List St OrderedSet
open CoServer.Core.OrderedSet (Sorted Keyed)

/-! ## The order of the set -/

/-- the key of a timer: its deadline, then its address -/
def St.key (s : St) (id : ℕ) : ℕ ×ₗ ℕ := toLex ((s.timers id).next, (s.timers id).addr)

theorem less_iff (a b : Timer) : less a b = true ↔ toLex (a.next, a.addr) < toLex (b.next, b.addr) := by
  rw [Prod.Lex.toLex_lt_toLex]
  unfold less
  split_ifs with h1 h2
  · simp [h1]
  · simp only [false_iff, not_or, not_and]
    omega
  · have : a.next = b.next := by omega
    simp [this]

theorem lt_keyed (s : St) : Keyed s.lt s.key := fun a b => less_iff (s.timers a) (s.timers b)

variable {s : St}

theorem key_ne {a b : ℕ} (h : (s.timers a).addr ≠ (s.timers b).addr) : s.key a ≠ s.key b := by
  intro hk
  exact h (congrArg (fun k => (ofLex k).2) hk)

theorem next_le_of_key_lt {a b : ℕ} (h : s.key a < s.key b) : (s.timers a).next ≤ (s.timers b).next := by
  rw [key, key, Prod.Lex.toLex_lt_toLex] at h
  rcases h with h | ⟨h, -⟩
  · exact h.le
  · exact h.le

/-- the timer can be inserted: the set is sorted and no member has the address of the timer -/
structure Fits (s : St) (id : ℕ) : Prop where
  sorted : Sorted s.key s.set
  addr : ∀ z ∈ s.set, (s.timers z).addr ≠ (s.timers id).addr

variable {id : ℕ}

theorem Fits.key_ne (h : Fits s id) : ∀ z ∈ s.set, s.key z ≠ s.key id := fun z hz => TimerManager.key_ne (h.addr z hz)

theorem Fits.insert_sorted (h : Fits s id) : Sorted s.key (s.insertTimer id).set :=
  h.sorted.insert (lt_keyed s) h.key_ne

theorem Fits.mem_insert (h : Fits s id) (z : ℕ) : z ∈ (s.insertTimer id).set ↔ z = id ∨ z ∈ s.set :=
  OrderedSet.mem_insert (lt_keyed s) h.key_ne

theorem Fits.not_front (h : Fits s id) (hf : (s.insertTimer id).set.head? ≠ some id) :
    ∃ z ∈ s.set, (s.timers z).next ≤ (s.timers id).next := by
  have hnot := fun hall => hf ((insert_head (lt_keyed s) h.key_ne h.sorted).2 hall)
  obtain ⟨z, hz, hle⟩ : ∃ z ∈ s.set, ¬ s.key id < s.key z := by
    by_contra hcon
    exact hnot fun z hz => by_contra fun hlt => hcon ⟨z, hz, hlt⟩
  exact ⟨z, hz, next_le_of_key_lt (lt_of_le_of_ne (not_lt.1 hle) (h.key_ne z hz))⟩

theorem cut_eq (hs : Sorted s.key s.set) (now addr : ℕ) :
    cut s now addr = (s.set.filter fun id => (s.timers id).next ≤ now,
      s.set.filter fun id => !decide ((s.timers id).next ≤ now)) := by
  have hbelow : ∀ id, less (s.timers id) ⟨false, 0, now, none, addr⟩ = true →
      decide ((s.timers id).next ≤ now) = true := by
    intro id h
    unfold less at h
    split_ifs at h with h1 h2
    · simpa using h1.le
    · simpa using h2
  have hprobe : ∀ a b, s.key a < s.key b → less (s.timers b) ⟨false, 0, now, none, addr⟩ = true →
      less (s.timers a) ⟨false, 0, now, none, addr⟩ = true := by
    intro a b hab hb
    rw [less_iff] at hb ⊢
    exact lt_trans hab hb
  -- behind the lower bound, a deadline is at most `now` iff it is `now`
  have hskip : ∀ id ∈ s.set.dropWhile (fun id => less (s.timers id) ⟨false, 0, now, none, addr⟩),
      decide ((s.timers id).next = now) = decide ((s.timers id).next ≤ now) := by
    intro id hid
    rw [dropWhile_filter hprobe hs] at hid
    have hnot := (mem_filter.1 hid).2
    simp only [less, Bool.not_eq_true'] at hnot
    split_ifs at hnot with h1 h2
    · simp [h2.ne', h2]
    · have heq : (s.timers id).next = now := by omega
      simp [heq]
  have hdue : ∀ a b : ℕ, s.key a < s.key b → decide ((s.timers b).next ≤ now) = true →
      decide ((s.timers a).next ≤ now) = true := by
    intro a b hab hb
    simp only [decide_eq_true_eq] at hb ⊢
    exact (next_le_of_key_lt hab).trans hb
  obtain ⟨h1, h2⟩ := cut_twice hbelow hskip
  unfold cut
  dsimp only
  rw [h1, h2, takeWhile_filter hdue hs, dropWhile_filter hdue hs]

/-! ## The loop over the expired timers -/

variable (now : ℕ)

variable (x : Timer)

/-- a timer after its expiry at `now` -/
def Timer.expired : Timer :=
  if x.recurring then { x with next := add64 now x.ms } else { x with callback := none }

@[simp] theorem Timer.expired_recurring : (x.expired now).recurring = x.recurring := by
  unfold Timer.expired; split_ifs <;> rfl

@[simp] theorem Timer.expired_addr : (x.expired now).addr = x.addr := by
  unfold Timer.expired; split_ifs <;> rfl

/-- what the expiry of the timers `E` does: each is handed out once, the recurring ones are armed again and inserted -/
structure Expires (now pos : ℕ) (E : List ℕ) (s s' : St) : Prop where
  sorted : Sorted s'.key s'.set
  members : ∀ z, z ∈ s'.set ↔ z ∈ s.set ∨ z ∈ E ∧ (s.timers z).recurring = true
  timers : ∀ z, s'.timers z = if z ∈ E then (s.timers z).expired now else s.timers z
  base : ∀ z, s'.base z = if z ∈ E ∧ (s.timers z).recurring = true then now else s.base z
  setAt : ∀ z, s'.setAt z = if z ∈ E ∧ (s.timers z).recurring = true then pos else s.setAt z
  fired : s'.fired = s.fired ++ E.map fun id => (id, (s.timers id).callback)
  frame : s' = { s with timers := s'.timers, set := s'.set, base := s'.base, setAt := s'.setAt, fired := s'.fired }

theorem sorted_update (hs : Sorted s.key s.set) (hid : id ∉ s.set) :
    Sorted (s.setTimer id x).key s.set := by
  refine hs.congr fun z hz => ?_
  have hne : z ≠ id := by rintro rfl; exact hid hz
  simp [key, setTimer, hne]

theorem expireOne_spec (now pos : ℕ) (hs : Sorted s.key s.set) (hid : id ∉ s.set)
    (haddr : ∀ z ∈ s.set, (s.timers z).addr ≠ (s.timers id).addr) :
    Expires now pos [id] s (expireOne now pos s id) := by
  unfold expireOne
  by_cases hr : (s.timers id).recurring = true
  · rw [if_pos hr]
    have hsorted := sorted_update { s.timers id with next := add64 now (s.timers id).ms } hs hid
    have hfits : Fits ({ s with fired := s.fired ++ [(id, (s.timers id).callback)] }.arm id
        (add64 now (s.timers id).ms) now pos) id := by
      refine ⟨hsorted, fun z hz => ?_⟩
      have hne : z ≠ id := by rintro rfl; exact hid hz
      simpa [arm, hne] using haddr z hz
    refine ⟨hfits.insert_sorted, fun z => ?_, fun z => ?_, fun z => ?_, fun z => ?_, rfl, rfl⟩
    · rw [hfits.mem_insert]
      simp only [arm, mem_singleton]
      constructor
      · rintro (rfl | hz)
        · exact .inr ⟨rfl, hr⟩
        · exact .inl hz
      · rintro (hz | ⟨rfl, -⟩)
        · exact .inr hz
        · exact .inl rfl
    · by_cases hz : z = id
      · subst hz; simp [insertTimer, arm, Timer.expired, hr]
      · simp [insertTimer, arm, hz]
    all_goals
      by_cases hz : z = id
      · subst hz; simp [insertTimer, arm, hr]
      · simp [insertTimer, arm, hz]
  · rw [if_neg hr]
    refine ⟨sorted_update _ hs hid, fun z => ?_, fun z => ?_, fun z => ?_, fun z => ?_, rfl, rfl⟩
    · simp only [setTimer, mem_singleton]
      constructor
      · exact .inl
      · rintro (hz | ⟨rfl, hz⟩)
        · exact hz
        · exact absurd hz hr
    · by_cases hz : z = id
      · subst hz; simp [setTimer, Timer.expired, hr]
      · simp [setTimer, hz]
    all_goals
      have : ¬ (z ∈ [id] ∧ (s.timers z).recurring = true) := by
        rintro ⟨hz, hzr⟩; rw [mem_singleton.1 hz] at hzr; exact hr hzr
      simp only [if_neg this, setTimer]

theorem Expires.cons {now pos : ℕ} {E : List ℕ} {s1 s' : St} (h1 : Expires now pos [id] s s1)
    (h2 : Expires now pos E s1 s') (hid : id ∉ E) : Expires now pos (id :: E) s s' := by
  have hkeep : ∀ z ∈ E, s1.timers z = s.timers z := by
    intro z hz
    have hne : z ≠ id := by rintro rfl; exact hid hz
    rw [h1.timers, if_neg (by simpa using hne)]
  have hrec : ∀ z, (s1.timers z).recurring = (s.timers z).recurring := by
    intro z
    rw [h1.timers]
    split_ifs <;> simp
  refine ⟨h2.sorted, fun z => ?_, fun z => ?_, fun z => ?_, fun z => ?_, ?_, ?_⟩
  · rw [h2.members, h1.members, hrec, mem_singleton, mem_cons]
    tauto
  · rw [h2.timers]
    by_cases hz : z ∈ E
    · rw [if_pos hz, if_pos (mem_cons_of_mem _ hz), hkeep z hz]
    · rw [h1.timers]
      simp [hz]
  · rw [h2.base, h1.base, hrec]
    by_cases hz : z ∈ E <;> by_cases hr : (s.timers z).recurring = true <;> simp [hz, hr]
  · rw [h2.setAt, h1.setAt, hrec]
    by_cases hz : z ∈ E <;> by_cases hr : (s.timers z).recurring = true <;> simp [hz, hr]
  · have hmap : (E.map fun z => (z, (s1.timers z).callback)) = E.map fun z => (z, (s.timers z).callback) :=
      map_congr_left fun z hz => by rw [hkeep z hz]
    rw [h2.fired, h1.fired, hmap]
    simp
  · rw [h2.frame, h1.frame]

theorem expireAll_spec (now pos : ℕ) (E : List ℕ) (s : St) (hs : Sorted s.key s.set) (hE : E.Nodup)
    (hdis : ∀ id ∈ E, id ∉ s.set)
    (haddr : ∀ i j, i ∈ E ∨ i ∈ s.set → j ∈ E ∨ j ∈ s.set → (s.timers i).addr = (s.timers j).addr → i = j) :
    Expires now pos E s (E.foldl (expireOne now pos) s) := by
  induction E generalizing s with
  | nil => exact ⟨hs, by simp, by simp, by simp, by simp, by simp, rfl⟩
  | cons id E ih =>
    obtain ⟨hid, hE⟩ := nodup_cons.1 hE
    have hidset := hdis id mem_cons_self
    have h1 := expireOne_spec now pos hs hidset fun z hz heq => by
      have := haddr z id (.inr hz) (.inl mem_cons_self) heq
      exact hidset (this ▸ hz)
    have haddr1 : ∀ z, ((expireOne now pos s id).timers z).addr = (s.timers z).addr := by
      intro z
      rw [h1.timers]
      split_ifs <;> simp
    -- a member of the new set was a member, or is the timer just expired
    have hmem : ∀ z, z ∈ (expireOne now pos s id).set → z = id ∨ z ∈ s.set := by
      intro z hz
      rcases (h1.members z).1 hz with hz | ⟨hz, -⟩
      · exact .inr hz
      · exact .inl (mem_singleton.1 hz)
    refine h1.cons (ih _ h1.sorted hE (fun z hz hzs => ?_) fun i j hi hj heq => ?_) hid
    · rcases hmem z hzs with rfl | hzs
      · exact hid hz
      · exact hdis z (mem_cons_of_mem _ hz) hzs
    rw [haddr1, haddr1] at heq
    have hin : ∀ z, z ∈ E ∨ z ∈ (expireOne now pos s id).set → z ∈ id :: E ∨ z ∈ s.set := by
      rintro z (hz | hz)
      · exact .inl (mem_cons_of_mem _ hz)
      · rcases hmem z hz with rfl | hz
        · exact .inl mem_cons_self
        · exact .inr hz
    exact haddr i j (hin i hi) (hin j hj) heq

/-! ## The write-locked section -/

/-- the test by which the section selects a timer -/
def St.isDue (s : St) (now id : ℕ) : Bool := rolledOver s.previousTime now || decide ((s.timers id).next ≤ now)

theorem due_eq (hs : Sorted s.key s.set) (now addr : ℕ) :
    due s now addr = (s.set.filter (s.isDue now), s.set.filter fun id => !s.isDue now id) := by
  unfold due
  by_cases hr : rolledOver s.previousTime now = true
  · have hall : s.isDue now = fun _ => true := by funext id; simp [isDue, hr]
    rw [if_pos hr, hall]
    simp
  · have hcut : s.isDue now = fun id => decide ((s.timers id).next ≤ now) := by funext id; simp [isDue, hr]
    rw [if_neg hr, cut_eq hs, hcut]

theorem expireSection_nil (h : s.set = []) (now pos addr : ℕ) : expireSection s now pos addr = s := by
  simp [expireSection, h]

theorem expireSection_eq (hs : Sorted s.key s.set) (hne : s.set ≠ []) (now pos addr : ℕ) :
    expireSection s now pos addr = (s.set.filter (s.isDue now)).foldl (expireOne now pos)
      { s with previousTime := now, set := s.set.filter fun id => !s.isDue now id } := by
  unfold expireSection
  obtain ⟨first, rest, hset⟩ := exists_cons_of_ne_nil hne
  split
  next h => exact absurd h hne
  next first' rest' h =>
    obtain ⟨rfl, rfl⟩ : first = first' ∧ rest = rest' := by simpa [hset] using h
    split_ifs with hquiet
    · simp only [Bool.and_eq_true, Bool.not_eq_true', decide_eq_true_eq] at hquiet
      -- the first deadline is the smallest, so no timer is due
      have hnone : ∀ z ∈ s.set, s.isDue now z = false := by
        intro z hz
        have hle : (s.timers first).next ≤ (s.timers z).next := by
          rw [hset] at hz hs
          rcases mem_cons.1 hz with rfl | hz
          · exact le_rfl
          · exact next_le_of_key_lt ((pairwise_cons.1 hs).1 z hz)
        have : now < (s.timers z).next := lt_of_lt_of_le hquiet.2 hle
        simp [isDue, hquiet.1, this]
      have h1 : s.set.filter (s.isDue now) = [] := filter_eq_nil_iff.2 fun z hz => by simp [hnone z hz]
      have h2 : (s.set.filter fun id => !s.isDue now id) = s.set := filter_eq_self.2 fun z hz => by simp [hnone z hz]
      rw [h1, h2]
      rfl
    · rw [due_eq hs]

/-! ## The invariant -/

/-- a timer of the set taken out and given a new interval and deadline -/
def St.rearmed (s : St) (id ms next base : ℕ) : St :=
  { { s with set := s.set.erase id }.setTimer id { s.timers id with ms := ms, next := next } with
    base := Function.update s.base id base
    setAt := Function.update s.setAt id (s.clock.length - 1) }

/-- added, not cancelled, and not handed out unless recurring -/
def St.live (s : St) (id : ℕ) : Prop :=
  id ∈ s.added ∧ id ∉ s.cancelled ∧ (id ∈ s.fired.map Prod.fst → (s.timers id).recurring = true)

structure Inv (s : St) : Prop where
  sorted : Sorted s.key s.set
  members : ∀ id, id ∈ s.set ↔ s.live id
  /-- a timer that left the set has no callback: `refresh`, `reset` and a second `cancel` fail -/
  spent : ∀ id ∈ s.added, id ∉ s.set → (s.timers id).callback = none
  freed : ∀ id ∈ s.freed, id ∈ s.added ∧ id ∉ s.set
  addr : ∀ i j, s.alive i → s.alive j → (s.timers i).addr = (s.timers j).addr → i = j
  added_lt : ∀ id ∈ s.added, id < s.nextId
  adding : ∀ t id, s.calls t = .adding id → id < s.nextId ∧ id ∉ s.added
  adding_unique : ∀ t u id, s.calls t = .adding id → s.calls u = .adding id → t = u
  logs : (∀ id ∈ s.cancelled, id ∈ s.added) ∧ ∀ id ∈ s.fired.map Prod.fst, id ∈ s.added

theorem ret_calls {t u : ℕ} {c c' : Call} (h : (s.ret t c).calls u = c') : u = t ∧ c = c' ∨ u ≠ t ∧ s.calls u = c' :=
  update_cases h

theorem init_inv : Inv (init now) := by constructor <;> simp [init, live, Sorted, alive]

namespace Inv

variable {s : St}

variable {id : ℕ}

section

variable (h : Inv s)
include h

theorem mem_added (hid : id ∈ s.set) : id ∈ s.added := ((h.members id).1 hid).1

theorem alive (hid : id ∈ s.set) : s.alive id := ⟨h.added_lt id (h.mem_added hid), fun hf => (h.freed id hf).2 hid⟩

theorem addr_ne {i j : ℕ} (hi : i ∈ s.set) (hj : s.alive j) (hne : i ≠ j) : (s.timers i).addr ≠ (s.timers j).addr :=
  fun heq => hne (h.addr i j (h.alive hi) hj heq)

theorem mem_set (hid : id ∈ s.added) (hcb : (s.timers id).callback ≠ none) : id ∈ s.set := by
  by_contra hn
  exact hcb (h.spent id hid hn)

theorem tick (now : ℕ) : Inv (s.tick now) :=
  ⟨h.sorted, h.members, h.spent, h.freed, h.addr, h.added_lt, h.adding, h.adding_unique, h.logs⟩

theorem observed (tickled : Bool) (seen : Option (List ℕ)) (notified : Bool) :
    Inv { s with tickled := tickled, seen := seen, notified := notified } :=
  ⟨h.sorted, h.members, h.spent, h.freed, h.addr, h.added_lt, h.adding, h.adding_unique, h.logs⟩

theorem ret (t : ℕ) {c : Call} (hc : ∀ id, c ≠ .adding id) : Inv (s.ret t c) := by
  have hkeep : ∀ u id, (s.ret t c).calls u = .adding id → s.calls u = .adding id := by
    intro u id hu
    rcases ret_calls hu with ⟨-, hcu⟩ | ⟨-, hu⟩
    · exact absurd hcu (hc id)
    · exact hu
  exact ⟨h.sorted, h.members, h.spent, h.freed, h.addr, h.added_lt, fun u id hu => h.adding u id (hkeep u id hu),
    fun u v id hu hv => h.adding_unique u v id (hkeep u id hu) (hkeep v id hv), h.logs⟩

theorem construct (t now ms addr : ℕ) (callback : Option ℕ) (recurring : Bool)
    (hfresh : ∀ i < s.nextId, i ∉ s.freed → (s.timers i).addr ≠ addr) :
    Inv (TimerManager.construct s t now ms callback recurring addr) := by
  have hne : ∀ id ∈ s.added, id ≠ s.nextId := fun id hid => (h.added_lt id hid).ne
  have hadd : s.nextId ∉ s.added := fun hin => hne _ hin rfl
  have htimers : ∀ z, z ≠ s.nextId →
      (TimerManager.construct s t now ms callback recurring addr).timers z = s.timers z := fun z hz => by
    simp [TimerManager.construct, St.ret, St.arm, St.setTimer, St.tick, hz]
  have haddr : ((TimerManager.construct s t now ms callback recurring addr).timers s.nextId).addr = addr := by
    simp [TimerManager.construct, St.ret, St.arm, St.setTimer]
  refine ⟨?_, fun id => ?_, fun id hid hset => ?_, h.freed, fun i j hi hj heq => ?_, fun id hid => ?_, ?_, ?_, h.logs⟩
  · refine h.sorted.congr fun z hz => ?_
    simp only [St.key, htimers z (hne z (h.mem_added hz))]
  · refine (h.members id).trans (and_congr_right fun hid => ?_)
    rw [htimers id (hne id hid)]
    exact Iff.rfl
  · rw [htimers id (hne id hid)]
    exact h.spent id hid hset
  · -- the new address differs from that of every object alive
    have hold : ∀ k, (k < s.nextId + 1 ∧ k ∉ s.freed) → k ≠ s.nextId → s.alive k := fun k hk hkn => ⟨by omega, hk.2⟩
    by_cases hin : i = s.nextId <;> by_cases hjn : j = s.nextId
    · rw [hin, hjn]
    · rw [hin, haddr, htimers j hjn] at heq
      exact absurd heq.symm (hfresh j (hold j hj hjn).1 hj.2)
    · rw [hjn, haddr, htimers i hin] at heq
      exact absurd heq (hfresh i (hold i hi hin).1 hi.2)
    · rw [htimers i hin, htimers j hjn] at heq
      exact h.addr i j (hold i hi hin) (hold j hj hjn) heq
  · exact (h.added_lt id hid).trans (Nat.lt_succ_self _)
  · intro u id hu
    rcases ret_calls hu with ⟨-, hid⟩ | ⟨-, hu⟩
    · cases hid
      exact ⟨Nat.lt_succ_self _, hadd⟩
    · exact ⟨(h.adding u id hu).1.trans (Nat.lt_succ_self _), (h.adding u id hu).2⟩
  · -- a thread that was adding a timer already is adding an older one
    have hold : ∀ u, s.calls u ≠ .adding s.nextId := fun u hu => (h.adding u _ hu).1.ne rfl
    intro u v id hu hv
    rcases ret_calls hu with ⟨rfl, hid⟩ | ⟨-, hu'⟩ <;> rcases ret_calls hv with ⟨rfl, hid'⟩ | ⟨-, hv'⟩
    · rfl
    · cases hid
      exact absurd hv' (hold v)
    · cases hid'
      exact absurd hu' (hold u)
    · exact h.adding_unique u v id hu' hv'

theorem fits_adding {t : ℕ} (ht : s.calls t = .adding id) : Fits s id := by
  obtain ⟨hlt, hnew⟩ := h.adding t id ht
  refine ⟨h.sorted, fun z hz => h.addr_ne hz ⟨hlt, fun hf => hnew (h.freed id hf).1⟩ ?_⟩
  rintro rfl
  exact hnew (h.mem_added hz)

theorem insert {t : ℕ} (ht : s.calls t = .adding id) (tickled : Bool) {c : Call} (hc : ∀ id, c ≠ .adding id) :
    Inv ({ { s with added := s.added ++ [id] }.insertTimer id with tickled := tickled }.ret t c) := by
  obtain ⟨hlt, hnew⟩ := h.adding t id ht
  have hfree : id ∉ s.freed := fun hf => hnew (h.freed id hf).1
  have hmem := (h.fits_adding ht).mem_insert
  have hsub : ∀ z, z ∈ s.added → z ∈ s.added ++ [id] := fun z hz => mem_append_left _ hz
  have hkeep :
    ∀ u z, (St.ret { { s with added := s.added ++ [id] }.insertTimer id with tickled := tickled } t c).calls u
      = .adding z → u ≠ t ∧ s.calls u = .adding z := by
    intro u z hu
    rcases ret_calls hu with ⟨-, hcu⟩ | hu
    · exact absurd hcu (hc z)
    · exact hu
  refine ⟨(h.fits_adding ht).insert_sorted, fun z => ?_, fun z hz hzs => ?_, fun z hz => ?_, h.addr, fun z hz => ?_,
    fun u z hu => ?_,
    fun u v z hu hv => h.adding_unique u v z (hkeep u z hu).2 (hkeep v z hv).2,
    fun z hz => hsub z (h.logs.1 z hz), fun z hz => hsub z (h.logs.2 z hz)⟩
  · refine (hmem z).trans ⟨?_, fun hz => ?_⟩
    · rintro (rfl | hz)
      · exact ⟨mem_append_right _ (mem_singleton_self z), fun hcn => hnew (h.logs.1 z hcn),
          fun hf => absurd (h.logs.2 z hf) hnew⟩
      · obtain ⟨h1, h2, h3⟩ := (h.members z).1 hz
        exact ⟨hsub z h1, h2, h3⟩
    · rcases mem_append.1 hz.1 with hza | hza
      · exact .inr ((h.members z).2 ⟨hza, hz.2⟩)
      · exact .inl (mem_singleton.1 hza)
  · have hnz := not_or.1 (fun ho => hzs ((hmem z).2 ho))
    rcases mem_append.1 hz with hza | hza
    · exact h.spent z hza hnz.2
    · exact absurd (mem_singleton.1 hza) hnz.1
  · refine ⟨hsub z (h.freed z hz).1, fun hin => ?_⟩
    rcases (hmem z).1 hin with rfl | hin
    · exact hfree hz
    · exact (h.freed z hz).2 hin
  · rcases mem_append.1 hz with hza | hza
    · exact h.added_lt z hza
    · exact mem_singleton.1 hza ▸ hlt
  · obtain ⟨hut, hu⟩ := hkeep u z hu
    refine ⟨(h.adding u z hu).1, fun hin => ?_⟩
    rcases mem_append.1 hin with hin | hin
    · exact (h.adding u z hu).2 hin
    · rw [mem_singleton.1 hin] at hu
      exact hut (h.adding_unique u t id hu ht)

theorem mem_erase (z : ℕ) : z ∈ s.set.erase id ↔ z ≠ id ∧ z ∈ s.set := h.sorted.nodup.mem_erase_iff

section

variable (hid : id ∈ s.set)
include hid

theorem cancel : Inv { s.setTimer id { s.timers id with callback := none } with
      set := s.set.erase id, cancelled := s.cancelled ++ [id] } := by
  have hmem : ∀ z, z ∈ s.set.erase id ↔ z ≠ id ∧ z ∈ s.set := h.mem_erase
  have htimers : ∀ z, z ≠ id → (s.setTimer id { s.timers id with callback := none }).timers z = s.timers z :=
    fun z hz => Function.update_of_ne hz _ _
  have hdata :
    ∀ z, ((s.setTimer id { s.timers id with callback := none }).timers z).recurring = (s.timers z).recurring ∧
      ((s.setTimer id { s.timers id with callback := none }).timers z).addr = (s.timers z).addr := by
    intro z
    exact ⟨proj_update Timer.recurring (by rfl) z, proj_update Timer.addr (by rfl) z⟩
  refine ⟨?_, fun z => ?_, fun z hz hzs => ?_, fun z hz => ?_, fun i j hi hj heq => ?_, h.added_lt, h.adding,
    h.adding_unique, fun z hz => ?_, h.logs.2⟩
  · refine (h.sorted.erase id).congr fun z hz => ?_
    simp only [key, htimers z ((hmem z).1 hz).1]
  · refine (hmem z).trans ⟨fun ⟨hne, hz⟩ => ?_, fun hz => ?_⟩
    · obtain ⟨h1, h2, h3⟩ := (h.members z).1 hz
      exact ⟨h1, by simp [h2, hne], fun hf => (hdata z).1.trans (h3 hf)⟩
    · obtain ⟨h1, h2, h3⟩ := hz
      rw [mem_append, mem_singleton, not_or] at h2
      exact ⟨h2.2, (h.members z).2 ⟨h1, h2.1, fun hf => (hdata z).1.symm.trans (h3 hf)⟩⟩
  · by_cases hne : z = id
    · subst hne; simp [setTimer]
    · have := h.spent z hz fun hin => hzs ((hmem z).2 ⟨hne, hin⟩)
      rwa [← htimers z hne] at this
  · exact ⟨(h.freed z hz).1, fun hin => (h.freed z hz).2 ((hmem z).1 hin).2⟩
  · exact h.addr i j hi hj ((hdata i).2.symm.trans (heq.trans (hdata j).2))
  · rcases mem_append.1 hz with hz | hz
    · exact h.logs.1 z hz
    · rw [mem_singleton.1 hz]
      exact h.mem_added hid

theorem fits_rearmed (ms next base : ℕ) : Fits (s.rearmed id ms next base) id := by
  refine ⟨?_, fun z hz => ?_⟩
  · have hnot : id ∉ s.set.erase id := fun hin => ((h.mem_erase id).1 hin).1 rfl
    exact sorted_update (s := { s with set := s.set.erase id }) _ (h.sorted.erase id) hnot
  · obtain ⟨hne, hz⟩ := (h.mem_erase z).1 hz
    simpa [rearmed, setTimer, hne] using h.addr_ne hz (h.alive hid) hne

theorem mem_rearmed (ms next base z : ℕ) : z ∈ ((s.rearmed id ms next base).insertTimer id).set ↔
    z ∈ s.set := by
  rw [(h.fits_rearmed hid ms next base).mem_insert]
  refine ⟨?_, fun hz => ?_⟩
  · rintro (rfl | hz)
    · exact hid
    · exact ((h.mem_erase z).1 hz).2
  · by_cases hne : z = id
    · exact .inl hne
    · exact .inr ((h.mem_erase z).2 ⟨hne, hz⟩)

theorem rearm (ms next base : ℕ) (tickled : Bool) :
    Inv { (s.rearmed id ms next base).insertTimer id with tickled := tickled } := by
  have hset := h.mem_rearmed hid ms next base
  have hdata : ∀ z, ((s.rearmed id ms next base).timers z).recurring = (s.timers z).recurring ∧
      ((s.rearmed id ms next base).timers z).addr = (s.timers z).addr ∧
      ((s.rearmed id ms next base).timers z).callback = (s.timers z).callback := by
    intro z
    exact ⟨proj_update Timer.recurring (by rfl) z, proj_update Timer.addr (by rfl) z,
      proj_update Timer.callback (by rfl) z⟩
  refine ⟨(h.fits_rearmed hid ms next base).insert_sorted, fun z => ?_, fun z hz hzs => ?_, fun z hz => ?_,
    fun i j hi hj heq => ?_, h.added_lt, h.adding, h.adding_unique, h.logs⟩
  · refine (hset z).trans ((h.members z).trans ?_)
    refine and_congr_right fun _ => and_congr_right fun _ => imp_congr_right fun _ => ?_
    exact (hdata z).1 ▸ Iff.rfl
  · exact (hdata z).2.2.trans (h.spent z hz fun hin => hzs ((hset z).2 hin))
  · exact ⟨(h.freed z hz).1, fun hin => (h.freed z hz).2 ((hset z).1 hin)⟩
  · exact h.addr i j hi hj ((hdata i).2.1.symm.trans (heq.trans (hdata j).2.1))

end

theorem expires (hne : s.set ≠ []) (now pos addr : ℕ) :
    Expires now pos (s.set.filter (s.isDue now))
      { s with previousTime := now, set := s.set.filter fun id => !s.isDue now id } (expireSection s now pos addr) := by
  rw [expireSection_eq h.sorted hne]
  refine expireAll_spec now pos _ _ (h.sorted.filter _) (h.sorted.nodup.filter _) (fun id hid hrest => ?_)
    fun i j hi hj heq => ?_
  · have h1 := (mem_filter.1 hid).2
    have h2 := (mem_filter.1 hrest).2
    simp [h1] at h2
  · have hin : ∀ z, (z ∈ s.set.filter (s.isDue now) ∨ z ∈ s.set.filter fun id => !s.isDue now id) → s.alive z := by
      rintro z (hz | hz) <;> exact h.alive (mem_filter.1 hz).1
    exact h.addr i j (hin i hi) (hin j hj) heq

theorem mem_expireSection (now pos addr id : ℕ) :
    id ∈ (expireSection s now pos addr).set ↔
      id ∈ s.set ∧ (s.isDue now id = true → (s.timers id).recurring = true) := by
  by_cases hne : s.set = []
  · simp [expireSection_nil hne, hne]
  · rw [(h.expires hne now pos addr).members id]
    by_cases hdue : s.isDue now id = true <;> simp [hdue]

theorem expire (now pos addr : ℕ) : Inv (expireSection s now pos addr) := by
  by_cases hne : s.set = []
  · rw [expireSection_nil hne]; exact h
  have hexp := h.expires hne now pos addr
  have hmem := h.mem_expireSection now pos addr
  have hdata : ∀ z, ((expireSection s now pos addr).timers z).recurring = (s.timers z).recurring ∧
      ((expireSection s now pos addr).timers z).addr = (s.timers z).addr := by
    intro z
    rw [hexp.timers]
    split_ifs <;> simp
  have hfired : ∀ z, z ∈ (expireSection s now pos addr).fired.map Prod.fst ↔
      z ∈ s.fired.map Prod.fst ∨ z ∈ s.set ∧ s.isDue now z = true := by
    rw [hexp.fired, map_append]
    simp
  generalize expireSection s now pos addr = s' at *
  have hadded : s'.added = s.added := by rw [hexp.frame]
  have hcancelled : s'.cancelled = s.cancelled := by rw [hexp.frame]
  have hfreed : s'.freed = s.freed := by rw [hexp.frame]
  have hnext : s'.nextId = s.nextId := by rw [hexp.frame]
  have hcalls : s'.calls = s.calls := by rw [hexp.frame]
  have halive : ∀ z, s'.alive z ↔ s.alive z := fun z => by simp only [St.alive, hnext, hfreed]
  refine ⟨hexp.sorted, fun z => ?_, fun z hz hzs => ?_, fun z hz => ?_, fun i j hi hj heq => ?_, ?_, ?_, ?_, ?_,
    fun z hz => ?_⟩
  · rw [hmem, h.members, live, live, hadded, hcancelled, (hdata z).1, hfired]
    constructor
    · rintro ⟨⟨h1, h2, h3⟩, hdue⟩
      exact ⟨h1, h2, fun hf => hf.elim h3 fun hf => hdue hf.2⟩
    · rintro ⟨h1, h2, h3⟩
      have hlive : s.live z := ⟨h1, h2, fun hf => h3 (.inl hf)⟩
      exact ⟨hlive, fun hdue => h3 (.inr ⟨(h.members z).2 hlive, hdue⟩)⟩
  · rw [hadded] at hz
    rw [hexp.timers z]
    by_cases hin : z ∈ s.set
    · -- the timer was due and is not recurring
      obtain ⟨hdue, hrec⟩ : s.isDue now z = true ∧ (s.timers z).recurring ≠ true :=
        Classical.not_imp.1 fun himp => hzs ((hmem z).2 ⟨hin, himp⟩)
      rw [if_pos (mem_filter.2 ⟨hin, hdue⟩), Timer.expired, if_neg hrec]
    · rw [if_neg fun hf => hin (mem_filter.1 hf).1]
      exact h.spent z hz hin
  · rw [hfreed] at hz
    exact ⟨hadded ▸ (h.freed z hz).1, fun hin => (h.freed z hz).2 ((hmem z).1 hin).1⟩
  · rw [(hdata i).2, (hdata j).2] at heq
    exact h.addr i j ((halive i).1 hi) ((halive j).1 hj) heq
  · rw [hadded, hnext]
    exact h.added_lt
  · rw [hcalls, hadded, hnext]
    exact h.adding
  · rw [hcalls]
    exact h.adding_unique
  · rw [hcancelled, hadded]
    exact h.logs.1
  · rw [hadded]
    rcases (hfired z).1 hz with hz | hz
    · exact h.logs.2 z hz
    · exact h.mem_added hz.1

theorem free (hid : id ∈ s.added) (hset : id ∉ s.set) : Inv { s with freed := s.freed ++ [id] } := by
  have hsub : ∀ z, z ∉ s.freed ++ [id] → z ∉ s.freed := fun z hz hin => hz (mem_append_left _ hin)
  refine ⟨h.sorted, h.members, h.spent, ?_, fun i j hi hj heq => ?_, h.added_lt, h.adding,
    h.adding_unique, h.logs⟩
  · exact forall_mem_append.2 ⟨h.freed, forall_mem_singleton.2 ⟨hid, hset⟩⟩
  · exact h.addr i j ⟨hi.1, hsub i hi.2⟩ ⟨hj.1, hsub j hj.2⟩ heq

end

end Inv

end CoServer.TimerManager
