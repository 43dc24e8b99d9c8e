/-
Calls of `NSDomain::add` and `NSDomain::del` by several threads, one step per locked section (`ns_protocol.cpp`).

The domain maps a command to a node set, an object with its own lock that a call keeps a pointer to between its
sections. So `datas` holds addresses, `sets` the sets by address. An add that finds no set creates one, which nobody
else sees before the section that puts it into the map. `settled` is not in the code: the node of the last completed add
of a command and an id, if no delete of the two was in progress when the add completed and none has started since.

Results:
- `inv_step`: every section keeps the invariant.
- `found_write`: a section that writes to one set changes what is found under one id of the command that the map gives
  this set.
- `turn_other`: a section leaves the other commands alone.
-/
import CoServer.NameServer.Protocol

namespace CoServer.NameServer.DomainCalls

open CoServer.Core Function List

variable {inetAddr : String → UInt32}

/-! ## Calls -/

/-- where a call is: the section it runs next, with its local variables -/
inductive Phase (inetAddr : String → UInt32) where
  /-- `get(cmd)` of an add -/
  | addGet (cmd : UInt32) (info : NSNode inetAddr)
  /-- `add(ns)` with a new set -/
  | addSet (cmd : UInt32) (info : NSNode inetAddr)
  /-- `ns->add(info)` -/
  | addNode (ns : ℕ) (cmd : UInt32) (info : NSNode inetAddr)
  /-- `get(cmd)` of a delete -/
  | delGet (cmd : UInt32) (id : UInt64)
  /-- `ns->del(id)` -/
  | delNode (ns : ℕ) (cmd : UInt32) (id : UInt64)
  /-- `ns->size()` -/
  | delSize (ns : ℕ) (cmd : UInt32) (id : UInt64)
  /-- `del(cmd)` -/
  | delSet (cmd : UInt32) (id : UInt64)
  | returned
deriving DecidableEq

namespace Phase

/-- the command of a call in progress -/
def cmd? : Phase inetAddr → Option UInt32
  | .addGet cmd _ | .addSet cmd _ | .addNode _ cmd _ | .delGet cmd _ | .delNode _ cmd _ | .delSize _ cmd _
  | .delSet cmd _ => some cmd
  | .returned => none

/-- the set that the call has looked up or created -/
def held : Phase inetAddr → Option ℕ
  | .addNode ns _ _ | .delNode ns _ _ | .delSize ns _ _ => some ns
  | _ => none

/-- what a delete in progress deletes -/
def target : Phase inetAddr → Option (UInt32 × UInt64)
  | .delGet cmd id | .delNode _ cmd id | .delSize _ cmd id | .delSet cmd id => some (cmd, id)
  | _ => none

end Phase

structure State (inetAddr : String → UInt32) where
  /-- `NSDomain::_datas`, by address -/
  datas : UInt32 → Option ℕ
  /-- every node set created so far, by address -/
  sets : ℕ → NSNodeSet inetAddr
  next : ℕ
  calls : List (Phase inetAddr)
  /-- not in the code: the node of the last completed add that no delete has overlapped or followed -/
  settled : UInt32 × UInt64 → Option (NSNode inetAddr)

variable (s : State inetAddr)

/-- `get(cmd)` and `get(id)` of the set it returns -/
def State.found (cmd : UInt32) (id : UInt64) : Option (NSNode inetAddr) :=
  (s.datas cmd).bind fun ns => (s.sets ns).datas.find id

/-- a delete of the command and the id is in progress -/
def State.Deleting (cmd : UInt32) (id : UInt64) : Prop := ∃ p ∈ s.calls, p.target = some (cmd, id)

instance (s : State inetAddr) (cmd : UInt32) (id : UInt64) : Decidable (s.Deleting cmd id) :=
  inferInstanceAs (Decidable (∃ p ∈ s.calls, p.target = some (cmd, id)))

/-- one section: where the call is after it, and the new state -/
def turn : Phase inetAddr → Phase inetAddr × State inetAddr
  | .addGet cmd info =>
    match s.datas cmd with
    | none => (.addSet cmd info, s)
    | some ns => (.addNode ns cmd info, s)
  | .addSet cmd info =>
    (.addNode s.next cmd info,
      { s with
        datas := update s.datas cmd (some s.next)
        sets := update s.sets s.next (NSNodeSet.new cmd)
        next := s.next + 1 })
  | .addNode ns cmd info =>
    (.returned,
      { s with
        sets := update s.sets ns ((s.sets ns).add info)
        settled := if s.Deleting cmd info.id then s.settled else update s.settled (cmd, info.id) (some info) })
  | .delGet cmd id =>
    match s.datas cmd with
    | none => (.returned, s)
    | some ns => (.delNode ns cmd id, s)
  | .delNode ns cmd id => (.delSize ns cmd id, { s with sets := update s.sets ns ((s.sets ns).del id) })
  | .delSize ns cmd id => (if (s.sets ns).datas.size = 0 then .delSet cmd id else .returned, s)
  | .delSet cmd _ => (.returned, { s with datas := update s.datas cmd none })
  | .returned => (.returned, s)

inductive Op (inetAddr : String → UInt32) where
  | add (cmd : UInt32) (info : NSNode inetAddr)
  | del (cmd : UInt32) (id : UInt64)
  /-- the call with that number runs its next section -/
  | advance (k : ℕ)
deriving DecidableEq

def step : Op inetAddr → State inetAddr
  | .add cmd info => { s with calls := s.calls ++ [.addGet cmd info] }
  | .del cmd id => { s with calls := s.calls ++ [.delGet cmd id], settled := update s.settled (cmd, id) none }
  | .advance k =>
    match s.calls[k]? with
    | none => s
    | some p => { (turn s p).2 with calls := s.calls.set k (turn s p).1 }

def init : State inetAddr := ⟨fun _ => none, fun _ => NSNodeSet.new 0, 0, [], fun _ => none⟩

/-! ## What every run keeps -/

/-- the sets that the map and the calls point to exist and are of their command; nothing that is being deleted is
settled -/
structure Inv (s : State inetAddr) : Prop where
  mapped : ∀ {c ns}, s.datas c = some ns → ns < s.next ∧ (s.sets ns).cmd = c
  held : ∀ {p}, p ∈ s.calls → ∀ ns ∈ p.held, ns < s.next ∧ p.cmd? = some (s.sets ns).cmd
  deleting : ∀ {c id}, s.Deleting c id → s.settled (c, id) = none

theorem inv_init : Inv (init : State inetAddr) where
  mapped h := by cases h
  held h := by cases h
  deleting h := by
    obtain ⟨p, hp, -⟩ := h
    cases hp

theorem turn_sets (p : Phase inetAddr) :
    s.next ≤ (turn s p).2.next ∧ ∀ ns, ns < s.next → ((turn s p).2.sets ns).cmd = (s.sets ns).cmd := by
  cases p with
  | addGet cmd info | delGet cmd id =>
    simp only [turn]
    split <;> exact ⟨le_rfl, fun _ _ => rfl⟩
  | addSet cmd info =>
    refine ⟨Nat.le_succ _, fun ns hns => ?_⟩
    simp only [turn]
    rw [update_of_ne (Nat.ne_of_lt hns)]
  | addNode ns cmd info | delNode ns cmd id => exact ⟨le_rfl, fun m _ => proj_update NSNodeSet.cmd (by rfl) m⟩
  | delSize ns cmd id | delSet cmd id | returned => exact ⟨le_rfl, fun _ _ => rfl⟩

variable {s : State inetAddr} {c : UInt32} {ns : ℕ}

theorem turn_mapped (h : Inv s) (p : Phase inetAddr)
    (hns : (turn s p).2.datas c = some ns) : ns < (turn s p).2.next ∧ ((turn s p).2.sets ns).cmd = c := by
  obtain ⟨hnext, hcmd⟩ := turn_sets s p
  -- a mapping that was there before
  have hold : s.datas c = some ns → ns < (turn s p).2.next ∧ ((turn s p).2.sets ns).cmd = c := by
    intro hc
    obtain ⟨hlt, hcmd'⟩ := h.mapped hc
    exact ⟨hlt.trans_le hnext, (hcmd ns hlt).trans hcmd'⟩
  cases p with
  | addGet cmd info | delGet cmd id =>
    refine hold ?_
    simp only [turn] at hns
    split at hns <;> exact hns
  | addSet cmd info =>
    rcases update_cases hns with ⟨rfl, hnew⟩ | ⟨-, hc⟩
    · cases hnew
      refine ⟨Nat.lt_succ_self _, ?_⟩
      simp only [turn, update_self]
      rfl
    · exact hold hc
  | addNode ns' cmd info | delNode ns' cmd id | delSize ns' cmd id | returned => exact hold hns
  | delSet cmd id =>
    rcases update_cases hns with ⟨-, hnone⟩ | ⟨-, hc⟩
    · cases hnone
    · exact hold hc

theorem turn_held (h : Inv s) {p : Phase inetAddr} (hp : p ∈ s.calls) (hns : ns ∈ (turn s p).1.held) :
    ns < (turn s p).2.next ∧ (turn s p).1.cmd? = some ((turn s p).2.sets ns).cmd := by
  cases p with
  | addGet cmd info | delGet cmd id =>
    simp only [turn] at hns ⊢
    split at hns
    · cases hns
    · rename_i ns' hget
      cases hns
      exact ⟨(h.mapped hget).1, congrArg some (h.mapped hget).2.symm⟩
  | addSet cmd info =>
    cases hns
    refine ⟨Nat.lt_succ_self _, ?_⟩
    simp only [turn, update_self]
    rfl
  | addNode ns' cmd info | delSet cmd id | returned => cases hns
  | delNode ns' cmd id =>
    cases hns
    obtain ⟨hlt, hcmd⟩ := h.held hp _ rfl
    refine ⟨hlt, hcmd.trans (congrArg some ?_)⟩
    exact ((turn_sets s (.delNode _ cmd id)).2 _ hlt).symm
  | delSize ns' cmd id =>
    simp only [turn] at hns
    split at hns <;> cases hns

theorem turn_phase (s : State inetAddr) (p : Phase inetAddr) :
    ((turn s p).1.cmd? = p.cmd? ∧ (turn s p).1.target = p.target) ∨ (turn s p).1 = .returned := by
  cases p with
  | addGet cmd info | delGet cmd id | delSize ns cmd id =>
    simp only [turn]
    split
    all_goals first | exact .inl ⟨rfl, rfl⟩ | exact .inr rfl
  | addSet cmd info | delNode ns cmd id => exact .inl ⟨rfl, rfl⟩
  | addNode ns cmd info | delSet cmd id | returned => exact .inr rfl

theorem turn_settled (s : State inetAddr) (p : Phase inetAddr) {id : UInt64} (hdel : s.Deleting c id) :
    (turn s p).2.settled (c, id) = s.settled (c, id) := by
  cases p with
  | addGet cmd info | delGet cmd id =>
    simp only [turn]
    split <;> rfl
  | addSet cmd info | delNode ns cmd id | delSize ns cmd id | delSet cmd id | returned => rfl
  | addNode ns cmd info =>
    simp only [turn]
    split
    · rfl
    rename_i hnot
    refine update_of_ne ?_ _ _
    rintro ⟨⟩
    exact hnot hdel

theorem inv_step (h : Inv s) (o : Op inetAddr) : Inv (step s o) := by
  -- a call that begins holds no set
  have hheld : ∀ {q : Phase inetAddr}, q.held = none → ∀ {p}, p ∈ s.calls ++ [q] → ∀ ns ∈ p.held, ns < s.next ∧
      p.cmd? = some (s.sets ns).cmd := by
    intro q hq p hp ns hns
    rcases mem_append.1 hp with hp | hp
    · exact h.held hp ns hns
    · rw [mem_singleton.1 hp, hq] at hns
      cases hns
  cases o with
  | add cmd info =>
    refine ⟨h.mapped, hheld rfl, ?_⟩
    · rintro c id ⟨p, hp, hpt⟩
      rcases mem_append.1 hp with hp | hp
      · exact h.deleting ⟨p, hp, hpt⟩
      · obtain rfl := mem_singleton.1 hp
        cases hpt
  | del cmd id =>
    refine ⟨h.mapped, hheld rfl, ?_⟩
    · rintro c i ⟨p, hp, hpt⟩
      by_cases hself : (c, i) = (cmd, id)
      · rw [hself]
        exact update_self _ _ _
      rcases mem_append.1 hp with hp | hp
      · exact (update_of_ne hself _ _).trans (h.deleting ⟨p, hp, hpt⟩)
      · obtain rfl := mem_singleton.1 hp
        exact absurd (Option.some.inj hpt).symm hself
  | advance k =>
    simp only [step]
    split
    · exact h
    rename_i p hk
    have hp := mem_of_getElem? hk
    obtain ⟨hnext, hcmd⟩ := turn_sets s p
    refine ⟨fun hc => turn_mapped h p hc, ?_, ?_⟩
    · intro q hq ns hns
      rcases mem_or_eq_of_mem_set hq with hq | rfl
      · obtain ⟨hlt, hqc⟩ := h.held hq ns hns
        refine ⟨hlt.trans_le hnext, ?_⟩
        rw [hqc, hcmd ns hlt]
      · exact turn_held h hp hns
    · rintro c id ⟨q, hq, hqt⟩
      have hdel : s.Deleting c id := by
        rcases mem_or_eq_of_mem_set hq with hq | rfl
        · exact ⟨q, hq, hqt⟩
        rcases turn_phase s p with ⟨-, htarget⟩ | hret
        · exact ⟨p, hp, htarget ▸ hqt⟩
        · rw [hret] at hqt
          cases hqt
      exact (turn_settled s p hdel).trans (h.deleting hdel)

/-! ## What a section changes -/

theorem found_write (s : State inetAddr) {v : NSNodeSet inetAddr} {id : UInt64} {r : Option (NSNode inetAddr)}
    (hv : ∀ i, v.datas.find i = if i = id then r else (s.sets ns).datas.find i) (c : UInt32) (i : UInt64) :
    ((s.datas c).bind fun m => (update s.sets ns v m).datas.find i) =
      if s.datas c = some ns ∧ i = id then r else s.found c i := by
  unfold State.found
  cases hc : s.datas c with
  | none => simp
  | some m =>
    rw [Option.bind_some]
    by_cases hm : m = ns
    · subst hm
      rw [update_self, hv]
      simp
    · simp [hm]

theorem cmd_of_mapped (h : Inv s) {p : Phase inetAddr} (hp : p ∈ s.calls) (hns : ns ∈ p.held)
    (hc : s.datas c = some ns) : p.cmd? = some c := by
  rw [(h.held hp ns hns).2, (h.mapped hc).2]

theorem turn_other (h : Inv s) {p : Phase inetAddr} (hp : p ∈ s.calls) (hc : p.cmd? ≠ some c) :
    (turn s p).2.datas c = s.datas c ∧ ∀ id, (turn s p).2.found c id = s.found c id := by
  have hmapped : ∀ ns ∈ p.held, ∀ {i id : UInt64}, ¬ (s.datas c = some ns ∧ i = id) := fun ns hns _ _ hcond =>
    hc (cmd_of_mapped h hp hns hcond.1)
  cases p with
  | addGet cmd info | delGet cmd id =>
    simp only [turn]
    split <;> exact ⟨rfl, fun _ => rfl⟩
  | addSet cmd info =>
    have hne : c ≠ cmd := fun heq => hc (heq ▸ rfl)
    refine ⟨update_of_ne hne _ _, fun id => ?_⟩
    unfold State.found
    simp only [turn, update_of_ne hne]
    cases hm : s.datas c with
    | none => rfl
    | some m => rw [Option.bind_some, Option.bind_some, update_of_ne (Nat.ne_of_lt (h.mapped hm).1)]
  | addNode ns cmd info =>
    refine ⟨rfl, fun id => ?_⟩
    exact (found_write s (fun i => KeyMap.find_add (s.sets ns).datas info i) c id).trans (if_neg (hmapped ns rfl))
  | delNode ns cmd id =>
    refine ⟨rfl, fun i => ?_⟩
    exact (found_write s (fun i => KeyMap.find_erase (s.sets ns).datas id i) c i).trans (if_neg (hmapped ns rfl))
  | delSize ns cmd id | returned => exact ⟨rfl, fun _ => rfl⟩
  | delSet cmd id =>
    have hne : c ≠ cmd := fun heq => hc (heq ▸ rfl)
    exact ⟨update_of_ne hne _ _, fun i => by simp [State.found, turn, hne]⟩

end CoServer.NameServer.DomainCalls
