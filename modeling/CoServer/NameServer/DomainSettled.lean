/-
Which nodes a domain's `get` finds after adds and deletes by several threads.

`AllFound` says that every settled node is in the set that `get` of its command returns. Two sections can break it: an
add that found no set puts its own into the map although another add has done so by then, and a delete drops the set
from the map although a node has been added since it looked at the size. `Keeps` is the condition on a section under
which it does not.

Results:
- `found_turn_iff`: a section, from a state where every settled node is found, leaves it so iff it meets the condition.
- `serial_keeps`: calls that do not overlap on a command keep what is settled.
- `settled_found`: in every run whose sections all keep what is settled, a node whose last add completed while no delete
  of it was in progress, and that no call has begun to delete since, is in the set that `get` returns.
- `added_node_unreachable`: two adds look the command up before either puts its set into the map; the second set
  replaces the first, which has a node by then.
-/
import CoServer.Core.Run
import CoServer.NameServer.DomainCalls

namespace CoServer.NameServer.DomainCalls

open CoServer.Core List

variable {inetAddr : String → UInt32}

/-! ## The condition -/

variable (s : State inetAddr)

/-- every settled node is found -/
def AllFound : Prop := ∀ cmd id n, s.settled (cmd, id) = some n → s.found cmd id = some n

/-- the section puts a set into the map or drops one while no node of the command is settled, and adds a node to the set
that the map holds (or to another while the map's set has the node already, or while it is being deleted) -/
def KeepsTurn : Phase inetAddr → Prop
  | .addSet cmd _ | .delSet cmd _ => ∀ id, s.settled (cmd, id) = none
  | .addNode ns cmd info => s.datas cmd = some ns ∨ s.found cmd info.id = some info ∨ s.Deleting cmd info.id
  | _ => True

def Keeps : Op inetAddr → Prop
  | .advance k => ∀ p ∈ s.calls[k]?, KeepsTurn s p
  | _ => True

/-! ## Sections -/

variable {s : State inetAddr} {p : Phase inetAddr}

theorem allFound_remap_iff {s' : State inetAddr} (hf : AllFound s) {cmd : UInt32} (hsettled : s'.settled = s.settled)
    (hself : ∀ id, s'.found cmd id = none) (hother : ∀ c, c ≠ cmd → ∀ id, s'.found c id = s.found c id) :
    AllFound s' ↔ ∀ id, s.settled (cmd, id) = none := by
  unfold AllFound
  rw [hsettled]
  constructor
  · intro hf' id
    cases hs : s.settled (cmd, id) with
    | none => rfl
    | some n => exact (hf' cmd id n hs).symm.trans (hself id)
  · intro hnone c id n hn
    by_cases hc : c = cmd
    · subst hc
      rw [hnone id] at hn
      cases hn
    · rw [hother c hc id]
      exact hf c id n hn

theorem allFound_addNode_iff (h : Inv s) (hf : AllFound s) {ns : ℕ} {cmd : UInt32} {info : NSNode inetAddr}
    (hp : .addNode ns cmd info ∈ s.calls) :
    AllFound (turn s (.addNode ns cmd info)).2 ↔ KeepsTurn s (.addNode ns cmd info) := by
  have hfound : ∀ c id, (turn s (.addNode ns cmd info)).2.found c id =
      if s.datas c = some ns ∧ id = info.id then some info else s.found c id :=
    fun c id => found_write s (fun i => KeyMap.find_add (s.sets ns).datas info i) c id
  have hcmd : ∀ {c}, s.datas c = some ns → c = cmd := fun hc => (Option.some.inj (cmd_of_mapped h hp rfl hc)).symm
  by_cases hdel : s.Deleting cmd info.id
  · refine iff_of_true ?_ (.inr (.inr hdel))
    intro c id n hn
    simp only [turn, if_pos hdel] at hn
    rw [hfound, if_neg]
    · exact hf c id n hn
    · rintro ⟨hc, rfl⟩
      rw [hcmd hc, h.deleting hdel] at hn
      cases hn
  · have hsettled :
        (turn s (.addNode ns cmd info)).2.settled = Function.update s.settled (cmd, info.id) (some info) := if_neg hdel
    unfold AllFound
    simp only [hsettled, hfound]
    constructor
    · intro hf'
      have hself := hf' cmd info.id info (Function.update_self _ _ _)
      split at hself
      · rename_i hc
        exact .inl hc.1
      · exact .inr (.inl hself)
    · intro hkeep c id n hn
      rcases update_cases hn with ⟨heq, hinfo⟩ | ⟨hne, hn⟩
      · obtain ⟨rfl, rfl⟩ := Prod.mk.inj heq
        rw [← hinfo]
        rcases hkeep with hc | hc | hc
        · rw [if_pos ⟨hc, rfl⟩]
        · rw [hc, ite_self]
        · exact absurd hc hdel
      · rw [if_neg]
        · exact hf c id n hn
        · rintro ⟨hc, rfl⟩
          exact hne (by rw [hcmd hc])

theorem allFound_delNode (h : Inv s) (hf : AllFound s) {ns : ℕ} {cmd : UInt32} {id : UInt64}
    (hp : .delNode ns cmd id ∈ s.calls) : AllFound (turn s (.delNode ns cmd id)).2 := by
  intro c i n hn
  have hfound : (turn s (.delNode ns cmd id)).2.found c i = if s.datas c = some ns ∧
      i = id then none else s.found c i :=
    found_write s (fun i => KeyMap.find_erase (s.sets ns).datas id i) c i
  rw [hfound, if_neg]
  · exact hf c i n hn
  rintro ⟨hc, rfl⟩
  obtain rfl := Option.some.inj (cmd_of_mapped h hp rfl hc)
  have hnone := h.deleting ⟨_, hp, rfl⟩
  exact Option.some_ne_none n (hn.symm.trans hnone)

theorem found_turn_iff (h : Inv s) (hf : AllFound s) (hp : p ∈ s.calls) : AllFound (turn s p).2 ↔ KeepsTurn s p := by
  cases p with
  | addGet cmd info | delGet cmd id =>
    refine iff_of_true ?_ trivial
    simp only [turn]
    split <;> exact hf
  | addSet cmd info =>
    refine allFound_remap_iff hf rfl ?_ ?_
    · simp [State.found, turn, NSNodeSet.new]
    · intro c hc
      exact (turn_other h hp fun heq => hc (Option.some.inj heq).symm).2
  | addNode ns cmd info => exact allFound_addNode_iff h hf hp
  | delNode ns cmd id => exact iff_of_true (allFound_delNode h hf hp) trivial
  | delSize ns cmd id | returned => exact iff_of_true hf trivial
  | delSet cmd id =>
    refine allFound_remap_iff hf rfl ?_ ?_
    · simp [State.found, turn]
    · intro c hc
      exact (turn_other h hp fun heq => hc (Option.some.inj heq).symm).2

theorem found_step_iff (h : Inv s) (hf : AllFound s) (o : Op inetAddr) : AllFound (step s o) ↔ Keeps s o := by
  cases o with
  | add cmd info => exact iff_of_true hf trivial
  | del cmd id =>
    refine iff_of_true ?_ trivial
    intro c i n hn
    rcases update_cases hn with ⟨-, hnone⟩ | ⟨-, hn⟩
    · cases hnone
    · exact hf c i n hn
  | advance k =>
    cases hk : s.calls[k]? with
    | none => simpa [step, Keeps, hk] using hf
    | some p =>
      simp only [step, Keeps, hk, Option.mem_some_iff, forall_eq']
      exact found_turn_iff h hf (mem_of_getElem? hk)

theorem allFound_init : AllFound (init : State inetAddr) := by
  intro c id n hn
  cases hn

/-! ## Calls that do not overlap -/

/-- a call begins while no other call on its command is in progress -/
def Serial (s : State inetAddr) : Op inetAddr → Prop
  | .add cmd _ | .del cmd _ => ∀ p ∈ s.calls, p.cmd? ≠ some cmd
  | .advance _ => True

instance (s : State inetAddr) (o : Op inetAddr) : Decidable (Serial s o) :=
  match o with
  | .add cmd _ => inferInstanceAs (Decidable (∀ p ∈ s.calls, p.cmd? ≠ some cmd))
  | .del cmd _ => inferInstanceAs (Decidable (∀ p ∈ s.calls, p.cmd? ≠ some cmd))
  | .advance _ => isTrue trivial

/-- what a call that is alone on its command knows of the map -/
def Place (s : State inetAddr) : Phase inetAddr → Prop
  | .addSet cmd _ => s.datas cmd = none
  | .addNode ns cmd _ | .delNode ns cmd _ | .delSize ns cmd _ => s.datas cmd = some ns
  | .delSet cmd _ => ∀ id, s.found cmd id = none
  | _ => True

structure SerialInv (s : State inetAddr) : Prop extends Inv s where
  alone : ∀ {i j : ℕ} {p q : Phase inetAddr} {c : UInt32}, s.calls[i]? = some p → s.calls[j]? = some q →
    p.cmd? = some c →
    q.cmd? = some c → i = j
  place : ∀ p ∈ s.calls, Place s p

theorem place_turn (h : Place s p) : Place (turn s p).2 (turn s p).1 := by
  cases p with
  | addGet cmd info =>
    simp only [turn]
    split
    · rename_i hget
      exact hget
    · rename_i ns hget
      exact hget
  | addSet cmd info => exact Function.update_self _ _ _
  | addNode ns cmd info | delSet cmd id | returned => trivial
  | delGet cmd id =>
    simp only [turn]
    split
    · trivial
    · rename_i ns hget
      exact hget
  | delNode ns cmd id => exact h
  | delSize ns cmd id =>
    simp only [turn]
    split
    · rename_i hsize
      intro i
      have hmap : s.datas cmd = some ns := h
      rw [State.found, hmap, Option.bind_some, KeyMap.find_of_size_eq_zero hsize]
    · trivial

theorem place_congr {s' : State inetAddr}
    (h : ∀ c ∈ p.cmd?, s'.datas c = s.datas c ∧ ∀ id, s'.found c id = s.found c id) (hp : Place s p) : Place s' p := by
  cases p with
  | addGet cmd info | delGet cmd id | returned => trivial
  | addSet cmd info | addNode ns cmd info | delNode ns cmd id | delSize ns cmd id => exact (h cmd rfl).1.trans hp
  | delSet cmd id => exact fun i => ((h cmd rfl).2 i).trans (hp i)

theorem keeps_of_place (hf : AllFound s) (h : Place s p) : KeepsTurn s p := by
  -- where nothing is found, nothing is settled
  have hnone : ∀ {cmd}, (∀ id, s.found cmd id = none) → ∀ id, s.settled (cmd, id) = none := by
    intro cmd hfound id
    cases hs : s.settled (cmd, id) with
    | none => rfl
    | some n => exact (hf cmd id n hs).symm.trans (hfound id)
  cases p with
  | addSet cmd info =>
    refine hnone fun id => ?_
    have hmap : s.datas cmd = none := h
    rw [State.found, hmap, Option.bind_none]
  | addNode ns cmd info => exact .inl h
  | delSet cmd id => exact hnone h
  | addGet cmd info | delGet cmd id | delNode ns cmd id | delSize ns cmd id | returned => trivial

theorem serialInv_init : SerialInv (init : State inetAddr) where
  toInv := inv_init
  alone h := by cases h
  place p hp := by cases hp

theorem alone_append (h : SerialInv s) {r : Phase inetAddr} (hr : ∀ p ∈ s.calls, ∀ c ∈ r.cmd?, p.cmd? ≠ some c)
    {i j : ℕ} {q : Phase inetAddr} {c : UInt32} (hi : (s.calls ++ [r])[i]? = some p)
    (hj : (s.calls ++ [r])[j]? = some q) (hp : p.cmd? = some c) (hq : q.cmd? = some c) : i = j := by
  have hsplit : ∀ {k x}, (s.calls ++ [r])[k]? = some x → s.calls[k]? = some x ∨ k = s.calls.length ∧ r = x := by
    intro k x hk
    rcases Nat.lt_or_ge k s.calls.length with hlt | hge
    · rw [getElem?_append_left hlt] at hk
      exact .inl hk
    rw [getElem?_append_right hge] at hk
    obtain ⟨hlt, hx⟩ := List.getElem?_eq_some_iff.1 hk
    have hzero : k - s.calls.length = 0 := by simpa using hlt
    exact .inr ⟨by omega, by simpa using hx⟩
  rcases hsplit hi with hi' | ⟨hilen, rfl⟩
  · rcases hsplit hj with hj' | ⟨-, rfl⟩
    · exact h.alone hi' hj' hp hq
    · exact absurd hp (hr p (mem_of_getElem? hi') c hq)
  · rcases hsplit hj with hj' | ⟨hjlen, -⟩
    · exact absurd hq (hr q (mem_of_getElem? hj') c hp)
    · exact hilen.trans hjlen.symm

theorem serialInv_step {o : Op inetAddr} (hser : Serial s o) (h : SerialInv s) : SerialInv (step s o) := by
  refine ⟨inv_step h.toInv o, ?_, ?_⟩
  · cases o with
    | add cmd info | del cmd id =>
      refine alone_append (s := s) h ?_
      intro p hp c hc
      cases hc
      exact hser p hp
    | advance k =>
      intro i j p q c hi hj hp hq
      cases hk : s.calls[k]? with
      | none => exact h.alone (by simpa [step, hk] using hi) (by simpa [step, hk] using hj) hp hq
      | some r =>
        have hback : ∀ {m : ℕ} {x : Phase inetAddr}, (step s (.advance k)).calls[m]? = some x → x.cmd? = some c →
            ∃ y : Phase inetAddr, s.calls[m]? = some y ∧ y.cmd? = some c := by
          intro m x hm hx
          simp only [step, hk] at hm
          by_cases hmk : m = k
          · subst hmk
            have hlt : m < s.calls.length := (List.getElem?_eq_some_iff.1 hk).1
            rw [List.getElem?_set_self hlt] at hm
            cases hm
            rcases turn_phase s r with ⟨hcmd, -⟩ | hret
            · exact ⟨r, hk, hcmd ▸ hx⟩
            · rw [hret] at hx
              cases hx
          · rw [getElem?_set_ne (Ne.symm hmk)] at hm
            exact ⟨x, hm, hx⟩
        obtain ⟨p', hi', hp'⟩ := hback hi hp
        obtain ⟨q', hj', hq'⟩ := hback hj hq
        exact h.alone hi' hj' hp' hq'
  · cases o with
    | add cmd info | del cmd id =>
      intro p hp
      rcases mem_append.1 hp with hp | hp
      · exact place_congr (fun _ _ => ⟨rfl, fun _ => rfl⟩) (h.place p hp)
      · obtain rfl := mem_singleton.1 hp
        trivial
    | advance k =>
      intro q hq
      cases hk : s.calls[k]? with
      | none =>
        simp only [step, hk] at hq ⊢
        exact h.place q hq
      | some p =>
        have hp := mem_of_getElem? hk
        simp only [step, hk] at hq ⊢
        obtain ⟨j, hj⟩ := getElem?_of_mem hq
        by_cases hjk : j = k
        · subst hjk
          rw [List.getElem?_set_self (List.getElem?_eq_some_iff.1 hk).1] at hj
          cases hj
          exact place_congr (fun _ _ => ⟨rfl, fun _ => rfl⟩) (place_turn (h.place p hp))
        · rw [getElem?_set_ne (Ne.symm hjk)] at hj
          refine place_congr (fun c hc => turn_other h.toInv hp ?_) (h.place q (mem_of_getElem? hj))
          intro hpc
          exact hjk (h.alone hj hk hc hpc)

/-- **One call at a time.** -/
theorem serial_keeps {ops : List (Op inetAddr)} (hops : Meets step Serial init ops) : Meets step Keeps init ops := by
  have hkeeps : ∀ (s : State inetAddr) (o : Op inetAddr), SerialInv s ∧ AllFound s → Keeps s o := by
    rintro s o ⟨h, hf⟩
    cases o with
    | add cmd info | del cmd id => trivial
    | advance k => exact fun p hp => keeps_of_place hf (h.place p (mem_of_getElem? hp))
  refine Meets.imp (I := fun s => SerialInv s ∧ AllFound s) ?_ (fun s o h _ => hkeeps s o h)
    ⟨serialInv_init, allFound_init⟩ hops
  rintro s o hser ⟨h, hf⟩
  exact ⟨serialInv_step hser h, (found_step_iff h.toInv hf o).2 (hkeeps s o ⟨h, hf⟩)⟩

/-! ## Every run -/

/-- **Added nodes are found.** -/
theorem settled_found {ops : List (Op inetAddr)} (hops : Meets step Keeps init ops) (cmd : UInt32) (id : UInt64)
    (n : NSNode inetAddr)
    (hn : (run step init ops).settled (cmd, id) = some n) : (run step init ops).found cmd id = some n := by
  have hinv : Inv (run step (init : State inetAddr) ops) ∧ AllFound (run step (init : State inetAddr) ops) := by
    refine run_inv (I := fun s => Inv s ∧ AllFound s) ?_ hops ⟨inv_init, allFound_init⟩
    rintro s o hkeep ⟨h, hf⟩
    exact ⟨inv_step h o, (found_step_iff h hf o).2 hkeep⟩
  exact hinv.2 cmd id n hn

/-- two nodes at one address -/
def first : NSNode (fun _ => 0x0100007F) := ⟨"127.0.0.1", 8080, 10⟩

def second : NSNode (fun _ => 0x0100007F) := ⟨"127.0.0.1", 8081, 10⟩

/-- adds to two commands overlap, and a delete follows -/
theorem first_found :
    (run step init [.add 7 first, .add 8 second, .advance 0, .advance 1, .advance 1, .advance 0, .advance 0, .advance 1,
      .del 7 second.id, .advance 2, .advance 2, .advance 2]).found 7 first.id = some first :=
  settled_found (serial_keeps (by decide +kernel)) 7 first.id first (by decide +kernel)

theorem added_node_unreachable :
    let s := run step init
      [.add 7 first, .add 7 second, .advance 0, .advance 1, .advance 0, .advance 0, .advance 1, .advance 1]
    (∀ p ∈ s.calls, p = .returned) ∧ s.settled (7, first.id) = some first ∧ s.found 7 first.id = none := by
  decide +kernel

end CoServer.NameServer.DomainCalls
