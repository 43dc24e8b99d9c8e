/-
When `TimedCache` expires its keys.

The deadline of a key is the clock reading plus the expiry of its latest `set` or successful `expired` call, without
bound (`deadline`). `InTime` excludes what the code gets wrong: a `set` that changes the deadline of a key that is there
(the old element stays in the set), an `expired` call that changes it (the element keeps its old deadline), and a
deadline that does not fit `uint64_t`.

Results:
- `tight_step`: a call in time does not fault and leaves one element for each key, with its deadline.
- `expiry_exact_iff`: with max size 0, after every call of a run `checkTimeout(ts)` removes exactly the keys whose
  deadline is at most `ts` and returns their number, exactly if every call meets the condition. With any max size the
  condition makes expiry exact after every call and makes every prune remove exactly the keys with the smallest
  deadlines until max size remain.
- `expires_early`: a deadline moved from 10 to 100 by a second `set` or a successful `expired` call: the key is removed
  at 10, and at 100 the element the second `set` left counts as a key.
-/
import CoServer.DataStruct.TimedCache

namespace CoServer.DataStruct.TimedCache

open CoServer.Core List NodeList

variable {K V : Type} [LinearOrder K]

/-! ## Deadlines of a history -/

/-- the deadline a call gives to a key -/
def callDeadline (k : K) : Op K V × Answer V → Option ℕ
  | (.set k' _ expired now, _) => if k' = k then some (now + expired) else none
  | (.expired k' ts now, .flag true) => if k' = k then some (now + ts) else none
  | _ => none

/-- clock reading plus expiry of the latest `set` or successful `expired` call -/
def deadline (k : K) (calls : List (Op K V × Answer V)) : Option ℕ := latest (callDeadline k) calls

def due (calls : List (Op K V × Answer V)) (ts : ℕ) (k : K) : Bool := (deadline k calls).any fun d => decide (d ≤ ts)

/-- `checkTimeout(ts)` removes exactly the keys whose deadline is at most `ts` and returns their number -/
def TimeoutExact (s : Hist K V) : Prop :=
  ∀ ts < 2 ^ 64,
    (∀ k, exists_ (checkTimeout s.cache ts).1 k = true ↔ exists_ s.cache k = true ∧ due s.calls ts k = false) ∧
    (checkTimeout s.cache ts).2 = (s.cache.cache.keys.filter (due s.calls ts)).length

/-- `prune` has something to do: there is a max size and the allowed size is reached -/
def PruneDue (c : Cache K V) : Prop := c.maxSize ≠ 0 ∧ (getMaxAllowedSize c).toNat ≤ size c

/-- a prune leaves max size keys and removes those with the smallest deadlines; it returns the number of removed keys -/
def PruneExact (c : Cache K V) (calls : List (Op K V × Answer V)) : Prop :=
  ∃ c', prune c = some (c', size c - size c') ∧
    (PruneDue c → size c' = min (size c) c.maxSize.toNat) ∧ (¬ PruneDue c → size c' = size c) ∧
    (∀ k, exists_ c' k = true → exists_ c k = true) ∧
    ∀ k k', exists_ c k = true → exists_ c' k = false → exists_ c' k' = true →
      ∃ d d', deadline k calls = some d ∧ deadline k' calls = some d' ∧ d ≤ d'

/-- after the call expiry is exact -/
def ExpiresRight [Inhabited V] (s : Hist K V) (o : Op K V) : Prop := (step s.cache o).isSome ∧ TimeoutExact (s.step o)

/-- every prune of the call is exact -/
def PrunesRight (s : Hist K V) : Op K V → Prop
  | .set k v expired now => PruneExact (store s.cache k v expired now) (s.calls ++ [(.set k v expired now, .done)])
  | .prune => PruneExact s.cache s.calls
  | _ => True

/-- deadlines fit `uint64_t`, and neither `set` nor `expired` changes the deadline of a key that is there -/
def InTime (s : Hist K V) : Op K V → Prop
  | .set k _ expired now => now + expired < 2 ^ 64 ∧ ∀ x, entry s.cache k = some x → x.ts = now + expired
  | .expired k ts now => ∀ x, entry s.cache k = some x → x.ts = now + ts
  | _ => True

/-! ## One element for each key -/

/-- every element of the set is the one the index has for its key -/
structure Full (c : Cache K V) : Prop where
  inv : Inv c
  tight : ∀ x ∈ c.timed.vals, entry c x.key = some x

/-- and its deadline is that of the history -/
structure Tight (s : Hist K V) : Prop where
  full : Full s.cache
  deadline : ∀ x ∈ s.cache.timed.vals, deadline x.key s.calls = some x.ts
  bound : ∀ x ∈ s.cache.timed.vals, x.ts < 2 ^ 64

variable {c c' : Cache K V} {s : Hist K V} {k : K} {v : V} {x y : Item K V}

namespace Full

section

variable (h : Full c)
include h

theorem unique (hx : x ∈ c.timed.vals) (hy : y ∈ c.timed.vals) (hk : x.key = y.key) : x = y := by
  have h1 := h.tight x hx
  rw [hk, h.tight y hy] at h1
  exact (Option.some.inj h1).symm

theorem exists_iff : exists_ c k = true ↔ ∃ x ∈ c.timed.vals, x.key = k := by
  rw [exists_eq h.inv, Option.isSome_iff_exists]
  constructor
  · rintro ⟨x, hx⟩
    exact ⟨x, Inv.mem_vals hx, h.inv.key_eq hx⟩
  · rintro ⟨x, hx, hk⟩
    exact ⟨x, hk ▸ h.tight x hx⟩

theorem vals_nodup : c.timed.vals.Nodup := by
  have hs : (c.timed.nodes.map Prod.snd).Pairwise fun x y => x.rank < y.rank := pairwise_map.2 h.inv.sorted
  exact hs.imp fun hxy he => by subst he; exact lt_irrefl _ hxy

theorem keys_nodup : (c.timed.vals.map Item.key).Nodup := h.vals_nodup.map_on fun _ hx _ hy hk => h.unique hx hy hk

theorem keys_perm : c.cache.keys.Perm (c.timed.vals.map Item.key) := by
  refine (perm_ext_iff_of_nodup c.cache.keys_nodup h.keys_nodup).2 fun k => ?_
  rw [← AList.mem_keys, ← AList.lookup_isSome, mem_map]
  exact h.exists_iff

theorem size_eq : size c = c.timed.vals.length := by rw [size, Index.size, h.keys_perm.length_eq, length_map]

theorem size_nodes : Index.size c.cache = c.timed.nodes.length := h.size_eq.trans (length_vals _)

theorem entry_checkTimeout (ts : ℕ) (hx : entry c k = some x) : entry (checkTimeout c ts).1 k = if x.ts ≤ ts then none
    else some x := by
  obtain ⟨-, -, -, hentry, -⟩ := checkTimeout_spec h.inv ts
  have hex : (∃ y ∈ c.timed.vals, y.key = k ∧ y.ts ≤ ts) ↔ x.ts ≤ ts := by
    constructor
    · rintro ⟨y, hy, hkey, hle⟩
      rw [h.unique (Inv.mem_vals hx) hy ((h.inv.key_eq hx).trans hkey.symm)]
      exact hle
    · intro hle
      exact ⟨x, Inv.mem_vals hx, h.inv.key_eq hx, hle⟩
  rw [hentry, hx]
  simp only [hex]

theorem expired_full (k : K) (ts now : ℕ) :
    ∃ c', expired c k ts now = some (c', (entry c k).isSome) ∧ Full c' ∧ (∀ k', entry c' k' = entry c k') ∧
      c'.timed.vals.Perm c.timed.vals := by
  obtain ⟨c', hexp, h', -, hentry, hp⟩ := expired_spec h.inv k ts now
  refine ⟨c', hexp, ⟨h', fun x hx => ?_⟩, hentry, hp⟩
  rw [hentry]
  exact h.tight x (hp.mem_iff.1 hx)

end

theorem erase {it : ℕ} (c' : Cache K V) (h : Full c) (hx : (it, x) ∈ c.timed.nodes)
    (hcache : c'.cache = c.cache.erase x.key) (htimed : c'.timed = c.timed.keep fun n => n.1 != it) : Full c' := by
  obtain ⟨h', hentry, hp⟩ := erase_spec c' h.inv hx hcache htimed
  refine ⟨h', fun y hy => ?_⟩
  have hy' : y ∈ c.timed.vals := hp.mem_iff.2 (mem_cons_of_mem _ hy)
  have hne : y.key ≠ x.key := by
    intro he
    obtain rfl := h.unique hy' (mem_map_of_mem hx) he
    exact (nodup_cons.1 (hp.nodup_iff.1 h.vals_nodup)).1 hy
  rw [hentry, if_neg hne]
  exact h.tight y hy'

end Full

theorem due_iff {calls : List (Op K V × Answer V)} {ts d : ℕ} (h : deadline k calls = some d) : due calls ts k = true ↔
    d ≤ ts := by
  simp [due, h]

theorem Tight.timeoutExact (h : Tight s) : TimeoutExact s := by
  intro ts _
  obtain ⟨h', hcount, -, hentry, -⟩ := checkTimeout_spec h.full.inv ts
  constructor
  · intro k
    rw [exists_eq h', exists_eq h.full.inv]
    cases hk : entry s.cache k with
    | none => simp [hentry, hk]
    | some x =>
      have hd := h.deadline x (Inv.mem_vals hk)
      rw [h.full.inv.key_eq hk] at hd
      rw [h.full.entry_checkTimeout ts hk, ← Bool.not_eq_true, due_iff hd]
      split_ifs with hle <;> simp [hle]
  · have hfilter : (s.cache.timed.vals.map Item.key).filter (due s.calls ts) =
        (s.cache.timed.vals.filter fun x => decide (x.ts ≤ ts)).map Item.key := by
      rw [filter_map]
      refine congrArg (map Item.key) (filter_congr fun x hx => ?_)
      rw [Bool.eq_iff_iff, Function.comp_apply, due_iff (h.deadline x hx), decide_eq_true_eq]
    rw [hcount, (h.full.keys_perm.filter _).length_eq, hfilter, length_map]

/-! ## Pruning -/

theorem pruneLoop_spec (l : List (ℕ × Item K V)) (count : ℕ) (h : Full c) (hl : c.timed.nodes = l) :
    ∃ c', pruneLoop l c count = some (c', count + (l.length - c.maxSize.toNat)) ∧ Full c' ∧
      c'.timed.nodes = l.drop (l.length - c.maxSize.toNat) ∧ c'.maxSize = c.maxSize := by
  have hsize := h.size_nodes
  rw [hl] at hsize
  induction l generalizing c count with
  | nil =>
    have hle : ¬ c.maxSize.toNat < Index.size c.cache := by
      rw [hsize]
      exact Nat.not_lt_zero _
    exact ⟨c, by simp [pruneLoop, if_neg hle], h, by simpa using hl, rfl⟩
  | cons n rest ih =>
    obtain ⟨it, x⟩ := n
    rw [length_cons] at hsize ⊢
    by_cases hlt : c.maxSize.toNat < Index.size c.cache
    · have h₁ : Full (dropFirst c it x) := h.erase (dropFirst c it x) (hl ▸ mem_cons_self) rfl rfl
      have hl₁ := nodes_dropFirst hl
      obtain ⟨c', hrun, h', hnodes, hmax⟩ := ih (count + 1) h₁ hl₁ (hl₁ ▸ h₁.size_nodes)
      have hsub : rest.length + 1 - c.maxSize.toNat = rest.length - c.maxSize.toNat + 1 := by omega
      rw [pruneLoop, if_pos hlt, hsub, drop_succ_cons, ← Nat.add_assoc, Nat.add_right_comm]
      exact ⟨c', hrun, h', hnodes, hmax⟩
    · have hzero : rest.length + 1 - c.maxSize.toNat = 0 := by omega
      rw [pruneLoop, if_neg hlt, hzero]
      exact ⟨c, rfl, h, hl, rfl⟩

theorem prune_spec (h : Full c) : ∃ c' j, prune c = some (c', j) ∧ Full c' ∧ c'.timed.nodes = c.timed.nodes.drop j ∧
    (PruneDue c → j = size c - c.maxSize.toNat) ∧ (¬ PruneDue c → j = 0) ∧ c'.maxSize = c.maxSize := by
  have hdue : PruneDue c ↔ ¬ (c.maxSize = 0 ∨ Index.size c.cache < (getMaxAllowedSize c).toNat) := by
    rw [not_or, Nat.not_lt]
    rfl
  unfold prune
  by_cases hc : c.maxSize = 0 ∨ Index.size c.cache < (getMaxAllowedSize c).toNat
  · have hn : ¬ PruneDue c := fun hd => hdue.1 hd hc
    rw [if_pos hc]
    exact ⟨c, 0, rfl, h, rfl, fun hd => absurd hd hn, fun _ => rfl, rfl⟩
  obtain ⟨c', hrun, h', hnodes, hmax⟩ := pruneLoop_spec c.timed.nodes 0 h rfl
  rw [← h.size_nodes] at hrun hnodes
  rw [Nat.zero_add] at hrun
  rw [if_neg hc, hrun]
  exact ⟨_, _, rfl, ⟨⟨h'.inv.sorted, h'.inv.index⟩, h'.tight⟩, hnodes, fun _ => rfl,
    fun hn => absurd (hdue.2 hc) hn, hmax⟩

theorem Tight.pruneExact (h : Tight s) : PruneExact s.cache s.calls := by
  obtain ⟨c', j, hrun, h', hnodes, hdue, hnot, -⟩ := prune_spec h.full
  have hvals : c'.timed.vals = s.cache.timed.vals.drop j := by
    rw [vals, hnodes, map_drop]
    rfl
  have hsize' : size c' = size s.cache - j := by rw [h'.size_eq, h.full.size_eq, hvals, length_drop]
  have hj : j ≤ size s.cache := by
    by_cases hd : PruneDue s.cache
    · rw [hdue hd]
      exact Nat.sub_le _ _
    · rw [hnot hd]
      exact Nat.zero_le _
  have hsub : ∀ k, exists_ c' k = true → exists_ s.cache k = true := by
    intro k hk
    obtain ⟨x, hx, hxk⟩ := h'.exists_iff.1 hk
    rw [hvals] at hx
    exact h.full.exists_iff.2 ⟨x, mem_of_mem_drop hx, hxk⟩
  refine ⟨c', ?_, fun hd => ?_, fun hd => ?_, hsub, ?_⟩
  · rw [hrun, hsize', Nat.sub_sub_self hj]
  · rw [hsize', hdue hd]
    omega
  · rw [hsize', hnot hd, Nat.sub_zero]
  intro k k' hk hgone hk'
  obtain ⟨x, hx, rfl⟩ := h.full.exists_iff.1 hk
  obtain ⟨y, hy, rfl⟩ := h'.exists_iff.1 hk'
  -- the removed elements stand before the kept ones
  have hx' : x ∈ s.cache.timed.vals.take j := by
    rw [← take_append_drop j s.cache.timed.vals] at hx
    rcases mem_append.1 hx with hx | hx
    · exact hx
    · rw [← hvals] at hx
      rw [h'.exists_iff.2 ⟨x, hx, rfl⟩] at hgone
      cases hgone
  have hsorted : s.cache.timed.vals.Pairwise fun a b => a.rank < b.rank := pairwise_map.2 h.full.inv.sorted
  rw [← take_append_drop j s.cache.timed.vals, pairwise_append] at hsorted
  have hle := Item.ts_le_of_rank (hsorted.2.2 x hx' y (hvals ▸ hy))
  have hy' : y ∈ s.cache.timed.vals := mem_of_mem_drop (hvals ▸ hy)
  exact ⟨x.ts, y.ts, h.deadline x hx, h.deadline y hy', hle⟩

/-! ## One call -/

theorem deadline_snoc (k : K) (calls : List (Op K V × Answer V)) (o : Op K V) (a : Answer V) :
    deadline k (calls ++ [(o, a)]) = (callDeadline k (o, a)).or (deadline k calls) := latest_snoc _ _ _

theorem deadline_set (k k' : K) (v : V) (expired now : ℕ) (calls : List (Op K V × Answer V)) :
    deadline k' (calls ++ [(.set k v expired now, .done)]) = if k = k' then some (now + expired)
      else deadline k' calls := by
  rw [deadline_snoc, callDeadline]
  split_ifs <;> simp

theorem Tight.congr (h : Tight s) {s' : Hist K V} (hfull : Full s'.cache)
    (hvals : ∀ x ∈ s'.cache.timed.vals, x ∈ s.cache.timed.vals)
    (hcalls : ∀ x ∈ s'.cache.timed.vals, TimedCache.deadline x.key s'.calls = TimedCache.deadline x.key s.calls) :
    Tight s' :=
  ⟨hfull, fun x hx => (hcalls x hx).trans (h.deadline x (hvals x hx)), fun x hx => h.bound x (hvals x hx)⟩

theorem store_tight (h : Tight s) {expired now : ℕ} (ho : InTime s (.set k v expired now)) :
    Tight ⟨store s.cache k v expired now, s.calls ++ [(.set k v expired now, .done)]⟩ := by
  obtain ⟨hbound, hsame⟩ := ho
  have hmod : (expired + now) % 2 ^ 64 = now + expired := by rw [Nat.add_comm, Nat.mod_eq_of_lt hbound]
  obtain ⟨h', -, hcase⟩ := store_spec h.full.inv k v expired now
  simp only [hmod] at hcase
  rcases hcase with ⟨y, hy, hts, rfl, htimed, hentry⟩ | ⟨hnone, hp, hentry⟩
  · refine ⟨⟨h', fun x hx => ?_⟩, fun x hx => ?_, fun x hx => ?_⟩
    · have hx' : x ∈ s.cache.timed.vals := htimed ▸ hx
      rw [hentry]
      split_ifs with hk
      · rw [h.full.unique hx' hy hk]
      · exact h.full.tight x hx'
    · have hx' : x ∈ s.cache.timed.vals := htimed ▸ hx
      rw [deadline_set]
      split_ifs with hk
      · rw [h.full.unique hx' hy hk.symm, hts]
      · exact h.deadline x hx'
    · exact h.bound x (htimed ▸ hx)
  · -- the key was not there: an element with it would have this deadline
    have habsent : ∀ x ∈ s.cache.timed.vals, x.key ≠ k := by
      intro x hx hk
      exact hnone x hx ⟨hsame x (hk ▸ h.full.tight x hx), hk⟩
    refine ⟨⟨h', fun x hx => ?_⟩, fun x hx => ?_, fun x hx => ?_⟩
    · rw [hentry]
      rcases mem_cons.1 (hp.mem_iff.1 hx) with rfl | hx
      · exact if_pos rfl
      · rw [if_neg (habsent x hx)]
        exact h.full.tight x hx
    · rw [deadline_set]
      rcases mem_cons.1 (hp.mem_iff.1 hx) with rfl | hx
      · exact if_pos rfl
      · rw [if_neg (habsent x hx).symm]
        exact h.deadline x hx
    · rcases mem_cons.1 (hp.mem_iff.1 hx) with rfl | hx
      · exact hbound
      · exact h.bound x hx

theorem Tight.read (h : Tight s) {o : Op K V} {a : Answer V} (hinv : Inv c') (htimed : c'.timed = s.cache.timed)
    (hentry : ∀ k, entry c' k = entry s.cache k) (hcall : ∀ k, callDeadline k (o, a) = none) :
    Tight ⟨c', s.calls ++ [(o, a)]⟩ := by
  refine h.congr ⟨hinv, fun x hx => ?_⟩ (fun x hx => htimed ▸ hx) fun x _ => ?_
  · rw [hentry]
    exact h.full.tight x (htimed ▸ hx)
  · rw [deadline_snoc, hcall, Option.none_or]

omit [LinearOrder K] in
theorem mem_vals_of_drop {j : ℕ} (hnodes : c'.timed.nodes = c.timed.nodes.drop j) (hx : x ∈ c'.timed.vals) :
    x ∈ c.timed.vals := by
  obtain ⟨n, hn, rfl⟩ := mem_map.1 hx
  rw [hnodes] at hn
  exact mem_map_of_mem (mem_of_mem_drop hn)

theorem del_tight (h : Tight s) (k : K) : ∃ c' a, del s.cache k = some (c', a) ∧
    Tight ⟨c', s.calls ++ [(.del k, returned a)]⟩ := by
  obtain ⟨c', b, hdel, h', -, -, hentry, hcase⟩ := del_spec h.full.inv k
  -- the element of the key is gone, and it was the only one
  have hvals : ∀ x ∈ c'.timed.vals, x ∈ s.cache.timed.vals ∧ x.key ≠ k := by
    intro x hx
    rcases hcase with ⟨hp, hnone⟩ | ⟨y, hy, hp⟩
    · have hx' := hp.mem_iff.2 hx
      refine ⟨hx', fun hk => ?_⟩
      rw [← hk, h.full.tight x hx'] at hnone
      cases hnone
    · have hx' := hp.mem_iff.2 (mem_cons_of_mem y hx)
      refine ⟨hx', fun hk => ?_⟩
      obtain rfl := h.full.unique hx' (Inv.mem_vals hy) (hk.trans (h.full.inv.key_eq hy).symm)
      exact (nodup_cons.1 (hp.nodup_iff.1 h.full.vals_nodup)).1 hx
  refine ⟨c', b, hdel, h.congr ⟨h', fun x hx => ?_⟩ (fun x hx => (hvals x hx).1) fun x _ => ?_⟩
  · rw [hentry, if_neg (hvals x hx).2]
    exact h.full.tight x (hvals x hx).1
  · rw [deadline_snoc]
    rfl

theorem expired_tight (h : Tight s) {ts now : ℕ} (ho : InTime s (.expired k ts now)) :
    ∃ c' b, expired s.cache k ts now = some (c', b) ∧ Tight ⟨c', s.calls ++ [(.expired k ts now, .flag b)]⟩ := by
  obtain ⟨c', hexp, h', -, hp⟩ := h.full.expired_full k ts now
  refine ⟨c', _, hexp, h.congr h' (fun x hx => hp.mem_iff.1 hx) fun x hx => ?_⟩
  have hx' := hp.mem_iff.1 hx
  rw [deadline_snoc]
  by_cases hk : x.key = k
  · subst hk
    have hx'' := h.full.tight x hx'
    rw [hx'', h.deadline x hx', ho x hx'']
    simp [callDeadline]
  · have hk' : ¬ k = x.key := fun he => hk he.symm
    cases (entry s.cache k).isSome <;> simp [callDeadline, hk']

theorem checkTimeout_tight (h : Tight s) (ts : ℕ) :
    Tight ⟨(checkTimeout s.cache ts).1, s.calls ++ [(.checkTimeout ts, .count (checkTimeout s.cache ts).2)]⟩ := by
  obtain ⟨h', -, hvals, -, -⟩ := checkTimeout_spec h.full.inv ts
  have hmem : ∀ x ∈ (checkTimeout s.cache ts).1.timed.vals, x ∈ s.cache.timed.vals ∧ ¬ x.ts ≤ ts := by
    intro x hx
    rw [hvals] at hx
    simpa using hx
  refine h.congr ⟨h', fun x hx => ?_⟩ (fun x hx => (hmem x hx).1) fun x _ => deadline_snoc _ _ _ _
  obtain ⟨hx', hts⟩ := hmem x hx
  exact (h.full.entry_checkTimeout ts (h.full.tight x hx')).trans (if_neg hts)

/-- **One call in time.** -/
theorem tight_step [Inhabited V] (o : Op K V) (ho : InTime s o) (h : Tight s) : (step s.cache o).isSome ∧
    Tight (s.step o) := by
  have hgo : ∀ {c' : Cache K V} {a : Answer V}, step s.cache o = some (c', a) → Tight ⟨c', s.calls ++ [(o, a)]⟩ →
      (step s.cache o).isSome ∧ Tight (s.step o) := by
    intro c' a hstep ht
    rw [Hist.step_eq hstep, hstep]
    exact ⟨rfl, ht⟩
  cases o with
  | set k v expired now =>
    have h₁ := store_tight h ho
    obtain ⟨c', j, hrun, h', hnodes, -⟩ := prune_spec h₁.full
    exact hgo (by rw [step, set, hrun]; rfl) (h₁.congr h' (fun x => mem_vals_of_drop hnodes) fun x _ => rfl)
  | get k | getValue k =>
    obtain ⟨c', hget, h', htimed, -, he⟩ := get_eq h.full.inv k
    unfold get at hget
    exact hgo (by simp only [step, get, getValue, getBy_value, hget]; rfl) (h.read h' htimed he fun _ => rfl)
  | del k =>
    obtain ⟨c', a, hdel, h'⟩ := del_tight h k
    exact hgo (by rw [step, hdel]; rfl) h'
  | expired k ts now =>
    obtain ⟨c', b, hexp, h'⟩ := expired_tight h ho
    exact hgo (by rw [step, hexp]; rfl) h'
  | exists_ k | size | empty => exact hgo rfl (h.read h.full.inv rfl (fun _ => rfl) fun _ => rfl)
  | clear => refine ⟨rfl, ⟨⟨⟨Pairwise.nil, fun k a ha => by cases ha⟩, ?_⟩, ?_, ?_⟩⟩ <;> intro x hx <;> cases hx
  | setElasticity n
  | setPruneCallback cb => exact hgo rfl (h.read ⟨h.full.inv.sorted, h.full.inv.index⟩ rfl (fun _ => rfl) fun _ => rfl)
  | checkTimeout ts => exact hgo rfl (checkTimeout_tight h ts)
  | prune =>
    obtain ⟨c', j, hrun, h', hnodes, -⟩ := prune_spec h.full
    exact hgo (by rw [step, hrun]; rfl)
      (h.congr h' (fun x => mem_vals_of_drop hnodes) fun x _ => deadline_snoc _ _ _ _)

/-! ## The condition is needed -/

theorem set_fits (h : Tight s) {expired now : ℕ}
    (hex : TimeoutExact ⟨store s.cache k v expired now, s.calls ++ [(.set k v expired now, .done)]⟩) :
    now + expired < 2 ^ 64 := by
  obtain ⟨h', -, hcase⟩ := store_spec h.full.inv k v expired now
  have hlt : (expired + now) % 2 ^ 64 < 2 ^ 64 := Nat.mod_lt _ (by norm_num)
  obtain ⟨y, hy, hyk, hyts, hentry⟩ : ∃ y ∈ (store s.cache k v expired now).timed.vals, y.key = k ∧ y.ts < 2 ^ 64 ∧
      entry (store s.cache k v expired now) k = some y := by
    rcases hcase with ⟨y, hy, -, hkey, htimed, hentry⟩ | ⟨-, hp, hentry⟩
    · exact ⟨y, htimed ▸ hy, hkey, h.bound y hy, by rw [hentry, if_pos rfl]⟩
    · exact ⟨_, hp.mem_iff.2 mem_cons_self, rfl, hlt, by rw [hentry, if_pos rfl]⟩
  by_contra hge
  obtain ⟨hkeys, -⟩ := hex (2 ^ 64 - 1) (by norm_num)
  obtain ⟨h'', -, -, hlast, -⟩ := checkTimeout_spec h' (2 ^ 64 - 1)
  have hgone : exists_ (checkTimeout (store s.cache k v expired now) (2 ^ 64 - 1)).1 k = false := by
    rw [exists_eq h'', hlast, if_pos ⟨y, hy, hyk, by omega⟩]
    rfl
  have hstays : exists_ (checkTimeout (store s.cache k v expired now) (2 ^ 64 - 1)).1 k = true := by
    refine (hkeys k).2 ⟨by rw [exists_eq h', hentry]; rfl, ?_⟩
    have hd : deadline k (s.calls ++ [((.set k v expired now, .done) : Op K V × Answer V)]) = some (now + expired) := by
      rw [deadline_set, if_pos rfl]
    refine Bool.eq_false_iff.2 fun hdue => ?_
    have := (due_iff hd).1 hdue
    omega
  rw [hgone] at hstays
  cases hstays

theorem store_keys (h : Tight s) {expired now : ℕ} (h' : Inv (store s.cache k v expired now))
    (hx : entry s.cache k = some x)
    (hentry : ∀ k', entry (store s.cache k v expired now) k' = if k' = k then some y else entry s.cache k') :
    (store s.cache k v expired now).cache.keys.Perm (s.cache.timed.vals.map Item.key) := by
  refine (perm_ext_iff_of_nodup (AList.keys_nodup _) h.full.keys_nodup).2 fun k' => ?_
  rw [← h.full.keys_perm.mem_iff, ← AList.mem_keys, ← AList.mem_keys, ← AList.lookup_isSome, ← AList.lookup_isSome]
  have h1 := exists_eq h' k'
  have h2 := exists_eq h.full.inv k'
  rw [exists_] at h1 h2
  rw [h1, h2, hentry]
  split_ifs with hk
  · rw [hk, hx]
    rfl
  · rfl

theorem inTime_of_set [Inhabited V] (h : Tight s) (hm : s.cache.maxSize = 0) {expired now : ℕ}
    (hex : TimeoutExact (s.step (.set k v expired now))) : InTime s (.set k v expired now) := by
  rw [Hist.step_eq (step_set hm h.full.inv k v expired now)] at hex
  have hbound := set_fits h hex
  refine ⟨hbound, fun x hx => ?_⟩
  have hmod : (expired + now) % 2 ^ 64 = now + expired := by rw [Nat.add_comm, Nat.mod_eq_of_lt hbound]
  have hxv := Inv.mem_vals hx
  have hxk := h.full.inv.key_eq hx
  by_contra hne
  obtain ⟨h', -, hcase⟩ := store_spec h.full.inv k v expired now
  -- a second element for the key: one element more is counted than keys
  rcases hcase with ⟨z, hz, hzts, hzk, -, -⟩ | ⟨-, hp, hentry⟩
  · rw [h.full.unique hxv hz (hxk.trans hzk.symm), hzts] at hne
    exact hne hmod
  let calls := s.calls ++ [((.set k v expired now, .done) : Op K V × Answer V)]
  let c₁ := store s.cache k v expired now
  let ts := max x.ts (now + expired)
  obtain ⟨-, hnumber⟩ := hex ts (max_lt (h.bound x hxv) hbound)
  obtain ⟨-, hcount, -⟩ := checkTimeout_spec h' ts
  have hle : (c₁.cache.keys.filter (due calls ts)).length ≤
      (s.cache.timed.vals.filter fun z => decide (z.ts ≤ ts)).length := by
    rw [((store_keys h h' hx hentry).filter _).length_eq, filter_map, length_map, ← countP_eq_length_filter,
      ← countP_eq_length_filter]
    refine countP_mono_left fun z hz hdue => ?_
    rw [decide_eq_true_eq]
    by_cases hk : k = z.key
    · rw [h.full.unique hz hxv (hk.symm.trans hxk.symm)]
      exact le_max_left _ _
    · have hd : deadline z.key calls = some z.ts := by rw [deadline_set, if_neg hk, h.deadline z hz]
      exact (due_iff hd).1 hdue
  have hmore : (c₁.timed.vals.filter fun z => decide (z.ts ≤ ts)).length =
      (s.cache.timed.vals.filter fun z => decide (z.ts ≤ ts)).length + 1 := by
    have hnew : decide ((expired + now) % 2 ^ 64 ≤ ts) = true := by
      rw [hmod]
      exact decide_eq_true (le_max_right _ _)
    rw [(hp.filter _).length_eq, filter_cons, if_pos hnew, length_cons]
  have hall :
      (c₁.timed.vals.filter fun z => decide (z.ts ≤ ts)).length = (c₁.cache.keys.filter (due calls ts)).length :=
    hcount.symm.trans hnumber
  omega

theorem inTime_of_expired [Inhabited V] (h : Tight s) {ts now : ℕ}
    (hex : TimeoutExact (s.step (.expired k ts now))) : InTime s (.expired k ts now) := by
  intro x hx
  obtain ⟨c', hexp, h', hentry, -⟩ := h.full.expired_full k ts now
  have hstep : step s.cache (.expired k ts now) = some (c', .flag true) := by
    rw [step, hexp, hx]
    rfl
  rw [Hist.step_eq hstep] at hex
  let calls := s.calls ++ [((.expired k ts now, .flag true) : Op K V × Answer V)]
  have hxb := h.bound x (Inv.mem_vals hx)
  have hd : deadline k calls = some (now + ts) := by
    rw [deadline_snoc]
    simp [callDeadline]
  have hthere : exists_ c' k = true := by
    rw [exists_eq h'.inv, hentry, hx]
    rfl
  -- the key is removed at its old deadline and kept before it
  have hgone : ∀ t, exists_ (checkTimeout c' t).1 k = true ↔ ¬ x.ts ≤ t := by
    intro t
    rw [exists_eq (checkTimeout_spec h'.inv t).1, h'.entry_checkTimeout t ((hentry k).trans hx)]
    split_ifs with hle <;> simp [hle]
  have hdue : ∀ t < 2 ^ 64, ¬ x.ts ≤ t ↔ ¬ now + ts ≤ t := by
    intro t ht
    have hiff : due calls t k = true ↔ now + ts ≤ t := due_iff hd
    rw [← hgone t, (hex t ht).1 k, ← hiff, Bool.not_eq_true]
    exact and_iff_right hthere
  have h1 := hdue x.ts hxb
  rcases Nat.lt_or_ge (now + ts) x.ts with hlt | hge
  · have h2 := hdue (now + ts) (hlt.trans hxb)
    omega
  · omega

/-! ## Whole runs -/

theorem tight_init (maxSize elasticity : UInt64) : Tight (Hist.init maxSize elasticity : Hist K V) := by
  refine ⟨⟨⟨Pairwise.nil, fun k a ha => by cases ha⟩, ?_⟩, ?_, ?_⟩ <;> intro x hx <;> cases hx

theorem maxSize_step [Inhabited V] (o : Op K V) (h : Tight s) (hm : s.cache.maxSize = 0) :
    (s.step o).cache.maxSize = 0 := by
  by_cases hset : ∃ k v expired now, o = .set k v expired now
  · obtain ⟨k, v, expired, now, rfl⟩ := hset
    rw [Hist.step_eq (step_set hm h.full.inv k v expired now)]
    exact (store_spec h.full.inv k v expired now).2.1.trans hm
  · obtain ⟨c', a, hstep, -, hm', -⟩ := step_other hm h.full.inv o fun k v e now he => hset ⟨k, v, e, now, he⟩
    rw [Hist.step_eq hstep]
    exact hm'

/-- **Expiry is exact, exactly when.** -/
theorem expiry_exact_iff [Inhabited V] (ops : List (Op K V)) :
    (∀ elasticity, Meets Hist.step ExpiresRight (Hist.init 0 elasticity) ops ↔
      Meets Hist.step InTime (Hist.init 0 elasticity) ops) ∧
    ∀ maxSize elasticity, Meets Hist.step InTime (Hist.init maxSize elasticity) ops →
      Meets Hist.step (fun s o => ExpiresRight s o ∧ PrunesRight s o) (Hist.init maxSize elasticity) ops := by
  have hright : ∀ (s : Hist K V) o, Tight s → InTime s o → ExpiresRight s o := by
    intro s o h ho
    obtain ⟨hsome, h'⟩ := tight_step o ho h
    exact ⟨hsome, h'.timeoutExact⟩
  have hstep : ∀ (s : Hist K V) o, InTime s o → Tight s → Tight (s.step o) := fun s o ho h => (tight_step o ho h).2
  constructor
  · intro elasticity
    refine meets_congr (I := fun s => Tight s ∧ s.cache.maxSize = 0)
      (fun s o ho h => ⟨hstep s o ho h.1, maxSize_step o h.1 h.2⟩)
      (fun s o h => ⟨fun hexp => ?_, hright s o h.1⟩) ⟨tight_init 0 elasticity, rfl⟩ ops
    cases o with
    | set k v expired now => exact inTime_of_set h.1 h.2 hexp.2
    | expired k ts now => exact inTime_of_expired h.1 hexp.2
    | _ => trivial
  · intro maxSize elasticity hops
    refine Meets.imp (I := Tight) hstep (fun s o h ho => ⟨hright s o h ho, ?_⟩) (tight_init maxSize elasticity) hops
    cases o with
    | set k v expired now => exact (store_tight h ho).pruneExact
    | prune => exact h.pruneExact
    | _ => trivial

/-- **A key expires early.** -/
theorem expires_early :
    (exec step (TimedCache.init 0 0 : Cache ℕ ℕ)
      [.set 1 7 10 0, .set 1 8 100 0, .checkTimeout 10, .exists_ 1, .checkTimeout 100]).map
      Prod.snd = some [.done, .done, .count 1, .flag false, .count 1] ∧
    (exec step (TimedCache.init 0 0 : Cache ℕ ℕ)
      [.set 1 7 10 0, .expired 1 100 0, .checkTimeout 10, .exists_ 1]).map Prod.snd =
      some [.done, .flag true, .count 1, .flag false] := by
  decide

/-- an entry that is set again after it expired, and max size 1 -/
theorem expiry_exact_iff_two :
    let ops : List (Op ℕ ℕ) := [.set 1 7 10 0, .checkTimeout 10, .set 1 8 100 11, .set 2 9 20 12, .checkTimeout 32]
    Meets Hist.step InTime (Hist.init 1 0) ops ∧
    Meets Hist.step (fun s o => ExpiresRight s o ∧ PrunesRight s o) (Hist.init 1 0) ops := by
  intro ops
  have hops : Meets Hist.step InTime (Hist.init 1 0) ops := by
    refine ⟨⟨by decide, fun x hx => ?_⟩, trivial, ⟨by decide, fun x hx => ?_⟩, ⟨by decide, fun x hx => ?_⟩,
      trivial, trivial⟩
    all_goals cases hx
  exact ⟨hops, (expiry_exact_iff ops).2 1 0 hops⟩

end CoServer.DataStruct.TimedCache
