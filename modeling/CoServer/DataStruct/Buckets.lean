/-
The bucket table that `HashMap` (include/datastruct/hash_map.h) and `HashMultimap` (include/datastruct/hash_multimap.h)
share.

Both classes hold a power of two of vectors of nodes, each in order of the keys, and write out the same statements on
them: search in the bucket of a hash value, `push_back` and one pass of swaps, removal by a swap with the last node and
a sort, and `rehashUnlock`. A bucket that is not there is a fault, and a lock that is never granted is one too (`none`).
Calls come one at a time; the locks of the single buckets are never nested and are left out.

`entry` is the node of a key; `add_spec`, `assign_spec`, `remove_spec` and `rehash_spec` say what happens to it, and
`locate_spec` that the search finds it.
-/
import CoServer.Core.Double
import CoServer.Core.SortedVec

namespace CoServer.DataStruct.Buckets

open CoServer.Core List SortedVec OrderedSet

variable {K α : Type}

/-! ## The code -/

/-- what the calling thread holds -/
inductive Held where
  | none
  | read
  | write
deriving DecidableEq

/-- a `pthread_rwlock_t` of glibc that one thread uses; `RWMutex` ignores the results of its calls -/
structure Lock where
  held : Held
  /-- the unlocks of a lock not held: each is counted as a reader who leaves -/
  extra : ℕ
  /-- with such unlocks, whether the write phase goes on: a writer is let in whatever the readers' count -/
  phase : Bool
deriving DecidableEq

namespace Lock

def free : Lock := ⟨.none, 0, false⟩

def read : Lock := ⟨.read, 0, false⟩

def write : Lock := ⟨.write, 0, false⟩

/-- unchanged for the writer himself (`EDEADLK`) and if the readers' count is still negative with this one (`EAGAIN`) -/
def rdlock (m : Lock) : Lock :=
  if m.held = .write ∨ 2 ≤ m.extra then m else { m with held := .read, phase := false }

/-- unchanged for the writer himself (`EDEADLK`); outside the write phase a writer waits until no reader is counted -/
def wrlock (m : Lock) : Option Lock :=
  if m.held = .write then some m
  else if m.held = .none ∧ (m.extra = 0 ∨ m.phase) then some { m with held := .write }
  else none

/-- a writer ends the write phase if readers are counted; a lock not held has just been released by its writer, in
`swap` -/
def unlock (m : Lock) : Lock :=
  match m.held with
  | .read => { m with held := .none }
  | .write => { m with held := .none, phase := false }
  | .none => { m with extra := m.extra + 1, phase := decide (m.extra = 0) }

end Lock

structure Table (α : Type) where
  /-- `_size` -/
  size : ℕ
  /-- `_total`, a `uint64_t` -/
  total : ℕ
  /-- `_datas` -/
  datas : List (List α)
  /-- `_mutex` -/
  mutex : Lock

/-- the conversion of an unsigned value to `int` -/
def toInt (n : ℕ) : ℤ := (BitVec.ofNat 32 n).toInt

/-- `basket`; `floor(log2(n))` of an `int` is exact in `double` -/
def basket (n : ℤ) : ℕ := if n ≤ 0 then 1 else 2 ^ min (Nat.log2 n.natAbs + 1) 30

/-- the constructor -/
def init (size : ℕ) : Table α := ⟨basket (toInt size), 0, replicate (basket (toInt size)) [], .free⟩

variable (t : Table α)

/-- `getRate`: a quotient in `double`, returned as a `float` -/
def getRate : ℚ := Double.single (Double.round (Double.round t.total / Double.round t.size))

def needRehash : Bool := decide (16 < getRate t)

def rdlock : Table α := { t with mutex := t.mutex.rdlock }

def wrlock : Option (Table α) := t.mutex.wrlock.map fun m => { t with mutex := m }

def unlock : Table α := { t with mutex := t.mutex.unlock }

section

variable (hash : K → UInt64) (key : α → K)

/-- the bucket of a key: the hash value is stored in a `uint32_t` first -/
def pos (t : Table α) (k : K) : ℕ := (hash k).toNat % 2 ^ 32 % t.size

/-- the bucket of a node in a table of `size` buckets, in `rehashUnlock` and `readFrom`: the hash value as it is -/
def slot (size : ℕ) (x : α) : ℕ := (hash (key x)).toNat % size

/-- `datas[slot].push_back(n)` for all nodes -/
def distribute (size : ℕ) (nodes : List α) : List (List α) :=
  nodes.foldl (fun datas x => datas.modify (slot hash key size x) (· ++ [x])) (replicate size [])

variable (less : α → α → Bool) (t : Table α)

def rehashUnlock : Table α :=
  let size := basket (toInt t.total)
  if size = t.size then t
  else { t with size := size, datas := (distribute hash key size t.datas.flatten).map (sort less) }

def rehash : Option (Table α) := do
  let t ← wrlock t
  let t := if needRehash t then rehashUnlock hash key less t else t
  some (unlock t)

/-- the first statement of `set` and `insert` -/
def rehashIfNeeded : Option (Table α) := if needRehash t then rehash hash key less t else some t

/-- the bucket of the key of `probe` and where `binarySearch` finds the key there -/
def locate (probe : α) : Option (List α × Option ℕ) := do
  let bucket ← t.datas[pos hash t (key probe)]?
  some (bucket, binarySearch less probe bucket)

variable (bucket : List α)

/-- `push_back(node)`, `sortLast(&bucket[0], bucket.size())`, `addFetch(_total)` -/
def add (x : α) : Table α :=
  { t with
    datas := t.datas.set (pos hash t (key x)) (sortLast less (bucket ++ [x]) (toInt (bucket.length + 1)))
    total := (t.total + 1) % 2 ^ 64 }

/-- an assignment to the node the search found -/
def assign (i : ℕ) (x : α) : Table α :=
  { t with datas := t.datas.set (pos hash t (key x)) (bucket.set i x) }

/-- `std::swap(*it, bucket.back())`, if there is more than one node -/
def swapBack (i : ℕ) : List α :=
  match bucket.getLast?, bucket[i]? with
  | some last, some x => if 1 < bucket.length then (bucket.set i last).set (bucket.length - 1) x else bucket
  | _, _ => bucket

/-- the swap, `resize(size() - 1)`, `std::sort`, `subFetch(_total)` -/
def remove (k : K) (bucket : List α) (i : ℕ) : Table α :=
  { t with
    datas := t.datas.set (pos hash t k) (sort less (swapBack bucket i).dropLast)
    total := (t.total + (2 ^ 64 - 1)) % 2 ^ 64 }

end

/-! ## Numbers of buckets -/

theorem toInt_of_lt {n : ℕ} (h : n < 2 ^ 31) : toInt n = n := by
  have hmod : (BitVec.ofNat 32 n).toNat = n := by exact Nat.mod_eq_of_lt (by omega)
  rw [toInt, BitVec.toInt_eq_toNat_of_lt (by rw [hmod]; omega), hmod]

theorem basket_pow (n : ℤ) : ∃ j, j ≤ 30 ∧ basket n = 2 ^ j := by
  unfold basket
  split_ifs
  · exact ⟨0, by norm_num, rfl⟩
  · exact ⟨_, Nat.min_le_right _ _, rfl⟩

/-! ## Well-formed tables -/

variable [LinearOrder K] {hash : K → UInt64} {key : α → K} {less : α → α → Bool} {t : Table α} {k : K} {x : α}

/-- every bucket is in strict order, and every key is where its hash selects -/
structure WF (hash : K → UInt64) (key : α → K) (t : Table α) : Prop where
  pow : ∃ j, j ≤ 30 ∧ t.size = 2 ^ j
  len : t.datas.length = t.size
  sorted : ∀ (i : ℕ) (b : List α), t.datas[i]? = some b → Sorted key b
  placed : ∀ (i : ℕ) (b : List α), t.datas[i]? = some b → ∀ x ∈ b, slot hash key t.size x = i

/-- the node of a key -/
def entry (hash : K → UInt64) (key : α → K) (t : Table α) (k : K) : Option α :=
  (t.datas[pos hash t k]?).bind fun b => b.find? fun x => key x == k

theorem WF.pos_eq (h : WF hash key t) (x : α) : pos hash t (key x) = slot hash key t.size x := by
  obtain ⟨j, hj, hs⟩ := h.pow
  refine Nat.mod_mod_of_dvd _ ?_
  rw [hs]
  exact pow_dvd_pow 2 (by omega)

theorem WF.size_pos (h : WF hash key t) : 0 < t.size := by
  obtain ⟨j, -, hs⟩ := h.pow
  rw [hs]
  positivity

theorem WF.bucket (h : WF hash key t) (k : K) : ∃ b, t.datas[pos hash t k]? = some b := by
  have hlt : pos hash t k < t.datas.length := by
    rw [h.len]
    exact Nat.mod_lt _ h.size_pos
  exact ⟨_, getElem?_eq_getElem hlt⟩

variable {b : List α}

theorem find_of_mem (hb : Sorted key b) (hx : x ∈ b) : (b.find? fun y => key y == key x) = some x := by
  cases hf : b.find? fun y => key y == key x with
  | none => simpa using find?_eq_none.1 hf x hx
  | some y =>
    have hy : key y = key x := by simpa using find?_some hf
    rw [hb.inj (mem_of_find?_eq_some hf) hx hy]

theorem entry_of_bucket (h : WF hash key t) (hb : t.datas[pos hash t k]? = some b) : entry hash key t k = some x ↔
    x ∈ b ∧ key x = k := by
  rw [entry, hb]
  constructor
  · intro hf
    exact ⟨mem_of_find?_eq_some hf, by simpa using find?_some hf⟩
  · intro ⟨hx, hk⟩
    rw [← hk]
    exact find_of_mem (h.sorted _ b hb) hx

theorem entry_eq_none (hb : t.datas[pos hash t k]? = some b) : entry hash key t k = none ↔ ∀ x ∈ b, key x ≠ k := by
  rw [entry, hb]
  simp

theorem wf_init (size : ℕ) : WF hash key (init size : Table α) ∧
    ∀ k, entry hash key (init size : Table α) k = none := by
  have hnil : ∀ (i : ℕ) (b : List α), (init size : Table α).datas[i]? = some b → b = [] := by
    intro i b hb
    have := mem_of_getElem? hb
    exact (mem_replicate.1 this).2
  have hwf : WF hash key (init size : Table α) := by
    refine ⟨basket_pow _, length_replicate, fun i b hb => ?_, fun i b hb x hx => ?_⟩
    · rw [hnil i b hb]
      exact Pairwise.nil
    · rw [hnil i b hb] at hx
      cases hx
  refine ⟨hwf, fun k => ?_⟩
  obtain ⟨b, hb⟩ := hwf.bucket k
  refine (entry_eq_none hb).2 fun x hx => ?_
  rw [hnil _ b hb] at hx
  cases hx

/-! ## The search -/

theorem locate_spec (hless : Keyed less key) (h : WF hash key t) (probe : α) :
    ∃ b, t.datas[pos hash t (key probe)]? = some b ∧
      ((∃ a x c, b = a ++ x :: c ∧ key x = key probe ∧ entry hash key t (key probe) = some x ∧
          locate hash key less t probe = some (b, some a.length)) ∨
        entry hash key t (key probe) = none ∧ locate hash key less t probe = some (b, none)) := by
  obtain ⟨b, hb⟩ := h.bucket (key probe)
  refine ⟨b, hb, ?_⟩
  have hloc : locate hash key less t probe = some (b, binarySearch less probe b) := by
    rw [locate, hb]
    rfl
  rcases binarySearch_spec hless (.of_sorted (h.sorted _ b hb)) probe with ⟨a, x, c, rfl, hk, -, hs⟩ | ⟨hne, hs⟩
  · exact Or.inl ⟨a, x, c, rfl, hk, (entry_of_bucket h hb).2 ⟨by simp, hk⟩, by rw [hloc, hs]⟩
  · exact Or.inr ⟨(entry_eq_none hb).2 hne, by rw [hloc, hs]⟩

/-! ## A changed bucket -/

theorem replace_spec (h : WF hash key t) {p : ℕ} (hp : p < t.size) (hb : Sorted key b)
    (hslot : ∀ x ∈ b, slot hash key t.size x = p)
    (total : ℕ) :
    let t' : Table α := { t with datas := t.datas.set p b, total := total }
    WF hash key t' ∧ ∀ k, entry hash key t' k = if pos hash t k = p then b.find? fun x => key x == k
      else entry hash key t k := by
  intro t'
  have hget : ∀ i, t'.datas[i]? = if i = p then some b else t.datas[i]? := by
    intro i
    rw [getElem?_set]
    by_cases hi : p = i
    · subst hi
      simp [h.len, hp]
    · rw [if_neg hi, if_neg fun he => hi he.symm]
  refine ⟨⟨h.pow, length_set.trans h.len, fun i c hc => ?_, fun i c hc x hx => ?_⟩, fun k => ?_⟩
  · rw [hget] at hc
    split_ifs at hc with hi
    · cases hc
      exact hb
    · exact h.sorted i c hc
  · rw [hget] at hc
    split_ifs at hc with hi
    · cases hc
      rw [hi]
      exact hslot x hx
    · exact h.placed i c hc x hx
  · rw [entry, show pos hash t' k = pos hash t k from rfl, hget]
    split_ifs <;> rfl

theorem entry_replace (h : WF hash key t) {b' : List α} {o : Option α} (hbk : t.datas[pos hash t k]? = some b)
    (hb' : Sorted key b')
    (hother : ∀ y, key y ≠ k → (y ∈ b' ↔ y ∈ b)) (ho : (b'.find? fun x => key x == k) = o) (total : ℕ) :
    let t' : Table α := { t with datas := t.datas.set (pos hash t k) b', total := total }
    WF hash key t' ∧ ∀ k', entry hash key t' k' = if k' = k then o else entry hash key t k' := by
  have hp : pos hash t k < t.size := Nat.mod_lt _ h.size_pos
  have hslot : ∀ x ∈ b', slot hash key t.size x = pos hash t k := by
    intro x hx
    by_cases hk : key x = k
    · rw [← h.pos_eq x, hk]
    · exact h.placed _ b hbk x ((hother x hk).1 hx)
  obtain ⟨hwf, hentry⟩ := replace_spec h hp hb' hslot total
  refine ⟨hwf, fun k' => ?_⟩
  rw [hentry]
  split_ifs with hpos hk' hk'
  · rw [hk', ho]
  · refine Option.ext fun y => ?_
    rw [entry_of_bucket h (hpos ▸ hbk)]
    constructor
    · intro hf
      have hy : key y = k' := by simpa using find?_some hf
      exact ⟨(hother y (hy ▸ hk')).1 (mem_of_find?_eq_some hf), hy⟩
    · intro ⟨hy, hyk⟩
      rw [← hyk]
      exact find_of_mem hb' ((hother y (hyk ▸ hk')).2 hy)
  · exact absurd (congrArg (pos hash t) hk') hpos
  · rfl

theorem add_spec (hless : Keyed less key) (h : WF hash key t) (hb : t.datas[pos hash t (key x)]? = some b)
    (hnone : entry hash key t (key x) = none) (hlen : b.length + 1 < 2 ^ 31) :
    WF hash key (add hash key less t b x) ∧
      ∀ k, entry hash key (add hash key less t b x) k = if k = key x then some x else entry hash key t k := by
  have hne := (entry_eq_none hb).1 hnone
  have hint : toInt (b.length + 1) = (b.length : ℤ) + 1 := by
    rw [toInt_of_lt hlen]
    rfl
  obtain ⟨hperm, hsorted⟩ := sortLast_spec hless (h.sorted _ b hb) hne
  rw [← hint] at hperm hsorted
  have hother : ∀ y, key y ≠ key x → (y ∈ sortLast less (b ++ [x]) (toInt (b.length + 1)) ↔ y ∈ b) := by
    intro y hy
    rw [hperm.mem_iff, mem_cons]
    exact or_iff_right fun he => hy (he ▸ rfl)
  exact entry_replace h hb hsorted hother (find_of_mem hsorted (hperm.mem_iff.2 mem_cons_self)) _

theorem assign_spec (h : WF hash key t) {a c : List α} {y : α} (hb : t.datas[pos hash t (key x)]? = some (a ++ y :: c))
    (hk : key y = key x) :
    WF hash key (assign hash key t (a ++ y :: c) a.length x) ∧
      ∀ k, entry hash key (assign hash key t (a ++ y :: c) a.length x) k = if k = key x then some x
        else entry hash key t k := by
  have hset : (a ++ y :: c).set a.length x = a ++ x :: c := by simp
  have hold := h.sorted _ _ hb
  have hsorted : Sorted key (a ++ x :: c) := by
    have hmap : (a ++ x :: c).map key = (a ++ y :: c).map key := by simp [hk]
    have hp : ((a ++ y :: c).map key).Pairwise (· < ·) := pairwise_map.2 hold
    rw [← hmap] at hp
    exact pairwise_map.1 hp
  have hother : ∀ z, key z ≠ key x → (z ∈ a ++ x :: c ↔ z ∈ a ++ y :: c) := by
    intro z hz
    have h1 : z ≠ x := fun he => hz (he ▸ rfl)
    have h2 : z ≠ y := fun he => hz (he ▸ hk)
    simp [h1, h2]
  rw [assign, hset]
  exact entry_replace h hb hsorted hother (find_of_mem hsorted (by simp)) _

omit [LinearOrder K] in
theorem swapBack_dropLast (a : List α) (y : α) (c : List α) :
    ((swapBack (a ++ y :: c) a.length).dropLast).Perm (a ++ c) := by
  have hget : (a ++ y :: c)[a.length]? = some y := by simp
  induction c using reverseRecOn with
  | nil =>
    have hlast : (a ++ [y]).getLast? = some y := by simp
    have hset : ((a ++ [y]).set a.length y).set ((a ++ [y]).length - 1) y = a ++ [y] := by simp
    simp only [swapBack, hlast, hget, hset, ite_self, dropLast_concat, append_nil]
    exact Perm.refl _
  | append_singleton c z _ =>
    have hsplit : a ++ y :: (c ++ [z]) = (a ++ y :: c) ++ [z] := by simp
    have hlast : (a ++ y :: (c ++ [z])).getLast? = some z := by rw [hsplit, getLast?_concat]
    have hlen : 1 < (a ++ y :: (c ++ [z])).length := by
      simp only [length_append, length_cons]
      omega
    have hset :
        ((a ++ y :: (c ++ [z])).set a.length z).set ((a ++ y :: (c ++ [z])).length - 1) y = (a ++ z :: c) ++ [y] := by
      rw [hsplit, length_append, length_singleton, Nat.add_sub_cancel]
      simp
    simp only [swapBack, hlast, hget, hlen, if_true, hset, dropLast_concat]
    rw [← append_assoc]
    exact perm_middle.trans (perm_append_singleton z (a ++ c)).symm

theorem remove_spec (hless : Keyed less key) (h : WF hash key t) {a c : List α} {y : α}
    (hb : t.datas[pos hash t k]? = some (a ++ y :: c)) (hk : key y = k) :
    WF hash key (remove hash less t k (a ++ y :: c) a.length) ∧
      ∀ k', entry hash key (remove hash less t k (a ++ y :: c) a.length) k' =
        if k' = k then none else entry hash key t k' := by
  let b' := sort less (swapBack (a ++ y :: c) a.length).dropLast
  have hperm : b'.Perm (a ++ c) := (sort_perm less _).trans (swapBack_dropLast a y c)
  have hold := h.sorted _ _ hb
  have hnodup : ((a ++ y :: c).map key).Nodup := Pairwise.map _ (fun _ _ hab => ne_of_lt hab) hold
  have hne : ∀ z ∈ a ++ c, key z ≠ k := by
    intro z hz he
    rw [(perm_middle.map key).nodup_iff, map_cons, nodup_cons, hk] at hnodup
    exact hnodup.1 (he ▸ mem_map_of_mem hz)
  have hsorted : Sorted key b' := by
    refine sort_sorted hless ?_
    rw [((swapBack_dropLast a y c).map key).nodup_iff]
    rw [(perm_middle.map key).nodup_iff, map_cons, nodup_cons] at hnodup
    exact hnodup.2
  have hother : ∀ z, key z ≠ k → (z ∈ b' ↔ z ∈ a ++ y :: c) := by
    intro z hz
    have hzy : z ≠ y := fun he => hz (he ▸ hk)
    rw [hperm.mem_iff]
    simp [hzy]
  refine entry_replace h hb hsorted hother (find?_eq_none.2 fun z hz => ?_) _
  simpa using hne z (hperm.mem_iff.1 hz)

/-! ## Rehashing -/

omit [LinearOrder K] in
theorem distribute_spec (hash : K → UInt64) (key : α → K) (size : ℕ) (nodes : List α) :
    (distribute hash key size nodes).length = size ∧
      ∀ i < size, (distribute hash key size nodes)[i]? = some (nodes.filter fun x => slot hash key size x == i) := by
  induction nodes using reverseRecOn with
  | nil =>
    refine ⟨length_replicate, fun i hi => ?_⟩
    simp [distribute, hi]
  | append_singleton nodes x ih =>
    obtain ⟨hlen, hget⟩ := ih
    have hstep : distribute hash key size (nodes ++ [x]) =
        (distribute hash key size nodes).modify (slot hash key size x) (· ++ [x]) := by
      rw [distribute, foldl_append]
      rfl
    refine ⟨by rw [hstep, length_modify, hlen], fun i hi => ?_⟩
    rw [hstep, getElem?_modify, hget i hi, filter_append]
    by_cases hs : slot hash key size x = i
    · simp [hs]
    · simp [hs]

theorem mem_flatten (h : WF hash key t) : x ∈ t.datas.flatten ↔ entry hash key t (key x) = some x := by
  obtain ⟨b, hb⟩ := h.bucket (key x)
  rw [entry_of_bucket h hb, List.mem_flatten]
  constructor
  · intro ⟨b', hb', hx⟩
    obtain ⟨i, hi, he⟩ := List.getElem_of_mem hb'
    have hget : t.datas[i]? = some b' := by rw [getElem?_eq_getElem hi, he]
    have hpos : pos hash t (key x) = i := (h.pos_eq x).trans (h.placed i b' hget x hx)
    rw [hpos, hget] at hb
    cases hb
    exact ⟨hx, rfl⟩
  · intro ⟨hx, _⟩
    exact ⟨b, List.mem_of_getElem? hb, hx⟩

theorem flatten_keys_nodup (h : WF hash key t) : (t.datas.flatten.map key).Nodup := by
  rw [map_flatten, nodup_flatten]
  constructor
  · intro l hl
    obtain ⟨b, hb, rfl⟩ := mem_map.1 hl
    obtain ⟨i, hi, rfl⟩ := getElem_of_mem hb
    have hs := h.sorted i _ (getElem?_eq_getElem hi)
    exact Pairwise.map _ (fun _ _ hab => ne_of_lt hab) hs
  · rw [pairwise_map, pairwise_iff_getElem]
    intro i j hi hj hij k hki hkj
    obtain ⟨x, hx, rfl⟩ := mem_map.1 hki
    obtain ⟨y, hy, hk⟩ := mem_map.1 hkj
    have h1 := h.placed i _ (getElem?_eq_getElem hi) x hx
    have h2 := h.placed j _ (getElem?_eq_getElem hj) y hy
    rw [slot, hk] at h2
    rw [slot] at h1
    omega

theorem rehashUnlock_spec (hless : Keyed less key) (h : WF hash key t) :
    WF hash key (rehashUnlock hash key less t) ∧
      (∀ k, entry hash key (rehashUnlock hash key less t) k = entry hash key t k) ∧
      (rehashUnlock hash key less t).total = t.total ∧ (rehashUnlock hash key less t).mutex = t.mutex := by
  unfold rehashUnlock
  by_cases hsame : basket (toInt t.total) = t.size
  · rw [if_pos hsame]
    exact ⟨h, fun _ => rfl, rfl, rfl⟩
  rw [if_neg hsame]
  let size := basket (toInt t.total)
  obtain ⟨hlen, hget⟩ := distribute_spec hash key size t.datas.flatten
  have hbucket : ∀ (i : ℕ) (b : List α), ((distribute hash key size t.datas.flatten).map (sort less))[i]? = some b →
      i < size ∧ b = sort less (t.datas.flatten.filter fun x => slot hash key size x == i) := by
    intro i b hb
    rw [getElem?_map] at hb
    obtain ⟨b', hb', rfl⟩ := Option.map_eq_some_iff.1 hb
    have hi : i < size := by
      have := (List.getElem?_eq_some_iff.1 hb').1
      omega
    rw [hget i hi] at hb'
    exact ⟨hi, by rw [← Option.some.inj hb']⟩
  let t' : Table α := { t with size := size, datas := (distribute hash key size t.datas.flatten).map (sort less) }
  have hwf : WF hash key t' := by
    refine ⟨basket_pow _, by rw [length_map, hlen], fun i b hb => ?_, fun i b hb x hx => ?_⟩
    · obtain ⟨-, rfl⟩ := hbucket i b hb
      refine sort_sorted hless ?_
      exact (flatten_keys_nodup h).sublist (filter_sublist.map key)
    · obtain ⟨-, rfl⟩ := hbucket i b hb
      rw [(sort_perm less _).mem_iff, mem_filter] at hx
      simpa using hx.2
  refine ⟨hwf, fun k => Option.ext fun x => ?_, rfl, rfl⟩
  have hiff : ∀ y, y ∈ t'.datas.flatten ↔ y ∈ t.datas.flatten := by
    intro y
    rw [List.mem_flatten]
    constructor
    · intro ⟨b, hb, hy⟩
      obtain ⟨i, hi, he⟩ := List.getElem_of_mem hb
      obtain ⟨-, rfl⟩ := hbucket i b (by rw [getElem?_eq_getElem hi, he])
      rw [(sort_perm less _).mem_iff] at hy
      exact mem_of_mem_filter hy
    · intro hy
      obtain ⟨b, hb⟩ := hwf.bucket (key y)
      obtain ⟨-, hb'⟩ := hbucket _ b hb
      refine ⟨b, List.mem_of_getElem? hb, ?_⟩
      rw [hb', (sort_perm less _).mem_iff, List.mem_filter]
      refine ⟨hy, ?_⟩
      rw [beq_iff_eq]
      exact (hwf.pos_eq y).symm
  have hkey : ∀ {s : Table α}, entry hash key s k = some x → key x = k := by
    intro s hs
    obtain ⟨b, -, hf⟩ := Option.bind_eq_some_iff.1 hs
    simpa using find?_some hf
  constructor
  · intro hx
    obtain rfl := hkey hx
    exact (mem_flatten h).1 ((hiff x).1 ((mem_flatten hwf).2 hx))
  · intro hx
    obtain rfl := hkey hx
    exact (mem_flatten hwf).1 ((hiff x).2 ((mem_flatten h).2 hx))

/-! ## The lock -/

omit [LinearOrder K] in
theorem rdlock_of_free (h : t.mutex = .free) : rdlock t = { t with mutex := .read } := by
  rw [rdlock, h]
  rfl

omit [LinearOrder K] in
theorem wrlock_of_free (h : t.mutex = .free) : wrlock t = some { t with mutex := .write } := by
  rw [wrlock, h]
  rfl

omit [LinearOrder K] in
theorem unlock_locked (h : t.mutex = .free) : unlock { t with mutex := .read } = t := by
  cases t
  cases h
  rfl

theorem WF.locked (h : WF hash key t) (m : Lock) : WF hash key { t with mutex := m } :=
  ⟨h.pow, h.len, h.sorted, h.placed⟩

theorem WF.unlock (h : WF hash key t) : WF hash key (unlock t) := h.locked _

@[simp] theorem entry_unlock (t : Table α) (k : K) : entry hash key (unlock t) k = entry hash key t k := rfl

theorem rehash_spec (hless : Keyed less key) (h : WF hash key t) (hm : t.mutex = .free) :
    ∃ t', rehash hash key less t = some t' ∧ WF hash key t' ∧ (∀ k, entry hash key t' k = entry hash key t k) ∧
      t'.total = t.total ∧ t'.mutex = .free := by
  let l : Table α := { t with mutex := .write }
  have hr : rehash hash key less t =
      some (Buckets.unlock (if needRehash l then rehashUnlock hash key less l else l)) := by
    rw [rehash, wrlock_of_free hm]
    rfl
  refine ⟨_, hr, ?_⟩
  split_ifs
  · obtain ⟨hwf, hentry, htotal, hmutex⟩ := rehashUnlock_spec hless (h.locked .write)
    exact ⟨hwf.unlock, hentry, htotal, by rw [Buckets.unlock, hmutex]; rfl⟩
  · exact ⟨(h.locked .write).unlock, fun _ => rfl, rfl, rfl⟩

end CoServer.DataStruct.Buckets
