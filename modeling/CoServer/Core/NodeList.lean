/-
Linked containers whose elements are held by iterators (`std::list`, the nodes of a `std::set`), and an index of keys
into such a container.

A `NodeList` is the list of its nodes in order, each with an address; an iterator is an address. Addresses are never
used twice, so an iterator to an erased node is not live and an operation through it has no result (`none`). An `Index`
is a map from keys to iterators (`std::unordered_map`), here Mathlib's `AList`. `Linked key index l` says that a key
leads to an address iff the node there is alive and carries the key; creating, moving, changing and erasing a node keep
it when the index follows.
-/
import CoServer.Core.OrderedSet
import CoServer.Core.Recency
import Mathlib.Data.List.AList

namespace CoServer.Core

open List Nat Function OrderedSet

variable {α K : Type}

structure NodeList (α : Type) where
  nodes : List (ℕ × α)
  /-- above every address used so far -/
  next : ℕ
  nodup : (nodes.map Prod.fst).Nodup
  below : ∀ n ∈ nodes, n.1 < next

open NodeList

namespace NodeList

def empty : NodeList α := ⟨[], 0, nodup_nil, by simp⟩

variable (l : NodeList α)

/-- the elements in order -/
def vals : List α := l.nodes.map Prod.snd

/-- the element an iterator points to -/
def deref (a : ℕ) : Option α := l.nodes.lookup a

theorem next_notMem : l.next ∉ l.nodes.map Prod.fst := by
  intro h
  obtain ⟨n, hn, he⟩ := mem_map.1 h
  exact absurd (l.below n hn) (by omega)

/-- a sublist of the nodes, under the same addresses -/
def keep (p : ℕ × α → Bool) : NodeList α where
  nodes := l.nodes.filter p
  next := l.next
  nodup := l.nodup.sublist (filter_sublist.map _)
  below n hn := l.below n (mem_of_mem_filter hn)

def emplaceFront (x : α) : NodeList α where
  nodes := (l.next, x) :: l.nodes
  next := l.next + 1
  nodup := nodup_cons.2 ⟨l.next_notMem, l.nodup⟩
  below := by
    intro n hn
    rcases mem_cons.1 hn with rfl | hn
    · exact lt_succ_self _
    · exact (l.below n hn).trans (lt_succ_self _)

variable {l : NodeList α} {a : ℕ} {x : α}

theorem mem_of_deref (h : l.deref a = some x) : (a, x) ∈ l.nodes := by
  obtain ⟨l₁, l₂, he, -⟩ := lookup_eq_some_iff.1 h
  rw [he]
  simp

section

variable (l : NodeList α)

/-- the node an iterator points to, put in front -/
def consKeep (a : ℕ) (x : α) (h : (a, x) ∈ l.nodes) : NodeList α where
  nodes := (a, x) :: l.nodes.filter fun n => n.1 != a
  next := l.next
  nodup := by
    refine nodup_cons.2 ⟨?_, l.nodup.sublist (filter_sublist.map _)⟩
    intro hmem
    obtain ⟨n, hn, he⟩ := mem_map.1 hmem
    have := (mem_filter.1 hn).2
    simp [he] at this
  below := by
    intro n hn
    rcases mem_cons.1 hn with rfl | hn
    · exact l.below _ h
    · exact l.below n (mem_of_mem_filter hn)

/-- `splice(begin(), list, it)`: the node moves to the front and keeps its address -/
def splice (a : ℕ) : Option (NodeList α) :=
  match h : l.deref a with
  | none => none
  | some x => some (l.consKeep a x (mem_of_deref h))

/-- an assignment through an iterator -/
def modify (a : ℕ) (f : α → α) : Option (NodeList α) :=
  match l.deref a with
  | none => none
  | some _ => some {
      nodes := l.nodes.map fun n => if n.1 = a then (n.1, f n.2) else n
      next := l.next
      nodup := by
        rw [map_map]
        refine (congrArg Nodup (map_congr_left fun n _ => ?_)).mpr l.nodup
        simp only [comp_apply]
        split_ifs <;> rfl
      below := by
        intro n hn
        obtain ⟨m, hm, rfl⟩ := mem_map.1 hn
        split_ifs
        · exact l.below m hm
        · exact l.below m hm }

/-- `erase(it)` -/
def erase (a : ℕ) : Option (NodeList α) :=
  match l.deref a with
  | none => none
  | some _ => some (l.keep fun n => n.1 != a)

/-- `begin()` -/
def begin : Option ℕ := l.nodes.head?.map Prod.fst

/-- `--end()` with what it points to: the last node -/
def back : Option (ℕ × α) := l.nodes.getLast?

def popBack : NodeList α where
  nodes := l.nodes.dropLast
  next := l.next
  nodup := l.nodup.sublist ((dropLast_sublist _).map _)
  below n hn := l.below n (dropLast_subset _ hn)

/-- `insert` of an ordered set: the new node, or the equivalent one that is there -/
def insertBy (lt : α → α → Bool) (l : NodeList α) (x : α) : NodeList α × ℕ :=
  match l.nodes.find? fun n => !lt x n.2 && !lt n.2 x with
  | some n => (l, n.1)
  | none => ({
      nodes := OrderedSet.insert (fun m n => lt m.2 n.2) (l.next, x) l.nodes
      next := l.next + 1
      nodup := by
        rcases insert_perm (fun m n => lt m.2 n.2) (l.next, x) l.nodes with hp | he
        · rw [(hp.map Prod.fst).nodup_iff, map_cons]
          exact nodup_cons.2 ⟨l.next_notMem, l.nodup⟩
        · rw [he]
          exact l.nodup
      below := by
        intro n hn
        rcases insert_perm (fun m n => lt m.2 n.2) (l.next, x) l.nodes with hp | he
        · rcases mem_cons.1 (hp.mem_iff.1 hn) with rfl | hn
          · exact lt_succ_self _
          · exact (l.below n hn).trans (lt_succ_self _)
        · rw [he] at hn
          exact (l.below n hn).trans (lt_succ_self _) }, l.next)

def clear : NodeList α := ⟨[], l.next, nodup_nil, by simp⟩

@[simp] theorem nodes_emplaceFront (x : α) : (l.emplaceFront x).nodes = (l.next, x) :: l.nodes := rfl

@[simp] theorem begin_emplaceFront (x : α) : (l.emplaceFront x).begin = some l.next := rfl

@[simp] theorem nodes_keep (p : ℕ × α → Bool) : (l.keep p).nodes = l.nodes.filter p := rfl

@[simp] theorem vals_emplaceFront (x : α) : (l.emplaceFront x).vals = x :: l.vals := rfl

@[simp] theorem length_vals : l.vals.length = l.nodes.length := length_map _

end

theorem nodes_eq_of_back {n : ℕ × α} (h : l.back = some n) : l.nodes = l.popBack.nodes ++ [n] :=
  (dropLast_append_getLast? n h).symm

theorem exists_back {n : ℕ} (h : l.vals.length = n + 1) :
    ∃ a x, l.back = some (a, x) ∧ l.vals = l.popBack.vals ++ [x] ∧ l.popBack.vals.length = n := by
  cases hb : l.back with
  | none =>
    rw [length_vals, getLast?_eq_none_iff.1 hb] at h
    cases h
  | some m =>
    have hsplit : l.vals = l.popBack.vals ++ [m.2] := by
      rw [vals, nodes_eq_of_back hb, map_append]
      rfl
    rw [hsplit, length_append, length_singleton] at h
    exact ⟨m.1, m.2, rfl, hsplit, succ.inj h⟩

theorem nodes_popBack_eq {n : ℕ × α} (h : l.back = some n) : l.popBack.nodes = l.nodes.filter fun m => m.1 != n.1 := by
  have hsplit := nodes_eq_of_back h
  have hnodup := l.nodup
  rw [hsplit, map_append, nodup_append] at hnodup
  have hkeep : l.popBack.nodes.filter (fun m => m.1 != n.1) = l.popBack.nodes := by
    rw [filter_eq_self]
    intro m hm
    have := hnodup.2.2 m.1 (mem_map_of_mem hm) n.1 (by simp)
    simpa using this
  conv_rhs => rw [hsplit, filter_append, hkeep]
  simp

theorem inj (l : NodeList α) {y : α} (hx : (a, x) ∈ l.nodes) (hy : (a, y) ∈ l.nodes) : x = y := by
  have := inj_on_of_nodup_map l.nodup hx hy rfl
  exact (Prod.mk.inj this).2

theorem deref_iff : l.deref a = some x ↔ (a, x) ∈ l.nodes := by
  refine ⟨mem_of_deref, fun h => ?_⟩
  cases hd : l.deref a with
  | some y => rw [l.inj (mem_of_deref hd) h]
  | none =>
    have := lookup_eq_none_iff.1 hd (a, x) h
    simp at this

theorem mem_addr : a ∈ l.nodes.map Prod.fst ↔ ∃ x, (a, x) ∈ l.nodes := by
  rw [mem_map]
  constructor
  · intro ⟨n, hn, he⟩
    exact ⟨n.2, he ▸ hn⟩
  · intro ⟨x, hx⟩
    exact ⟨_, hx, rfl⟩

theorem mem_consKeep (h : (a, x) ∈ l.nodes) (n : ℕ × α) : n ∈ (l.consKeep a x h).nodes ↔ n ∈ l.nodes := by
  simp only [consKeep, mem_cons, mem_filter, bne_iff_ne]
  constructor
  · rintro (rfl | ⟨hn, -⟩)
    · exact h
    · exact hn
  intro hn
  by_cases ha : n.1 = a
  · exact .inl (inj_on_of_nodup_map l.nodup hn h ha)
  · exact .inr ⟨hn, ha⟩

theorem nodes_nodup (l : NodeList α) : l.nodes.Nodup := Nodup.of_map _ l.nodup

section

variable (h : (a, x) ∈ l.nodes)
include h

theorem perm_keep : l.nodes.Perm ((a, x) :: (l.keep fun n => n.1 != a).nodes) := by
  have hnodup : ((a, x) :: (l.keep fun n => n.1 != a).nodes).Nodup := Nodup.of_map _ (l.consKeep a x h).nodup
  refine (perm_ext_iff_of_nodup l.nodes_nodup hnodup).2 fun n => ?_
  exact (mem_consKeep h n).symm

theorem vals_modify_consKeep {l' : NodeList α} {f : α → α}
    (hl : l'.nodes = (l.consKeep a x h).nodes.map fun n => if n.1 = a then (n.1, f n.2) else n) :
    l'.vals = f x :: (l.keep fun n => n.1 != a).vals := by
  have hrest : (l.nodes.filter fun n => n.1 != a).map (fun n => if n.1 = a then (n.1, f n.2) else n) =
      l.nodes.filter fun n => n.1 != a := by
    refine (map_congr_left fun n hn => ?_).trans (map_id _)
    have hna : n.1 ≠ a := by simpa using (mem_filter.1 hn).2
    simp [hna]
  rw [vals, hl, consKeep, map_cons, hrest, if_pos rfl]
  rfl

theorem splice_eq : l.splice a = some (l.consKeep a x h) := by
  unfold splice
  split
  · rename_i hn
    rw [deref_iff.2 h] at hn
    cases hn
  · rename_i y hy
    obtain rfl := l.inj (mem_of_deref hy) h
    rfl

theorem erase_eq : l.erase a = some (l.keep fun n => n.1 != a) := by
  unfold erase
  rw [deref_iff.2 h]

end

theorem modify_eq (f : α → α) (h : (a, x) ∈ l.nodes) :
    ∃ l', l.modify a f = some l' ∧ l'.nodes = l.nodes.map fun n => if n.1 = a then (n.1, f n.2) else n := by
  unfold modify
  rw [deref_iff.2 h]
  exact ⟨_, rfl, rfl⟩

section

variable {κ : Type} [LinearOrder κ] {lt : α → α → Bool} {key : α → κ} {l : NodeList α}

/-- the order of the nodes of an ordered set -/
def SortedBy (key : α → κ) (l : NodeList α) : Prop := Sorted (fun n : ℕ × α => key n.2) l.nodes

theorem insertBy_spec (hlt : Keyed lt key) (hs : l.SortedBy key) (x : α) :
    (∃ n ∈ l.nodes, key n.2 = key x ∧ l.insertBy lt x = (l, n.1)) ∨
    (∀ n ∈ l.nodes, key n.2 ≠ key x) ∧ ∃ l', l.insertBy lt x = (l', l.next) ∧ l'.SortedBy key ∧
      l'.nodes.Perm ((l.next, x) :: l.nodes) := by
  have hlt' : Keyed (fun m n : ℕ × α => lt m.2 n.2) (fun n => key n.2) := fun m n => hlt m.2 n.2
  unfold insertBy
  split
  · rename_i n hn
    have hfound := find?_some hn
    exact .inl ⟨n, mem_of_find?_eq_some hn, hlt.equiv_iff.1 hfound, rfl⟩
  rename_i hn
  have hne : ∀ n ∈ l.nodes, key n.2 ≠ key x := by
    intro n hmem he
    exact find?_eq_none.1 hn n hmem (hlt.equiv_iff.2 he)
  refine .inr ⟨hne, _, rfl, hs.insert hlt' hne, ?_⟩
  rcases insert_perm (fun m n : ℕ × α => lt m.2 n.2) (l.next, x) l.nodes with hp | he
  · exact hp
  -- the new node would be an old one
  have hmem : (l.next, x) ∈ l.nodes := by
    rw [← he]
    exact (mem_insert hlt' hne).2 (.inl rfl)
  exact absurd (l.below _ hmem) (lt_irrefl _)

end

end NodeList

/-! ## An index of keys into a container -/

/-- a map from keys to iterators -/
abbrev Index (K : Type) := AList fun _ : K => ℕ

namespace Index

variable [DecidableEq K]

variable (s : Index K)

/-- `insert`: an entry that is there stays -/
def emplace (k : K) (a : ℕ) : Index K := if k ∈ s then s else s.insert k a

def size : ℕ := s.keys.length

theorem lookup_insert_eq (k : K) (a : ℕ) (k' : K) :
    AList.lookup k' (AList.insert k a s) = if k' = k then some a else s.lookup k' := by
  split_ifs with hk
  · rw [hk, AList.lookup_insert]
  · exact AList.lookup_insert_ne hk

theorem lookup_emplace {s : Index K} {k : K} (h : s.lookup k = none) (a : ℕ) (k' : K) :
    (s.emplace k a).lookup k' = if k' = k then some a else s.lookup k' := by
  rw [emplace, if_neg (AList.lookup_eq_none.1 h), lookup_insert_eq]

theorem lookup_erase_eq (k k' : K) : AList.lookup k' (AList.erase k s) = if k' = k then none
    else s.lookup k' := by
  split_ifs with hk
  · rw [hk, AList.lookup_erase]
  · exact AList.lookup_erase_ne hk

end Index

/-- the index leads to exactly the nodes of the container, each under its key -/
def Linked [DecidableEq K] (key : α → K) (index : Index K) (l : NodeList α) : Prop :=
  ∀ k a, index.lookup k = some a ↔ ∃ x, (a, x) ∈ l.nodes ∧ key x = k

namespace Linked

variable [DecidableEq K] {key : α → K} {index : Index K} {l l' : NodeList α} {k : K} {a : ℕ} {x : α}

theorem nil (l : NodeList α) (h : l.nodes = []) : Linked key (∅ : Index K) l := by
  intro k a
  simp [h]

section

variable (h : Linked key index l)
include h

theorem live (hk : index.lookup k = some a) : ∃ x, (a, x) ∈ l.nodes ∧ key x = k := (h k a).1 hk

theorem addr_inj {n m : ℕ × α} (hn : n ∈ l.nodes) (hm : m ∈ l.nodes) (he : key n.2 = key m.2) : n = m := by
  have h1 := (h (key m.2) n.1).2 ⟨n.2, hn, he⟩
  have h2 := (h (key m.2) m.1).2 ⟨m.2, hm, rfl⟩
  have ha : n.1 = m.1 := by
    rw [h1] at h2
    exact Option.some.inj h2
  exact inj_on_of_nodup_map l.nodup hn hm ha

theorem keys_nodup : (l.vals.map key).Nodup := by
  rw [vals, map_map]
  exact l.nodes_nodup.map_on fun n hn m hm he => h.addr_inj hn hm he

theorem mem_iff : k ∈ index ↔ k ∈ l.vals.map key := by
  rw [← AList.lookup_isSome, Option.isSome_iff_exists]
  constructor
  · intro ⟨a, ha⟩
    obtain ⟨x, hx, rfl⟩ := h.live ha
    exact mem_map_of_mem (mem_map_of_mem hx)
  intro hk
  obtain ⟨x, hx, rfl⟩ := mem_map.1 hk
  obtain ⟨n, hn, rfl⟩ := mem_map.1 hx
  exact ⟨n.1, (h _ _).2 ⟨n.2, hn, rfl⟩⟩

theorem card : Index.size index = l.vals.length := by
  have hp : index.keys.Perm (l.vals.map key) :=
    (perm_ext_iff_of_nodup index.keys_nodup h.keys_nodup).2 fun k => h.mem_iff
  rw [Index.size, hp.length_eq, length_map]

theorem find_eq (hk : index.lookup k = some a) : ∃ x, (a, x) ∈ l.nodes ∧ key x = k ∧
    Recency.find key k l.vals = some x := by
  obtain ⟨x, hx, rfl⟩ := h.live hk
  exact ⟨x, hx, rfl, Recency.find_eq_some h.keys_nodup (mem_map_of_mem hx)⟩

theorem find_eq_none (hk : index.lookup k = none) : Recency.find key k l.vals = none := by
  refine Recency.find_eq_none.2 fun x hx he => ?_
  rw [AList.lookup_eq_none, h.mem_iff] at hk
  exact hk (he ▸ mem_map_of_mem hx)

theorem isSome_lookup (k : K) : (index.lookup k).isSome = (Recency.find key k l.vals).isSome := by
  cases hk : index.lookup k with
  | none =>
    rw [h.find_eq_none hk]
    rfl
  | some a =>
    obtain ⟨x, -, -, hfind⟩ := h.find_eq hk
    rw [hfind]
    rfl

theorem emplaceFront (hk : index.lookup (key x) = none) :
    Linked key (Index.emplace index (key x) l.next) (l.emplaceFront x) := by
  intro k a
  rw [Index.lookup_emplace hk]
  split_ifs with hkx
  · subst hkx
    constructor
    · intro ha
      cases ha
      exact ⟨x, mem_cons_self, rfl⟩
    intro ⟨y, hy, he⟩
    rcases mem_cons.1 hy with hy | hy
    · rw [(Prod.mk.inj hy).1]
    · rw [(h _ a).2 ⟨y, hy, he⟩] at hk
      cases hk
  · rw [h k a]
    constructor
    · intro ⟨y, hy, he⟩
      exact ⟨y, mem_cons_of_mem _ hy, he⟩
    intro ⟨y, hy, he⟩
    rcases mem_cons.1 hy with hy | hy
    · obtain rfl := (Prod.mk.inj hy).2
      exact absurd he.symm hkx
    · exact ⟨y, hy, he⟩

theorem congr (hp : ∀ n, n ∈ l'.nodes ↔ n ∈ l.nodes) : Linked key index l' := by
  intro k a
  rw [h k a]
  simp only [hp]

theorem splice (hx : (a, x) ∈ l.nodes) : Linked key index (l.consKeep a x hx) := h.congr (mem_consKeep hx)

theorem modify {f : α → α} (hf : ∀ y, key (f y) = key y)
    (hl : l'.nodes = l.nodes.map fun n => if n.1 = a then (n.1, f n.2) else n) : Linked key index l' := by
  intro k b
  rw [h k b, hl]
  constructor
  · intro ⟨y, hy, he⟩
    by_cases hb : b = a
    · exact ⟨f y, mem_map.2 ⟨_, hy, by simp [hb]⟩, (hf y).trans he⟩
    · exact ⟨y, mem_map.2 ⟨_, hy, by simp [hb]⟩, he⟩
  · intro ⟨y, hy, he⟩
    obtain ⟨n, hn, hny⟩ := mem_map.1 hy
    split_ifs at hny with hna
    · obtain ⟨rfl, rfl⟩ := Prod.mk.inj hny
      exact ⟨n.2, hn, (hf n.2).symm.trans he⟩
    · subst hny
      exact ⟨y, hn, he⟩

theorem ne_iff (hx : (a, x) ∈ l.nodes) {n : ℕ × α} (hn : n ∈ l.nodes) : n.1 ≠ a ↔ key n.2 ≠ key x := by
  constructor
  · intro hna he
    exact hna (congrArg Prod.fst (h.addr_inj hn hx he))
  · intro hne ha
    have : n = (a, x) := inj_on_of_nodup_map l.nodup hn hx ha
    exact hne (by rw [this])

theorem erase (hx : (a, x) ∈ l.nodes) : Linked key (AList.erase (key x) index) (l.keep fun n => n.1 != a) := by
  intro k b
  rw [Index.lookup_erase_eq]
  simp only [nodes_keep, mem_filter, bne_iff_ne]
  split_ifs with hk
  · constructor
    · intro hn
      cases hn
    · intro ⟨y, ⟨hy, hb⟩, he⟩
      exact absurd (he.trans hk) ((h.ne_iff hx hy).1 hb)
  · rw [h k b]
    constructor
    · intro ⟨y, hy, he⟩
      exact ⟨y, ⟨hy, (h.ne_iff hx hy).2 fun hyx => hk (he.symm.trans hyx)⟩, he⟩
    · intro ⟨y, ⟨hy, _⟩, he⟩
      exact ⟨y, hy, he⟩

theorem popBack (hb : l.back = some (a, x)) : Linked key (AList.erase (key x) index) l.popBack := by
  have hx : (a, x) ∈ l.nodes := mem_of_getLast? hb
  refine (h.erase hx).congr fun n => ?_
  rw [nodes_popBack_eq hb, nodes_keep]

theorem vals_erase (hx : (a, x) ∈ l.nodes) : (l.keep fun n => n.1 != a).vals = Recency.remove key (key x) l.vals := by
  rw [Recency.remove, vals, vals, filter_map]
  congr 1
  refine filter_congr fun n hn => ?_
  rw [Bool.eq_iff_iff, bne_iff_ne, comp_apply, bne_iff_ne]
  exact h.ne_iff hx hn

theorem remove_modify {f : α → α} (hf : ∀ y, key (f y) = key y) (hx : (a, x) ∈ l.nodes)
    (hl : l'.nodes = l.nodes.map fun n => if n.1 = a then (n.1, f n.2) else n) :
    (a, f x) ∈ l'.nodes ∧ Recency.remove key (key x) l'.vals = Recency.remove key (key x) l.vals := by
  have hmem : (a, f x) ∈ l'.nodes := by
    rw [hl]
    exact mem_map.2 ⟨_, hx, by simp⟩
  refine ⟨hmem, ?_⟩
  have h' : Linked key index l' := h.modify hf hl
  have hnodes : (l'.nodes.filter fun n => n.1 != a) = l.nodes.filter fun n => n.1 != a := by
    rw [hl, filter_map]
    have hcomp : ((fun n : ℕ × α => n.1 != a) ∘ fun n => if n.1 = a then (n.1, f n.2) else n) = fun n => n.1 != a := by
      funext n
      simp only [comp_apply]
      split_ifs <;> rfl
    rw [hcomp]
    refine (map_congr_left fun n hn => ?_).trans (map_id _)
    have : n.1 ≠ a := by simpa using (mem_filter.1 hn).2
    simp [this]
  rw [← hf x, ← h'.vals_erase hmem, hf x, ← h.vals_erase hx, vals, vals, nodes_keep, nodes_keep, hnodes]

theorem vals_splice (hx : (a, x) ∈ l.nodes) : (l.consKeep a x hx).vals = Recency.touch key x l.vals := by
  rw [Recency.touch, ← h.vals_erase hx]
  rfl

theorem access_eq (hk : index.lookup k = some a) :
    ∃ x l', l.splice a = some l' ∧ l'.deref a = some x ∧ (∀ n, n ∈ l'.nodes ↔ n ∈ l.nodes) ∧
      Recency.find key k l.vals = some x ∧ l'.vals = Recency.touch key x l.vals := by
  obtain ⟨x, hx, -, hfind⟩ := h.find_eq hk
  exact ⟨x, _, splice_eq hx, deref_iff.2 mem_cons_self, mem_consKeep hx, hfind, h.vals_splice hx⟩

theorem remove_eq (hk : index.lookup k = some a) :
    ∃ x, (a, x) ∈ l.nodes ∧ l.erase a = some (l.keep fun n => n.1 != a) ∧
      Linked key (AList.erase k index) (l.keep fun n => n.1 != a) ∧
      Recency.find key k l.vals = some x ∧ (l.keep fun n => n.1 != a).vals = Recency.remove key k l.vals := by
  obtain ⟨x, hx, rfl, hfind⟩ := h.find_eq hk
  exact ⟨x, hx, NodeList.erase_eq hx, h.erase hx, hfind, h.vals_erase hx⟩

end

end Linked

end CoServer.Core
