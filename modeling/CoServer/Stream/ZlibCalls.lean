/-
The buffering loop of `ZlibStream` (`zlib_stream.cpp`), call by call. `encode` and `decode` offer each piece of input to
zlib and call it again as long as the output space was used up; what it produces is stored behind what the last buffer
has, or in a new buffer when that one is full.

zlib is a parameter: for its state, the input offered, the output space and the flush mode a call says how much of the
input it took and what it produced, or that it is `Z_STREAM_ERROR`, which changes nothing. `Contract` is all that is
assumed of it. `deflateEnd` and `inflateEnd` leave a `z_stream` without a state, on which every call is
`Z_STREAM_ERROR`.

Lengths are cast to `uInt`, of 32 bits. Buffers are memory of the buffer size with a used length. The ghost log `calls`
has each call of zlib with the place it wrote to, the input it was offered and what it produced. A loop that zlib never
lets end has the outcome `running`, at any fuel.

Results:
- `zlib_lossless`: for every zlib within its contract, every buffer size of at least 1 and all writes followed by one
  flush, at any fuel the result is what the calls produced, in order, each at a place of its own, in buffers that are
  not overrun; what has returned has offered its input in whole; and if zlib produces a finite output, everything
  returns.
- `loop_exhausts`: when the loop of a piece ends, zlib can make no further progress with what is left of it.
- `code_process`: with enough fuel the calls end as the model that calls zlib at once (`process`) says, and leave its
  buffers.
-/
import CoServer.Stream.ZlibStream

namespace CoServer.Stream.ZlibCalls

open CoServer.Core List Option ZlibStream

/-! ## zlib -/

/-- what a call did -/
structure Progress (σ : Type) where
  state : σ
  consumed : ℕ
  produced : List UInt8

/-- `deflate` or `inflate`: the state, `avail_in` bytes, `avail_out`, and whether the flush mode is `Z_FINISH` -/
abbrev Call (σ : Type) := σ → List UInt8 → ℕ → Bool → Option (Progress σ)

structure Contract {σ : Type} (call : Call σ) : Prop where
  /-- a prefix of the input is consumed -/
  consumed_le : ∀ {st input space finish p}, call st input space finish = some p → p.consumed ≤ input.length
  /-- a prefix of the output is filled -/
  produced_le : ∀ {st input space finish p}, call st input space finish = some p → p.produced.length ≤ space
  /-- output space is left only when there is no further progress with this input and flush mode -/
  exhausted : ∀ {st input space finish p}, call st input space finish = some p → p.produced.length < space →
    ∀ {space' p'}, call p.state (input.drop p.consumed) space' finish = some p' → p'.consumed = 0 ∧ p'.produced = []

/-- what is produced for an input and a flush mode is finite -/
def Finite {σ : Type} (call : Call σ) : Prop :=
  ∃ pending : σ → List UInt8 → Bool → ℕ, ∀ {st input space finish p}, call st input space finish = some p →
    p.produced.length + pending p.state (input.drop p.consumed) finish ≤ pending st input finish

structure Library where
  State : Type
  /-- after `deflateInit2` or `inflateInit2` -/
  init : Bool → State
  deflate : Call State
  inflate : Call State

/-! ## `ZlibStream` -/

/-- an `iovec` of `_buffs`: `_buffSize` bytes of memory, and `iov_len` -/
structure Buff where
  base : List UInt8
  len : ℕ
deriving DecidableEq

open Buff

/-- a call of zlib: the buffer and the offset it wrote to, the input it was offered, and what it produced -/
structure Record where
  buff : ℕ
  offset : ℕ
  input : List UInt8
  produced : List UInt8
deriving DecidableEq

structure St (z : Library) where
  /-- `_zstream`; none after its end -/
  zstream : Option z.State
  buffSize : ℕ
  encode : Bool
  buffs : List Buff
  calls : List Record

variable {z : Library}

def create (z : Library) (encode : Bool) (buffSize : ℕ) : St z := ⟨some (z.init encode), buffSize, encode, [], []⟩

/-- the buffers before the one that is stored into, and that one: the last if it has room, otherwise a new one -/
def St.current (s : St z) : List Buff × Buff :=
  match s.buffs.getLast? with
  | some last => if last.len ≠ s.buffSize then (s.buffs.dropLast, last) else (s.buffs, ⟨replicate s.buffSize 0, 0⟩)
  | none => (s.buffs, ⟨replicate s.buffSize 0, 0⟩)

/-- how a turn of the loop ends -/
inductive Turn (z : Library) where
  | streamError (s : St z)
  /-- `avail_out == 0`, with the input that is left -/
  | again (s : St z) (input : List UInt8)
  | done (s : St z)

/-- the body of the loop `do { … } while(_zstream.avail_out == 0)` -/
def turn (call : Call z.State) (s : St z) (input : List UInt8) (finish : Bool) : Turn z :=
  let front := s.current.1
  let last := s.current.2
  let space := (s.buffSize - last.len) % 2 ^ 32
  match s.zstream.bind fun st => call st input space finish with
  | none => .streamError { s with
      buffs := front ++ [last]
      calls := s.calls ++ [⟨front.length, last.len, input, []⟩] }
  | some p =>
    let availOut := space - p.produced.length
    let s' : St z := { s with
      zstream := some p.state
      buffs := front ++ [⟨splice last.base last.len p.produced, s.buffSize - availOut⟩]
      calls := s.calls ++ [⟨front.length, last.len, input, p.produced⟩] }
    if availOut = 0 then .again s' (input.drop p.consumed) else .done s'

inductive Ret where
  | ok
  | streamError
  /-- has not returned -/
  | running
deriving DecidableEq

def loop (call : Call z.State) : ℕ → St z → List UInt8 → Bool → Ret × St z
  | 0, s, _, _ => (.running, s)
  | fuel + 1, s, input, finish =>
    match turn call s input finish with
    | .streamError s' => (.streamError, s')
    | .again s' rest => loop call fuel s' rest finish
    | .done s' => (.ok, s')

/-- `encode` and `decode` differ in the function they call -/
def code (call : Call z.State) (fuel : ℕ) : St z → List (List UInt8) → Bool → Ret × St z
  | s, [], _ => (.ok, s)
  | s, v :: vs, finish =>
    match loop call fuel s (v.take (v.length % 2 ^ 32)) (finish && vs.isEmpty) with
    | (.ok, s') => if vs.isEmpty then (.ok, if finish then { s' with zstream := none } else s')
        else code call fuel s' vs finish
    | r => r

variable (fuel : ℕ)

variable (s : St z)

variable (v : List (List UInt8))

def encode (finish : Bool) : Ret × St z := code z.deflate fuel s v finish

def decode (finish : Bool) : Ret × St z := code z.inflate fuel s v finish

/-- `write` of one buffer, or of the read buffers of an array -/
def write : Ret × St z :=
  if s.encode then encode fuel s v false else decode fuel s v false

def flush : Ret × St z := if s.encode then encode fuel s [[]] true else decode fuel s [[]] true

/-- the used part of a buffer -/
def Buff.used (b : Buff) : List UInt8 := b.base.take b.len

def St.getResult : List UInt8 := (s.buffs.map used).flatten

/-- writes one after the other and one flush, with their return values -/
def session (fuel : ℕ) : St z → List (List (List UInt8)) → List Ret × St z
  | s, [] => ([(flush fuel s).1], (flush fuel s).2)
  | s, w :: ws =>
    if (write fuel s w).1 = .running then ([.running], (write fuel s w).2)
    else ((write fuel s w).1 :: (session fuel (write fuel s w).2 ws).1, (session fuel (write fuel s w).2 ws).2)

/-! ## Property -/

/-- the two calls wrote to different places -/
def Apart (r r' : Record) : Prop :=
  r.buff ≠ r'.buff ∨ r.offset + r.produced.length ≤ r'.offset ∨ r'.offset + r'.produced.length ≤ r.offset

structure Lossless (s : St z) : Prop where
  result : s.getResult = (s.calls.map Record.produced).flatten
  apart : s.calls.Pairwise Apart
  fits : ∀ b ∈ s.buffs, b.len ≤ s.buffSize

/-! ## Buffers -/

structure Inv (s : St z) : Prop where
  pos : 0 < s.buffSize
  bound : s.buffSize < 2 ^ 32
  memory : ∀ b ∈ s.buffs, b.base.length = s.buffSize ∧ b.len ≤ s.buffSize
  result : s.getResult = (s.calls.map Record.produced).flatten
  /-- what a call wrote is in the used part of its buffer -/
  placed : ∀ r ∈ s.calls, ∃ b, s.buffs[r.buff]? = some b ∧ r.offset + r.produced.length ≤ b.len
  apart : s.calls.Pairwise Apart

variable {s s' : St z} {input : List UInt8} {v : List (List UInt8)} {Z : Zlib}

theorem Inv.lossless (h : Inv s) : Lossless s := ⟨h.result, h.apart, fun b hb => (h.memory b hb).2⟩

theorem inv_create (z : Library) (encode : Bool) {buffSize : ℕ} (hpos : 0 < buffSize) (hbound : buffSize < 2 ^ 32) :
    Inv (create z encode buffSize) where
  pos := hpos
  bound := hbound
  memory _ hb := by cases hb
  result := rfl
  placed _ hr := by cases hr
  apart := Pairwise.nil

/-- the buffer that is stored into is there -/
def St.opened (s : St z) : St z := { s with buffs := s.current.1 ++ [s.current.2] }

/-- the output space of the next call -/
def St.room (s : St z) : ℕ := s.buffSize - s.current.2.len

theorem Inv.opened (h : Inv s) : Inv s.opened ∧ s.current.2.len < s.buffSize := by
  -- a new buffer behind those there are
  have hnew : Inv { s with buffs := s.buffs ++ [⟨replicate s.buffSize 0, 0⟩] } := by
    refine ⟨h.pos, h.bound, ?_, ?_, fun r hr => ?_, h.apart⟩
    · exact forall_mem_append.2 ⟨h.memory, forall_mem_singleton.2 ⟨length_replicate, Nat.zero_le _⟩⟩
    · rw [← h.result]
      simp [St.getResult, used]
    · obtain ⟨b, hb, hle⟩ := h.placed r hr
      have hlt : r.buff < s.buffs.length := (List.getElem?_eq_some_iff.1 hb).1
      exact ⟨b, by rw [getElem?_append_left hlt]; exact hb, hle⟩
  unfold St.opened St.current
  cases hlast : s.buffs.getLast? with
  | none => exact ⟨hnew, h.pos⟩
  | some last =>
    by_cases hfull : last.len ≠ s.buffSize
    · have hsame : s.buffs.dropLast ++ [last] = s.buffs := dropLast_append_getLast? last hlast
      have hle := (h.memory last (mem_of_getLast? hlast)).2
      simp only [if_pos hfull, hsame]
      exact ⟨h, by omega⟩
    · simp only [if_neg hfull]
      exact ⟨hnew, h.pos⟩

theorem Inv.placed_cases (h : Inv s) {r : Record} (hr : r ∈ s.calls) :
    (∃ b, s.current.1[r.buff]? = some b ∧ r.offset + r.produced.length ≤ b.len) ∨
      r.buff = s.current.1.length ∧ r.offset + r.produced.length ≤ s.current.2.len := by
  obtain ⟨b, hb, hle⟩ := h.opened.1.placed r hr
  by_cases hin : r.buff < s.current.1.length
  · rw [St.opened, getElem?_append_left hin] at hb
    exact .inl ⟨b, hb, hle⟩
  have hlen : r.buff < (s.current.1 ++ [s.current.2]).length := (List.getElem?_eq_some_iff.1 hb).1
  have hlast : r.buff = s.current.1.length := by
    rw [length_append, length_singleton] at hlen
    omega
  rw [St.opened, hlast, getElem?_concat_length] at hb
  cases hb
  exact .inr ⟨hlast, hle⟩

/-- the stream after a call that produced `out` -/
def St.store (s : St z) (zstream : Option z.State) (input out : List UInt8) : St z :=
  { s with
    zstream := zstream
    buffs := s.current.1 ++ [⟨splice s.current.2.base s.current.2.len out, s.current.2.len + out.length⟩]
    calls := s.calls ++ [⟨s.current.1.length, s.current.2.len, input, out⟩] }

theorem Inv.used_store (h : Inv s) (out : List UInt8) :
    used ⟨splice s.current.2.base s.current.2.len out, s.current.2.len + out.length⟩ = s.current.2.used ++ out := by
  have hlast := h.opened.1.memory s.current.2 (mem_append_right _ (mem_singleton_self _))
  exact take_add_splice (hlast.2.trans hlast.1.ge)

theorem Inv.store (h : Inv s) (zstream : Option z.State) (input : List UInt8) {out : List UInt8}
    (hout : out.length ≤ s.room) : Inv (s.store zstream input out) := by
  obtain ⟨ho, hlt⟩ := h.opened
  have hroom : s.current.2.len + out.length ≤ s.buffSize := by
    unfold St.room at hout
    omega
  have hlast : s.current.2 ∈ s.opened.buffs := mem_append_right _ (mem_singleton_self _)
  have hbase : s.current.2.base.length = s.buffSize := (ho.memory _ hlast).1
  have hfront : ∀ b ∈ s.current.1, b.base.length = s.buffSize ∧ b.len ≤ s.buffSize := fun b hb =>
    ho.memory b (mem_append_left _ hb)
  have hresult : (s.current.1.map used).flatten ++ s.current.2.used = (s.calls.map Record.produced).flatten := by
    have hr := ho.result
    simp only [St.opened, St.getResult, map_append, map_singleton, flatten_append, flatten_singleton] at hr
    exact hr
  refine ⟨h.pos, h.bound, ?_, ?_, fun r hr => ?_, ?_⟩
  · exact forall_mem_append.2 ⟨hfront, forall_mem_singleton.2 ⟨(length_splice (by omega)).trans hbase, hroom⟩⟩
  · simp only [St.store, St.getResult, map_append, map_singleton, flatten_append, flatten_singleton, h.used_store]
    rw [← append_assoc, hresult]
  · rcases mem_append.1 hr with hr | hr
    · rcases h.placed_cases hr with ⟨b, hb, hle⟩ | ⟨hin, hle⟩
      · have hin : r.buff < s.current.1.length := (List.getElem?_eq_some_iff.1 hb).1
        exact ⟨b, by rw [St.store, getElem?_append_left hin]; exact hb, hle⟩
      · refine ⟨_, by rw [hin]; exact getElem?_concat_length, ?_⟩
        exact hle.trans (Nat.le_add_right _ _)
    · rw [mem_singleton.1 hr]
      exact ⟨_, getElem?_concat_length, le_rfl⟩
  · -- the call writes behind all that is in its buffer
    refine pairwise_append.2 ⟨h.apart, pairwise_singleton _ _, fun r hr r' hr' => ?_⟩
    rw [mem_singleton.1 hr']
    rcases h.placed_cases hr with ⟨b, hb, -⟩ | ⟨-, hle⟩
    · exact .inl (List.getElem?_eq_some_iff.1 hb).1.ne
    · exact .inr (.inl hle)

/-! ## The loop -/

theorem Inv.space (h : Inv s) : (s.buffSize - s.current.2.len) % 2 ^ 32 = s.room := by
  have hbound := h.bound
  exact Nat.mod_eq_of_lt (by omega)

variable {call : Call z.State} {finish : Bool}

theorem turn_call (hc : Contract call) (h : Inv s)
    {st : z.State} {p : Progress z.State} (hst : s.zstream = some st) (hcall : call st input s.room finish = some p) :
    p.produced.length = s.room ∧
        turn call s input finish = .again (s.store (some p.state) input p.produced) (input.drop p.consumed) ∨
      p.produced.length < s.room ∧ turn call s input finish = .done (s.store (some p.state) input p.produced) := by
  have hlt := h.opened.2
  have hle := hc.produced_le hcall
  have hlen : s.buffSize - (s.room - p.produced.length) = s.current.2.len + p.produced.length := by
    unfold St.room at hle ⊢
    omega
  simp only [turn, h.space, hst, bind_some, hcall, hlen]
  by_cases hfull : p.produced.length = s.room
  · left
    exact ⟨hfull, by rw [if_pos (by omega)]; rfl⟩
  · right
    exact ⟨by omega, by rw [if_neg (by omega)]; rfl⟩

theorem turn_cases (hc : Contract call) (h : Inv s) (input : List UInt8) (finish : Bool) :
    turn call s input finish = .streamError (s.store s.zstream input []) ∨
    ∃ st p, s.zstream = some st ∧ call st input s.room finish = some p ∧ p.produced.length ≤ s.room ∧
      (p.produced.length = s.room ∧
          turn call s input finish = .again (s.store (some p.state) input p.produced) (input.drop p.consumed) ∨
        p.produced.length < s.room ∧ turn call s input finish = .done (s.store (some p.state) input p.produced)) := by
  cases hz : s.zstream with
  | none => simp [turn, hz, St.store]
  | some st =>
    cases hcall : call st input s.room finish with
    | none =>
      left
      simp only [turn, h.space, hz, bind_some, hcall, St.store, splice_nil, length_nil, add_zero]
    | some p => exact .inr ⟨st, p, rfl, hcall, hc.produced_le hcall, turn_call hc h hz hcall⟩

/-- the stream after more calls, which were offered these pieces, in order -/
structure Goes (s s' : St z) (offered : List (List UInt8)) : Prop where
  inv : Inv s'
  encode : s'.encode = s.encode
  calls : ∃ new, s'.calls = s.calls ++ new ∧ offered.Sublist (new.map Record.input)

theorem goes_refl (h : Inv s) : Goes s s [] := ⟨h, rfl, [], (append_nil _).symm, Sublist.slnil⟩

theorem Goes.trans {s'' : St z} {a b : List (List UInt8)} (h : Goes s s' a) (h' : Goes s' s'' b) :
    Goes s s'' (a ++ b) := by
  obtain ⟨new, hnew, ha⟩ := h.calls
  obtain ⟨new', hnew', hb⟩ := h'.calls
  refine ⟨h'.inv, h'.encode.trans h.encode, new ++ new', by rw [hnew', hnew, append_assoc], ?_⟩
  rw [map_append]
  exact ha.append hb

theorem Goes.sublist {a b : List (List UInt8)} (h : Goes s s' a) (hb : b.Sublist a) : Goes s s' b := by
  obtain ⟨new, hnew, ha⟩ := h.calls
  exact ⟨h.inv, h.encode, new, hnew, hb.trans ha⟩

theorem goes_store (h : Inv s) (zstream : Option z.State) (input : List UInt8) {out : List UInt8}
    (hout : out.length ≤ s.room) : Goes s (s.store zstream input out) [input] :=
  ⟨h.store zstream input hout, rfl, [⟨s.current.1.length, s.current.2.len, input, out⟩], rfl, Sublist.refl _⟩

theorem loop_goes (hc : Contract call) (fuel : ℕ) (h : Inv s) (input : List UInt8)
    (finish : Bool) : Goes s (loop call fuel s input finish).2 (if fuel = 0 then [] else [input]) := by
  induction fuel generalizing s input with
  | zero => exact goes_refl h
  | succ fuel ih =>
    rw [loop]
    rcases turn_cases hc h input finish with hturn | ⟨st, p, -, -, hle, ⟨-, hturn⟩ | ⟨-, hturn⟩⟩
    · rw [hturn]
      exact goes_store h _ input (Nat.zero_le _)
    · rw [hturn]
      have hstore := goes_store h (some p.state) input hle
      exact (hstore.trans (ih hstore.inv (input.drop p.consumed))).sublist (sublist_append_left _ _)
    · rw [hturn]
      exact goes_store h _ input hle

/-- the pieces that a call with this return value has offered, at least -/
def offeredBy : Ret → List (List UInt8) → List (List UInt8)
  | .ok, v => v
  | .streamError, v => v.take 1
  | .running, _ => []

theorem Inv.ended (h : Inv s) : Inv ({ s with zstream := none } : St z) :=
  ⟨h.pos, h.bound, h.memory, h.result, h.placed, h.apart⟩

theorem Goes.ended {a : List (List UInt8)} (h : Goes s s' a) : Goes s { s' with zstream := none } a :=
  ⟨h.inv.ended, h.encode, h.calls⟩

theorem take_uInt {piece : List UInt8} (h : piece.length < 2 ^ 32) : piece.take (piece.length % 2 ^ 32) = piece := by
  rw [Nat.mod_eq_of_lt h, take_length]

theorem code_goes (hc : Contract call) (fuel : ℕ) (h : Inv s) (hv : ∀ piece ∈ v, piece.length < 2 ^ 32)
    (finish : Bool) :
    Goes s (code call fuel s v finish).2 (offeredBy (code call fuel s v finish).1 v) := by
  induction v generalizing s with
  | nil => exact goes_refl h
  | cons piece v ih =>
    have hpiece := take_uInt (hv piece mem_cons_self)
    have hloop := loop_goes hc fuel h piece (finish && v.isEmpty)
    rw [code, hpiece]
    cases fuel with
    | zero => exact hloop
    | succ fuel =>
      cases hr : loop call (fuel + 1) s piece (finish && v.isEmpty) with
      | mk r s' =>
        rw [hr, if_neg fuel.succ_ne_zero] at hloop
        cases r with
        | running => exact hloop.sublist (nil_sublist _)
        | streamError => exact hloop
        | ok =>
          cases v with
          | nil =>
            cases finish with
            | true => exact hloop.ended
            | false => exact hloop
          | cons piece' v =>
            refine (hloop.trans (ih hloop.inv fun x hx => hv x (mem_cons_of_mem _ hx))).sublist ?_
            simp only [isEmpty_cons, Bool.false_eq_true, if_false]
            cases (code call (fuel + 1) s' (piece' :: v) finish).1 with
            | ok => exact Sublist.refl _
            | streamError => exact sublist_append_left _ _
            | running => exact nil_sublist _

theorem loop_exhausts (hc : Contract call) {fuel : ℕ} (h : Inv s) (hloop : loop call fuel s input finish = (.ok, s')) :
    ∃ st rest, s'.zstream = some st ∧ rest <:+ input ∧
      ∀ space p, call st rest space finish = some p → p.consumed = 0 ∧ p.produced = [] := by
  induction fuel generalizing s input with
  | zero => cases hloop
  | succ fuel ih =>
    rw [loop] at hloop
    rcases turn_cases hc h input finish with hturn | ⟨st, p, -, hcall, hle, ⟨-, hturn⟩ | ⟨hspace, hturn⟩⟩
    · rw [hturn] at hloop
      cases hloop
    · rw [hturn] at hloop
      obtain ⟨st', rest, hst, hrest, hno⟩ := ih (h.store (some p.state) input hle) hloop
      exact ⟨st', rest, hst, hrest.trans (drop_suffix _ _), hno⟩
    · rw [hturn] at hloop
      cases hloop
      exact ⟨p.state, input.drop p.consumed, rfl, drop_suffix _ _, fun _ _ hp => hc.exhausted hcall hspace hp⟩

/-! ## Return -/

/-- with enough fuel the outcome is always the same, and is one of these -/
def Settles {α : Type} (f : ℕ → α) (P : α → Prop) : Prop := ∃ a n, P a ∧ ∀ fuel, n ≤ fuel → f fuel = a

variable {α β : Type} {P : α → Prop} {Q : β → Prop}

theorem settles_const {a : α} (h : P a) : Settles (fun _ => a) P := ⟨a, 0, h, fun _ _ => rfl⟩

theorem Settles.bind {f : ℕ → α} (h : Settles f P) (g : ℕ → α → β)
    (h' : ∀ n, P (f n) → Settles (fun fuel => g fuel (f n)) Q) : Settles (fun fuel => g fuel (f fuel)) Q := by
  obtain ⟨_, n, ha, hn⟩ := h
  cases hn n le_rfl
  obtain ⟨b, m, hb, hm⟩ := h' n ha
  exact ⟨b, max n m, hb, fun fuel hfuel => by simp only [hn fuel (by omega), ← hm fuel (by omega)]⟩

theorem loop_settles (hc : Contract call) (hf : Finite call) (h : Inv s) (input : List UInt8)
    (finish : Bool) : Settles (fun fuel => loop call fuel s input finish) fun r => r.1 ≠ .running := by
  obtain ⟨pending, hpending⟩ := hf
  -- by what zlib still has to produce; a turn that is not the last takes at least one byte of it
  generalize hm : (s.zstream.elim 0 fun st => pending st input finish) = m
  induction m using Nat.strong_induction_on generalizing s input with
  | _ m ih =>
    have hroom : 0 < s.room := Nat.sub_pos_of_lt h.opened.2
    have hlast : ∀ r, (∀ fuel, loop call (fuel + 1) s input finish = r) → r.1 ≠ .running →
        Settles (fun fuel => loop call fuel s input finish) fun r => r.1 ≠ .running := by
      intro r hr hne
      refine ⟨r, 1, hne, fun fuel hfuel => ?_⟩
      obtain ⟨k, rfl⟩ := Nat.exists_eq_add_of_le' hfuel
      exact hr k
    rcases turn_cases hc h input finish with hturn | ⟨st, p, hst, hcall, hle, ⟨hfull, hturn⟩ | ⟨-, hturn⟩⟩
    · exact hlast (.streamError, _) (fun fuel => by rw [loop, hturn]) (by simp)
    · have hless := hpending hcall
      rw [hst] at hm
      simp only [elim_some] at hm
      obtain ⟨r, n, hr, hn⟩ := ih (pending p.state (input.drop p.consumed) finish) (by omega)
        (h.store (some p.state) input hle) (input.drop p.consumed) rfl
      refine ⟨r, n + 1, hr, fun fuel hfuel => ?_⟩
      obtain ⟨k, rfl⟩ := Nat.exists_eq_add_of_le' (Nat.one_le_of_lt hfuel)
      rw [← hn k (by omega)]
      simp only [loop, hturn]
    · exact hlast (.ok, _) (fun fuel => by rw [loop, hturn]) (by simp)

theorem code_settles (hc : Contract call) (hf : Finite call) (h : Inv s) (hv : ∀ piece ∈ v, piece.length < 2 ^ 32)
    (finish : Bool) : Settles (fun fuel => code call fuel s v finish) fun r => r.1 ≠ .running := by
  induction v generalizing s with
  | nil => exact settles_const (by simp)
  | cons piece v ih =>
    simp only [code, take_uInt (hv piece mem_cons_self)]
    refine (loop_settles hc hf h piece (finish && v.isEmpty)).bind (fun fuel r => match r with
      | (.ok, s') => if v.isEmpty then (Ret.ok, if finish then { s' with zstream := none } else s')
          else code call fuel s' v finish
      | r => r) fun n hr => ?_
    have hinv := (loop_goes hc n h piece (finish && v.isEmpty)).inv
    generalize loop call n s piece (finish && v.isEmpty) = r at hr hinv
    rcases r with ⟨_ | _ | _, s'⟩
    · cases v with
      | nil => exact settles_const (by simp)
      | cons piece' v => exact ih hinv fun x hx => hv x (mem_cons_of_mem _ hx)
    · exact settles_const (by simp)
    · exact absurd rfl hr

/-! ## Whole sessions -/

/-- what is assumed of both functions of zlib -/
structure Library.Sound (z : Library) : Prop where
  deflate : Contract z.deflate
  inflate : Contract z.inflate

/-- the function of zlib that is called -/
def St.zlib (s : St z) : Call z.State := if s.encode then z.deflate else z.inflate

theorem write_eq (fuel : ℕ) (s : St z) (v : List (List UInt8)) : write fuel s v = code s.zlib fuel s v false := by
  unfold write St.zlib
  split_ifs <;> rfl

theorem flush_eq (fuel : ℕ) (s : St z) : flush fuel s = code s.zlib fuel s [[]] true := by
  unfold flush St.zlib
  split_ifs <;> rfl

theorem Library.Sound.zlib (hz : z.Sound) (s : St z) : Contract s.zlib := by
  unfold St.zlib
  split_ifs
  · exact hz.deflate
  · exact hz.inflate

theorem write_goes (hz : z.Sound) (fuel : ℕ) (h : Inv s)
    (hv : ∀ piece ∈ v, piece.length < 2 ^ 32) : Goes s (write fuel s v).2 (offeredBy (write fuel s v).1 v) := by
  rw [write_eq]
  exact code_goes (hz.zlib s) fuel h hv false

variable {writes : List (List (List UInt8))}

theorem session_goes (hz : z.Sound) (fuel : ℕ) (h : Inv s) (hw : ∀ w ∈ writes, ∀ piece ∈ w, piece.length < 2 ^ 32) :
    Goes s (session fuel s writes).2 (zipWith offeredBy (session fuel s writes).1 writes).flatten := by
  induction writes generalizing s with
  | nil =>
    rw [session, flush_eq]
    exact (code_goes (hz.zlib s) fuel h (by simp) true).sublist (by simp)
  | cons w writes ih =>
    have hwrite := write_goes hz fuel h (hw w mem_cons_self)
    have hrest := ih hwrite.inv fun w' hw' => hw w' (mem_cons_of_mem _ hw')
    rw [session]
    split_ifs with hr
    · rw [hr] at hwrite
      exact hwrite
    · exact hwrite.trans hrest

theorem offered_all {rets : List Ret} (hlen : writes.length ≤ rets.length)
    (hret : Ret.running ∉ rets) (h : (∀ w ∈ writes, w.length = 1) ∨ ∀ r ∈ rets, r = .ok) :
    (zipWith offeredBy rets writes).flatten = writes.flatten := by
  induction writes generalizing rets with
  | nil => simp
  | cons w writes ih =>
    cases rets with
    | nil => simp at hlen
    | cons r rets =>
      have hone : offeredBy r w = w := by
        rcases h with h | h
        · have hw := h w mem_cons_self
          cases r with
          | ok => rfl
          | streamError => exact take_of_length_le hw.le
          | running => exact absurd mem_cons_self hret
        · rw [h r mem_cons_self]
          rfl
      have hrest := ih (Nat.le_of_succ_le_succ hlen) (fun hmem => hret (mem_cons_of_mem _ hmem))
        (h.imp (fun h w' hw' => h w' (mem_cons_of_mem _ hw')) fun h r' hr' => h r' (mem_cons_of_mem _ hr'))
      rw [zipWith_cons_cons, flatten_cons, flatten_cons, hone, hrest]

theorem session_length (fuel : ℕ) (s : St z) (writes : List (List (List UInt8)))
    (h : Ret.running ∉ (session fuel s writes).1) : (session fuel s writes).1.length = writes.length + 1 := by
  induction writes generalizing s with
  | nil => rfl
  | cons w writes ih =>
    rw [session] at h ⊢
    split_ifs at h ⊢
    · exact absurd (mem_singleton_self _) h
    · have hrest := ih (write fuel s w).2 fun hmem => h (mem_cons_of_mem _ hmem)
      rw [length_cons, hrest, length_cons]

theorem session_settles (hz : z.Sound) (hd : Finite z.deflate) (hi : Finite z.inflate) (h : Inv s)
    (hw : ∀ w ∈ writes, ∀ piece ∈ w, piece.length < 2 ^ 32) :
    Settles (fun fuel => session fuel s writes) fun r => Ret.running ∉ r.1 := by
  have hf (s : St z) : Finite s.zlib := by
    unfold St.zlib
    split_ifs
    · exact hd
    · exact hi
  induction writes generalizing s with
  | nil =>
    simp only [session, flush_eq]
    exact (code_settles (hz.zlib s) (hf s) h (by simp) true).bind (fun _ r => ([r.1], r.2)) fun n hr =>
      settles_const (by simpa using Ne.symm hr)
  | cons w writes ih =>
    have hv := hw w mem_cons_self
    have hwrite := code_settles (hz.zlib s) (hf s) h hv false
    simp only [← write_eq] at hwrite
    refine hwrite.bind (fun fuel r =>
      if r.1 = .running then ([.running], r.2)
        else (r.1 :: (session fuel r.2 writes).1, (session fuel r.2 writes).2)) fun n hr => ?_
    simp only [if_neg hr]
    exact (ih (write_goes hz n h hv).inv fun w' hw' => hw w' (mem_cons_of_mem _ hw')).bind
      (fun _ r' => ((write n s w).1 :: r'.1, r'.2)) fun m hr' => settles_const (by simpa using ⟨Ne.symm hr, hr'⟩)

/-- **Lossless buffering.** -/
theorem zlib_lossless (z : Library) (hz : z.Sound) (encode : Bool) (buffSize : ℕ) (hpos : 1 ≤ buffSize)
    (hbound : buffSize < 2 ^ 32) (writes : List (List (List UInt8)))
    (hw : ∀ w ∈ writes, ∀ piece ∈ w, piece.length < 2 ^ 32) :
    (∀ fuel, Lossless (session fuel (create z encode buffSize) writes).2) ∧
    (∀ fuel, Ret.running ∉ (session fuel (create z encode buffSize) writes).1 →
      ((∀ w ∈ writes, w.length = 1) ∨ ∀ r ∈ (session fuel (create z encode buffSize) writes).1, r = .ok) →
        writes.flatten.Sublist ((session fuel (create z encode buffSize) writes).2.calls.map Record.input)) ∧
    (Finite z.deflate → Finite z.inflate →
      Settles (fun fuel => session fuel (create z encode buffSize) writes) fun r => Ret.running ∉ r.1) := by
  have h := inv_create z encode hpos hbound
  refine ⟨fun fuel => (session_goes hz fuel h hw).inv.lossless, fun fuel hret hone => ?_,
    fun hd hi => session_settles hz hd hi h hw⟩
  obtain ⟨new, hnew, hsub⟩ := (session_goes hz fuel h hw).calls
  rw [offered_all (by rw [session_length fuel _ writes hret]; omega) hret hone] at hsub
  have hcalls : (session fuel (create z encode buffSize) writes).2.calls = new := hnew
  rwa [hcalls]

variable (early f : List UInt8 → List UInt8)

/-- a zlib that gives `early` of its input as soon as it has it and all of `f` at the end; what does not fit is kept for
the next call -/
def keeping : Call (List UInt8 × ℕ) := fun st input space finish =>
  let out := ((if finish then f (st.1 ++ input) else early (st.1 ++ input)).drop st.2).take space
  some ⟨(st.1 ++ input, st.2 + out.length), input.length, out⟩

theorem keeping_contract : Contract (keeping early f) where
  consumed_le h := by cases h; exact le_rfl
  produced_le h := by cases h; exact length_take_le _ _
  exhausted h hlt space' p' h' := by
    cases h
    cases h'
    simp only [length_take, length_drop, drop_length, append_nil, length_nil, true_and] at hlt ⊢
    rw [drop_of_length_le (by omega), take_nil]

def abc : List UInt8 := (replicate 8 [97, 98, 99]).flatten

/-- what `compress` of zlib gives for it -/
def abcZlib : List UInt8 := [0x78, 0x9c, 0x4b, 0x4c, 0x4a, 0x4e, 0xc4, 0x86, 0x00, 0x72, 0xe0, 0x09, 0x31]

/-- `deflate` of that text, with the two bytes of the header first; other inputs are stored behind a byte -/
def deflateAbc : Call (List UInt8 × ℕ) :=
  keeping (fun bs => if bs = [] then [] else [0x78, 0x9c]) fun bs => if bs = abc then abcZlib
  else 0x78 :: 0x9c :: 0 :: bs

def inflateAbc : Call (List UInt8 × ℕ) := keeping (fun _ => []) fun c => if c = abcZlib then abc else c.drop 3

def exampleZlib : Library := ⟨List UInt8 × ℕ, fun _ => ([], 0), deflateAbc, inflateAbc⟩

/-- eight times abc in two writes, with buffers of four bytes; and back -/
theorem zlib_lossless_abc : exampleZlib.Sound ∧
    Lossless (session 9 (create exampleZlib true 4) [[abc.take 12, (abc.drop 12).take 6], [abc.drop 18]]).2 ∧
    (session 9 (create exampleZlib true 4) [[abc.take 12, (abc.drop 12).take 6], [abc.drop 18]]).2.getResult = abcZlib ∧
    (session 9 (create exampleZlib false 4) [[abcZlib]]).2.getResult = abc := by
  have hz : exampleZlib.Sound :=
    ⟨show Contract deflateAbc from keeping_contract _ _, show Contract inflateAbc from keeping_contract _ _⟩
  exact ⟨hz, (zlib_lossless exampleZlib hz true 4 (by decide) (by decide) _ (by decide)).1 9, by decide, by decide⟩

/-! ## The loop as a whole -/

/-- a zlib that says at once what comes out in all, call by call: it takes its input and keeps what does not fit -/
def atOnce (Z : Zlib) : Call (Z.State × List UInt8) := fun st input space finish =>
  (Z.feed st.1 input finish).map fun r => ⟨(r.1, (st.2 ++ r.2).drop space), input.length, (st.2 ++ r.2).take space⟩

/-- after an input, nothing more comes out without another one -/
def Quiescent (Z : Zlib) : Prop :=
  ∀ {st input finish st' out}, Z.feed st input finish = some (st', out) → Z.feed st' [] finish = some (st', [])

theorem atOnce_contract (hZ : Quiescent Z) : Contract (atOnce Z) where
  consumed_le h := by
    obtain ⟨r, -, rfl⟩ := map_eq_some_iff.1 h
    exact le_rfl
  produced_le h := by
    obtain ⟨r, -, rfl⟩ := map_eq_some_iff.1 h
    exact length_take_le _ _
  exhausted h hlt space' p' h' := by
    obtain ⟨⟨st', out⟩, hfeed, rfl⟩ := map_eq_some_iff.1 h
    obtain ⟨r', hfeed', rfl⟩ := map_eq_some_iff.1 h'
    simp only [drop_length] at hfeed' hlt ⊢
    rw [hZ hfeed] at hfeed'
    cases hfeed'
    rw [length_take] at hlt
    rw [drop_of_length_le (by omega)]
    simp

theorem Buff.length_used {b : Buff} {n : ℕ} (h : b.base.length = n ∧ b.len ≤ n) : b.used.length = b.len := by
  rw [used, length_take]
  omega

/-- both functions are the same zlib -/
abbrev atOnceLibrary (Z : Zlib) : Library := ⟨Z.State × List UInt8, fun _ => (Z.init, []), atOnce Z, atOnce Z⟩

/-- the used parts of the stream's buffers are those of the loop as a whole -/
structure Shows {Z : Zlib} (s : St (atOnceLibrary Z)) (buffs : List (List UInt8)) : Prop where
  inv : Inv s
  size : s.buffSize = buffSize
  view : s.buffs.map used = buffs

section

variable {s : St (atOnceLibrary Z)} {buffs : List (List UInt8)} {st st' : Z.State} {kept out : List UInt8}

theorem Shows.current_eq (h : Shows s buffs) : current buffs = (s.current.1.map used, s.current.2.used) := by
  unfold current St.current
  rw [← h.view, getLast?_map]
  cases hlast : s.buffs.getLast? with
  | none => rfl
  | some last =>
    have hlen := length_used (h.inv.memory last (mem_of_getLast? hlast))
    simp only [map_some, hlen, h.size]
    split_ifs
    · rw [map_dropLast]
    · rfl

theorem Shows.fits (h : Shows s buffs) : Fits buffs := by
  intro buff hbuff
  rw [← h.view] at hbuff
  obtain ⟨b, hb, rfl⟩ := mem_map.1 hbuff
  rw [length_used (h.inv.memory b hb), ← h.size]
  exact (h.inv.memory b hb).2

theorem Shows.store (h : Shows s buffs) (zstream : Option (atOnceLibrary Z).State) (input : List UInt8)
    (hout : out.length ≤ s.room) :
    Shows (s.store zstream input out) ((current buffs).1 ++ [(current buffs).2 ++ out]) := by
  refine ⟨h.inv.store zstream input hout, h.size, ?_⟩
  rw [h.current_eq, St.store, map_append, map_singleton, h.inv.used_store]

theorem loop_deliver (hZ : Quiescent Z) {fuel : ℕ} (h : Shows s buffs) (hst : s.zstream = some (st, kept))
    (hfeed : Z.feed st input finish = some (st', out)) (hfuel : (kept ++ out).length < fuel) :
    ∃ s', loop (atOnce Z) fuel s input finish = (.ok, s') ∧ s'.zstream = some (st', []) ∧
      Shows s' (deliver fuel buffs (kept ++ out)) := by
  induction fuel generalizing s st kept out input buffs with
  | zero => omega
  | succ fuel ih =>
    have hcall : atOnce Z (st, kept) input s.room finish =
        some ⟨(st', (kept ++ out).drop s.room), input.length, (kept ++ out).take s.room⟩ := by
      rw [atOnce, hfeed]
      rfl
    have hroom : buffSize - (current buffs).2.length = s.room := by
      rw [h.current_eq,
        length_used (h.inv.opened.1.memory s.current.2 (mem_append_right _ (mem_singleton_self _))), ← h.size]
      rfl
    have hpos : 0 < s.room := Nat.sub_pos_of_lt h.inv.opened.2
    have hstore := fun zstream => h.store zstream input (length_take_le s.room (kept ++ out))
    simp only [deliver, hroom]
    rcases turn_call (z := atOnceLibrary Z) (atOnce_contract hZ) h.inv hst hcall with ⟨hfull, hturn⟩ | ⟨hless, hturn⟩
    · -- what is kept goes to the next buffer, without any input
      dsimp only at hfull hturn
      rw [drop_length] at hturn
      have hdrop : ((kept ++ out).drop s.room ++ []).length < fuel := by
        rw [append_nil, length_drop]
        rw [length_take] at hfull
        omega
      obtain ⟨s', hloop, hrest⟩ := ih (hstore _) rfl (hZ hfeed) hdrop
      rw [append_nil] at hrest
      refine ⟨s', ?_, ?_⟩
      · simp only [loop, hturn]
        exact hloop
      · rw [if_pos (by omega)]
        exact hrest
    · dsimp only at hless hturn
      rw [if_neg (by omega)]
      refine ⟨_, by simp only [loop, hturn]; rfl, ?_, hstore _⟩
      rw [length_take] at hless
      rw [drop_of_length_le (by omega)]
      rfl

theorem loop_refused (fuel : ℕ) (hst : s.zstream = some (st, kept)) (hfeed : Z.feed st input finish = none) :
    ∃ s', loop (atOnce Z) (fuel + 1) s input finish = (.streamError, s') := by
  have hcall : ∀ space, atOnce Z (st, kept) input space finish = none := fun space => by
    rw [atOnce, hfeed]
    rfl
  simp [loop, turn, hst, hcall]

end

/-- how the calls end, and what they leave, for what `process` gives -/
def EndsAs {Z : Zlib} (finish : Bool) (r : Ret × St (atOnceLibrary Z)) : Option (ZlibStream Z) → Prop
  | none => r.1 = .streamError
  | some st => r.1 = .ok ∧ Shows r.2 st.buffs ∧ (finish = false → r.2.zstream = some (st.zstream, []))

/-- **Loop by loop.** -/
theorem code_process (hZ : Quiescent Z) (hv : ∀ piece ∈ v, piece.length < 2 ^ 32) (finish : Bool) (st : ZlibStream Z) :
    ∃ n, ∀ fuel, n ≤ fuel → ∀ s : St (atOnceLibrary Z), Shows s st.buffs → s.zstream = some (st.zstream, []) →
      EndsAs finish (code (atOnce Z) fuel s v finish) (st.process finish v) := by
  induction v generalizing st with
  | nil => exact ⟨0, fun fuel _ s h hst => ⟨rfl, h, fun _ => hst⟩⟩
  | cons piece v ih =>
    have hpiece := take_uInt (hv piece mem_cons_self)
    cases hfeed : Z.feed st.zstream piece (finish && v.isEmpty) with
    | none =>
      refine ⟨1, fun fuel hfuel s h hst => ?_⟩
      obtain ⟨fuel, rfl⟩ : ∃ n, fuel = n + 1 := ⟨fuel - 1, by omega⟩
      obtain ⟨s', hloop⟩ := loop_refused fuel hst hfeed
      simp only [process, hfeed, code, hpiece, hloop]
      rfl
    | some r =>
      rcases r with ⟨zstream, out⟩
      obtain ⟨n, hn⟩ := ih (fun x hx => hv x (mem_cons_of_mem _ hx))
        ⟨zstream, deliver (out.length + 1) st.buffs out⟩
      refine ⟨max n (out.length + 1), fun fuel hfuel s h hst => ?_⟩
      have hfuel' : out.length < fuel := by omega
      obtain ⟨s', hloop, hst', hshows⟩ := loop_deliver hZ h hst hfeed hfuel'
      rw [nil_append, deliver_fuel h.fits hfuel' (Nat.lt_succ_self _)] at hshows
      simp only [process, hfeed, code, hpiece, hloop]
      cases v with
      | nil =>
        cases finish with
        | true => exact ⟨rfl, ⟨hshows.inv.ended, hshows.size, hshows.view⟩, fun hf => by cases hf⟩
        | false => exact ⟨rfl, hshows, fun _ => hst'⟩
      | cons piece' v => exact hn fuel (by omega) s' hshows hst'

/-- what comes out is the input -/
def plain : Zlib := ⟨Unit, (), fun st input _ => some (st, input)⟩

theorem code_process_plain :
    ∃ n, EndsAs true (code (atOnce plain) n (create (atOnceLibrary plain) true buffSize) [[1], [2]] true)
    (some ⟨(), [[1, 2]]⟩) := by
  obtain ⟨n, h⟩ := code_process (v := [[1], [2]]) (fun h => by cases h; rfl) (by decide) true (ZlibStream.create plain)
  exact ⟨n, h n le_rfl _ ⟨inv_create _ _ (by decide) (by decide), rfl, rfl⟩ rfl⟩

end CoServer.Stream.ZlibCalls
