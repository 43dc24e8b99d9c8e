/-
`ZlibStream` (`zlib_stream.cpp`): a stream that is written to and whose output is collected in buffers of one size.

zlib is a parameter, one `Zlib` for `deflate` and one for `inflate`: for an input and a flush mode it says what comes
out in all, or that the call gives `Z_STREAM_ERROR`. By its documentation a call takes input and gives output until the
one is used up or the other has no room, so the loop `while(avail_out == 0)` moves what comes out to the buffers. The
array made of them has the cursor at its END (`getByteArray_holds`).
-/
import CoServer.ByteArray.Buffers
import CoServer.ByteArray.Cursor

namespace CoServer.Stream

open List
open CoServer.ByteArray (Fault)

/-- `deflate` or `inflate` -/
structure Zlib where
  State : Type
  init : State
  /-- the state and the output for an input, the last one or not; none for `Z_STREAM_ERROR` -/
  feed : State → List UInt8 → Bool → Option (State × List UInt8)

structure ZlibStream (z : Zlib) where
  zstream : z.State
  buffs : List (List UInt8)

namespace ZlibStream

variable {z : Zlib} (st : ZlibStream z)

/-- `create`, with the default buffer size -/
def create (z : Zlib) : ZlibStream z := ⟨z.init, []⟩

def buffSize : ℕ := 4096

/-- the buffers before the one that is stored into, and that one: the last if there is room, otherwise a new one -/
def current (buffs : List (List UInt8)) : List (List UInt8) × List UInt8 :=
  match buffs.getLast? with
  | none => (buffs, [])
  | some last => if last.length ≠ buffSize then (buffs.dropLast, last) else (buffs, [])

/-- the loop `do { … } while(avail_out == 0)` -/
def deliver : ℕ → List (List UInt8) → List UInt8 → List (List UInt8)
  | 0, buffs, _ => buffs
  | fuel + 1, buffs, out =>
    let room := buffSize - (current buffs).2.length
    let buffs' := (current buffs).1 ++ [(current buffs).2 ++ out.take room]
    if room - (out.take room).length = 0 then deliver fuel buffs' (out.drop room) else buffs'

/-- `encode` and `decode`: none for `Z_STREAM_ERROR`, otherwise the stream after `Z_OK` -/
def process (st : ZlibStream z) (finish : Bool) : List (List UInt8) → Option (ZlibStream z)
  | [] => some st
  | v :: vs =>
    match z.feed st.zstream v (finish && vs.isEmpty) with
    | none => none
    | some (zstream, out) => process ⟨zstream, deliver (out.length + 1) st.buffs out⟩ finish vs

/-- `write(ByteArray::ptr ba, size_t length)` with the length -1 -/
def write (ba : ByteArray) : Except Fault (Option (ZlibStream z)) :=
  match ba.getReadBuffers (2 ^ 64 - 1) with
  | .error e => .error e
  | .ok iovs => .ok (st.process false (iovs.map (ByteArray.piece ba.nodes)))

def flush : Option (ZlibStream z) := st.process true [[]]

def getByteArray : Except Fault ByteArray := st.buffs.foldlM (fun ba buff => ba.write buff) (ByteArray.make 4096)

/-! ## Buffers -/

/-- no buffer has more than its size -/
def Fits (buffs : List (List UInt8)) : Prop := ∀ buff ∈ buffs, buff.length ≤ buffSize

theorem current_spec {buffs : List (List UInt8)} (h : Fits buffs) :
    (current buffs).1.flatten ++ (current buffs).2 = buffs.flatten ∧ Fits (current buffs).1 ∧
      (current buffs).2.length < buffSize := by
  unfold current
  cases hlast : buffs.getLast? with
  | none => exact ⟨by simp, h, show 0 < buffSize by decide⟩
  | some last =>
    have hsplit : buffs.dropLast ++ [last] = buffs := dropLast_append_getLast? last hlast
    by_cases hfull : last.length ≠ buffSize
    · simp only [if_pos hfull]
      refine ⟨?_, fun buff hmem => h buff (mem_of_mem_dropLast hmem), ?_⟩
      · conv_rhs => rw [← hsplit]
        simp
      · have := h last (mem_of_getLast? hlast)
        omega
    · simp only [if_neg hfull]
      exact ⟨by simp, h, show 0 < buffSize by decide⟩

theorem deliver_flatten {fuel : ℕ} {buffs : List (List UInt8)} {out : List UInt8} (h : Fits buffs)
    (hfuel : out.length < fuel) :
    (deliver fuel buffs out).flatten = buffs.flatten ++ out ∧ Fits (deliver fuel buffs out) := by
  induction fuel generalizing buffs out with
  | zero => omega
  | succ fuel ih =>
    obtain ⟨hflat, hfits, hroom⟩ := current_spec h
    rw [deliver]
    generalize (current buffs).1 = front at hflat hfits ⊢
    generalize (current buffs).2 = last at hflat hroom ⊢
    have hnew : Fits (front ++ [last ++ out.take (buffSize - last.length)]) := by
      refine forall_mem_append.2 ⟨hfits, forall_mem_singleton.2 ?_⟩
      rw [length_append, length_take]
      omega
    have hbytes : (front ++ [last ++ out.take (buffSize - last.length)]).flatten =
        buffs.flatten ++ out.take (buffSize - last.length) := by
      rw [flatten_append, flatten_singleton, ← append_assoc, hflat]
    split_ifs with hmore
    · -- the buffer is full, and the loop goes on
      rw [length_take] at hmore
      obtain ⟨h1, h2⟩ := ih hnew (show (out.drop (buffSize - last.length)).length < fuel by rw [length_drop]; omega)
      refine ⟨?_, h2⟩
      rw [h1, hbytes, append_assoc, take_append_drop]
    · rw [length_take] at hmore
      refine ⟨?_, hnew⟩
      rw [hbytes, take_of_length_le (by omega)]

theorem deliver_fuel {fuel fuel' : ℕ} {buffs : List (List UInt8)} {out : List UInt8} (h : Fits buffs)
    (hfuel : out.length < fuel) (hfuel' : out.length < fuel') : deliver fuel buffs out = deliver fuel' buffs out := by
  induction fuel generalizing fuel' buffs out with
  | zero => omega
  | succ fuel ih =>
    obtain ⟨fuel', rfl⟩ : ∃ n, fuel' = n + 1 := ⟨fuel' - 1, by omega⟩
    obtain ⟨-, hfits, hroom⟩ := current_spec h
    rw [deliver, deliver]
    split_ifs with hmore
    · rw [length_take] at hmore
      refine ih (fun buff hmem => ?_) (by rw [length_drop]; omega) (by rw [length_drop]; omega)
      rcases mem_append.1 hmem with hmem | hmem
      · exact hfits buff hmem
      · rw [mem_singleton.1 hmem, length_append, length_take]
        omega
    · rfl

theorem process_fits {st st' : ZlibStream z} {finish : Bool} {pieces : List (List UInt8)} (h : Fits st.buffs)
    (hrun : st.process finish pieces = some st') : Fits st'.buffs := by
  induction pieces generalizing st with
  | nil =>
    cases hrun
    exact h
  | cons v vs ih =>
    rw [process] at hrun
    split at hrun
    · cases hrun
    · next zs out hfeed => exact ih (deliver_flatten h (Nat.lt_add_one out.length)).2 hrun

end ZlibStream

/-! ## Whole inputs -/

/-- all that comes out for these inputs and an empty last one -/
def Zlib.output (z : Zlib) : z.State → List (List UInt8) → Option (List UInt8)
  | st, [] =>
    match z.feed st [] true with
    | none => none
    | some (_, out) => some out
  | st, v :: vs =>
    match z.feed st v false with
    | none => none
    | some (st', out) =>
      match z.output st' vs with
      | none => none
      | some outs => some (out ++ outs)

namespace ZlibStream

variable {z : Zlib}

theorem process_flush (st : ZlibStream z) (h : Fits st.buffs) (pieces : List (List UInt8)) {outs : List UInt8}
    (hout : z.output st.zstream pieces = some outs) :
    ∃ st1 st2, st.process false pieces = some st1 ∧ st1.flush = some st2 ∧
      st2.buffs.flatten = st.buffs.flatten ++ outs ∧
      Fits st2.buffs := by
  induction pieces generalizing st outs with
  | nil =>
    rw [Zlib.output] at hout
    split at hout
    · cases hout
    next zs out hfeed =>
    cases hout
    obtain ⟨h1, h2⟩ := deliver_flatten h (Nat.lt_add_one outs.length)
    exact ⟨st, ⟨zs, deliver (outs.length + 1) st.buffs outs⟩, rfl, by simp [flush, process, hfeed], h1, h2⟩
  | cons v vs ih =>
    rw [Zlib.output] at hout
    split at hout
    · cases hout
    next zs out hfeed =>
    split at hout
    · cases hout
    next outs' hrest =>
    cases hout
    obtain ⟨h1, h2⟩ := deliver_flatten h (Nat.lt_add_one out.length)
    obtain ⟨st1, st2, h3, h4, h5, h6⟩ := ih ⟨zs, deliver (out.length + 1) st.buffs out⟩ h2 hrest
    refine ⟨st1, st2, ?_, h4, ?_, h6⟩
    · simp only [process, Bool.false_and, hfeed]
      exact h3
    · rw [h5, h1, append_assoc]

theorem write_pieces {e : Endian} {ba : ByteArray} {past rest : List UInt8} (h : ByteArray.Holds e ba past rest)
    (hlen : rest.length < 2 ^ 64) (st : ZlibStream z) :
    ∃ pieces : List (List UInt8), pieces.flatten = rest ∧ st.write ba = .ok (st.process false pieces) := by
  obtain ⟨-, f, hrep, hpos, htake⟩ := h
  have hsize := ByteArray.Flat.size_of_take htake
  rw [length_append] at hsize
  obtain ⟨iovs, hbuf, -, hgather⟩ := ByteArray.getReadBuffers_represents hrep (2 ^ 64 - 1)
  refine ⟨iovs.map (ByteArray.piece ba.nodes), ?_, by simp only [write, hbuf]⟩
  calc (iovs.map (ByteArray.piece ba.nodes)).flatten =
    (f.data.drop f.position).take (min (2 ^ 64 - 1) (f.size - f.position)) := by
        rw [← hgather, ByteArray.gather, flatMap_def]
    _ = (f.data.take f.size).drop f.position := by rw [drop_take, min_eq_right (by omega)]
    _ = rest := by rw [htake, hpos, drop_left]

theorem getByteArray_holds {st : ZlibStream z} (h : Fits st.buffs) :
    ∃ ba, st.getByteArray = .ok ba ∧ ByteArray.Holds .big ba st.buffs.flatten [] := by
  have hfold : ∀ (buffs : List (List UInt8)) (past : List UInt8) (ba : ByteArray), Fits buffs →
    ByteArray.Holds .big ba past [] →
      ∃ ba', buffs.foldlM (fun ba buff => ba.write buff) ba = .ok ba' ∧
      ByteArray.Holds .big ba' (past ++ buffs.flatten) [] := by
    intro buffs
    induction buffs with
    | nil =>
      intro past ba hfits hba
      exact ⟨ba, rfl, by simpa using hba⟩
    | cons buff buffs ih =>
      intro past ba hfits hba
      have hlen : buff.length ≤ 4096 := hfits buff mem_cons_self
      obtain ⟨ba1, h1, hba1⟩ := hba.write (show buff.length < 2 ^ 53 by omega)
      obtain ⟨ba2, h2, hba2⟩ := ih _ ba1 (fun b hb => hfits b (mem_cons_of_mem buff hb)) hba1
      refine ⟨ba2, ?_, ?_⟩
      · rw [foldlM_cons, h1]
        exact h2
      · rwa [flatten_cons, ← append_assoc]
  obtain ⟨ba, h1, h2⟩ := hfold st.buffs [] (ByteArray.make 4096) h (ByteArray.holds_make (by norm_num))
  exact ⟨ba, h1, h2⟩

end ZlibStream

end CoServer.Stream
