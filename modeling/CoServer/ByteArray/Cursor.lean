/-
A `ByteArray` seen from its cursor: the bytes before it and the bytes still to be read.

Results:
- `Holds.write`: what is written at the end is appended.
- `Holds.read`: a read takes its bytes off `rest`.
- `Holds.setPosition`: the cursor can be put between any two parts of the same bytes.
-/
import CoServer.ByteArray.Flat

namespace CoServer.ByteArray

open CoServer.Core List

/-- byte order `e`, bytes `past ++ rest`, the cursor between them -/
def Holds (e : Endian) (b : ByteArray) (past rest : List UInt8) : Prop :=
  b.endian = e ∧ ∃ f : Flat, Represents b f ∧ f.position = past.length ∧ f.data.take f.size = past ++ rest

variable {e : Endian} {b : ByteArray} {past rest : List UInt8}

theorem Flat.size_of_take {f : Flat} {bs : List UInt8} (h : f.data.take f.size = bs) : f.size = bs.length := by
  rw [← h, length_take, min_eq_left f.size_le]

theorem Holds.size (h : Holds e b past rest) : b.size = past.length + rest.length := by
  obtain ⟨-, f, hr, -, htake⟩ := h
  rw [hr.size, Flat.size_of_take htake, length_append]

theorem Holds.position (h : Holds e b past rest) : b.position = past.length := by
  obtain ⟨-, f, hr, hpos, -⟩ := h
  rw [hr.position, hpos]

theorem Holds.getReadSize (h : Holds e b past rest) : b.getReadSize = rest.length := by
  rw [ByteArray.getReadSize, h.size, h.position, Nat.add_sub_cancel_left]

theorem holds_make {base : ℕ} (hbase : 0 < base) : Holds .big (make base) [] [] :=
  ⟨rfl, Flat.make base hbase, make_represents hbase, rfl, rfl⟩

theorem Holds.setIsLittleEndian (h : Holds e b past rest) (val : Bool) :
    Holds (if val then .little else .big) (b.setIsLittleEndian val) past rest := by
  obtain ⟨-, f, hr, hpos, htake⟩ := h
  exact ⟨rfl, f, ⟨hr.base, hr.chunks, hr.data, hr.root, hr.capacity, hr.position, hr.size, hr.cur⟩, hpos, htake⟩

theorem Holds.write (h : Holds e b past []) {bs : List UInt8} (hbs : bs.length < 2 ^ 53) :
    ∃ b', b.write bs = .ok b' ∧ Holds e b' (past ++ bs) [] := by
  obtain ⟨he, f, hr, hpos, htake⟩ := h
  obtain ⟨b', h1, h2, h3⟩ := write_represents hr hbs
  have hsize : f.size = f.position := by rw [Flat.size_of_take htake, append_nil, hpos]
  have hroom : f.position ≤ (f.reserve (f.position + bs.length)).data.length := by
    have := f.le_length_reserve (f.position + bs.length)
    omega
  refine ⟨b', h1, h3.trans he, f.write bs, h2, ?_, ?_⟩
  · simp [Flat.write, hpos]
  calc (f.write bs).data.take (f.write bs).size
      = (splice (f.reserve (f.position + bs.length)).data f.position bs).take (f.position + bs.length) := by
        simp only [Flat.write, hsize, max_eq_right (Nat.le_add_right f.position bs.length)]
    _ = (f.data ++ List.replicate (Flat.roundUp f.base (f.position + bs.length) - f.data.length) 0).take
      f.position ++ bs :=
        take_add_splice hroom
    _ = past ++ bs ++ [] := by
        rw [take_append_of_le_length (by rw [← hsize]; exact f.size_le), ← hsize, htake, append_nil, append_nil]

theorem Holds.read {bs : List UInt8} (h : Holds e b past (bs ++ rest)) (hbs : bs ≠ []) :
    ∃ b', b.read bs.length = .ok (bs, b') ∧ Holds e b' (past ++ bs) rest := by
  obtain ⟨he, f, hr, hpos, htake⟩ := h
  have hsize := Flat.size_of_take htake
  rw [length_append, length_append] at hsize
  have hle : bs.length ≤ f.size - f.position := by omega
  have hbytes : (f.data.drop f.position).take bs.length = bs := by
    calc (f.data.drop f.position).take bs.length
        = ((f.data.take f.size).drop f.position).take bs.length := by rw [drop_take, take_take, min_eq_left hle]
      _ = bs := by rw [htake, hpos, drop_left, take_left]
  obtain ⟨b', h1, h2, h3⟩ := read_represents hr (length_pos_of_ne_nil hbs) (dif_pos hle)
  rw [hbytes] at h1
  refine ⟨b', h1, h3.trans he, _, h2, ?_, ?_⟩
  · rw [length_append, ← hpos]
  · rw [append_assoc]
    exact htake

theorem Holds.read_throws (h : Holds e b past rest) {n : ℕ} (hn : rest.length < n) : b.read n = .error .outOfRange := by
  unfold ByteArray.read
  rw [if_pos (by rw [h.getReadSize]; exact hn)]

theorem Holds.setPosition (h : Holds e b past rest) {past' rest' : List UInt8} (hsame : past' ++ rest' = past ++ rest) :
    ∃ b', b.setPosition past'.length = .ok b' ∧ Holds e b' past' rest' := by
  obtain ⟨he, f, hr, -, htake⟩ := h
  have hsize := Flat.size_of_take htake
  rw [← hsame, length_append] at hsize
  have hin : past'.length ≤ f.size := by omega
  obtain ⟨b', h1, h2, h3⟩ := setPosition_represents hr (dif_pos (hin.trans f.size_le))
  refine ⟨b', h1, h3.trans he, _, h2, rfl, ?_⟩
  simp only [max_eq_left hin]
  rw [htake, hsame]

theorem Holds.rewind (h : Holds e b past rest) : ∃ b', b.setPosition 0 = .ok b' ∧ Holds e b' [] (past ++ rest) :=
  h.setPosition (nil_append _)

end CoServer.ByteArray
