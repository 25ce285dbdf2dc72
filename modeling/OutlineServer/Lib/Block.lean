import Mathlib.Data.List.Basic

/-!
# Blocks of memory

A `Block` is the bytes from an address on. `read` and `write` are the two sides of `memcpy`; which of
them stay inside the allocation is for the program to check.
-/

abbrev Block := Nat → UInt8

namespace Block

def read (m : Block) (off n : Nat) : List UInt8 := (List.range n).map fun i => m (off + i)

def write (m : Block) (off : Nat) (bs : List UInt8) : Block :=
  fun i => if h : off ≤ i ∧ i - off < bs.length then bs[i - off] else m i

variable (m : Block) (off n k : Nat) (bs : List UInt8)

@[simp] theorem length_read : (m.read off n).length = n := by simp [read]

@[simp] theorem read_zero : m.read off 0 = [] := rfl

theorem read_add : m.read off (n + k) = m.read off n ++ m.read (off + n) k := by
  simp only [read, List.range_add, List.map_append, List.map_map]
  refine congrArg _ (List.map_congr_left fun i _ => ?_)
  simp [Nat.add_assoc]

theorem take_read (h : k ≤ n) : (m.read off n).take k = m.read off k := by
  obtain ⟨d, rfl⟩ := Nat.le.dest h
  rw [read_add, List.take_append_of_le_length (by simp), List.take_of_length_le (by simp)]

theorem drop_read (h : k ≤ n) : (m.read off n).drop k = m.read (off + k) (n - k) := by
  obtain ⟨d, rfl⟩ := Nat.le.dest h
  rw [read_add, List.drop_append_of_le_length (by simp), List.drop_of_length_le (by simp),
    Nat.add_sub_cancel_left]
  rfl

theorem read_congr {m m' : Block} {off off' n : Nat} (h : ∀ i < n, m (off + i) = m' (off' + i)) :
    m.read off n = m'.read off' n :=
  List.map_congr_left fun i hi => h i (List.mem_range.1 hi)

theorem read_write_same : (m.write off bs).read off bs.length = bs := by
  refine List.ext_getElem (by simp) fun i _ h => ?_
  simp [read, write, h]

theorem read_write_before (h : k + n ≤ off) : (m.write off bs).read k n = m.read k n := by
  refine read_congr fun i hi => ?_
  simp only [write]
  rw [dif_neg (by omega)]

theorem read_write_after (h : off + bs.length ≤ k) : (m.write off bs).read k n = m.read k n := by
  refine read_congr fun i hi => ?_
  simp only [write]
  rw [dif_neg (by omega)]

/-- What was in front of the written bytes, and they. -/
theorem read_write_append (h : k ≤ off) :
    (m.write off bs).read k (off - k + bs.length) = m.read k (off - k) ++ bs := by
  rw [read_add, read_write_before _ _ _ _ _ (by omega), Nat.add_sub_of_le h, read_write_same]

/-- Written bytes that are then moved to the front by `k`. -/
theorem read_write_move (h : bs.length = k + n) :
    ((m.write off bs).write off ((m.write off bs).read (off + k) n)).read 0 (off + n) =
      m.read 0 off ++ bs.drop k := by
  have hmoved : (m.write off bs).read (off + k) n = bs.drop k := by
    have hdrop := drop_read (m.write off bs) off (k + n) k (Nat.le_add_right _ _)
    rw [Nat.add_sub_cancel_left, ← h, read_write_same] at hdrop
    exact hdrop.symm
  have hread := read_write_append (m.write off bs) off 0 (bs.drop k) (Nat.zero_le _)
  rw [List.length_drop, h, Nat.add_sub_cancel_left, Nat.sub_zero] at hread
  rw [hmoved, hread, read_write_before _ _ _ _ _ (by omega)]

end Block
