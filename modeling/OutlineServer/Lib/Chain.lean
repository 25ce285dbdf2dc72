import Mathlib.Data.List.Basic

/-!
# Chained blocks

Key derivations make a stream of blocks, each from the one before it: `chained step i` is the block of number `i`, the
one of number 0 is empty. `chain step len` is the first `len` elements of the stream, so a shorter one is a prefix of a
longer one (`take_chain`).
-/

namespace Chain

variable {α : Type}

def chained (step : Nat → List α → List α) : Nat → List α
  | 0 => []
  | i + 1 => step i (chained step i)

/-- The blocks from number 1 to number `n`. -/
def blocks (step : Nat → List α → List α) (n : Nat) : List α := (List.range n).flatMap fun i => chained step (i + 1)

def chain (step : Nat → List α → List α) (len : Nat) : List α := (blocks step len).take len

variable {step : Nat → List α → List α} {size m n : Nat}

@[simp] theorem blocks_zero : blocks step 0 = [] := rfl

theorem blocks_succ (step : Nat → List α → List α) (n : Nat) :
    blocks step (n + 1) = blocks step n ++ chained step (n + 1) := by
  simp [blocks, List.range_succ]

theorem length_blocks (h : ∀ i, (chained step (i + 1)).length = size) : (blocks step n).length = n * size := by
  induction n with
  | zero => simp
  | succ n ih => rw [blocks_succ, List.length_append, ih, h, Nat.succ_mul]

theorem blocks_prefix (h : m ≤ n) : blocks step m <+: blocks step n := by
  induction h with
  | refl => exact List.prefix_rfl
  | @step n _ ih =>
    rw [blocks_succ]
    exact ih.trans (List.prefix_append _ _)

/-- Any number of blocks that are long enough together start with the same elements. -/
theorem take_blocks (h : ∀ i, (chained step (i + 1)).length = size) (hsize : 0 < size) {len : Nat}
    (hlen : len ≤ n * size) : (blocks step n).take len = chain step len := by
  have hlen' : len ≤ (blocks step len).length := by
    rw [length_blocks h]
    exact Nat.le_mul_of_pos_right len hsize
  rcases Nat.le_total n len with hle | hle
  · obtain ⟨t, ht⟩ : blocks step n <+: blocks step len := blocks_prefix hle
    rw [chain, ← ht, List.take_append_of_le_length]
    rwa [length_blocks h]
  · obtain ⟨t, ht⟩ : blocks step len <+: blocks step n := blocks_prefix hle
    rw [chain, ← ht, List.take_append_of_le_length hlen']

/-- Into the block of number `n + 1`. -/
theorem chain_add (h : ∀ i, (chained step (i + 1)).length = size) (hsize : 0 < size) {len : Nat} (hlen : len ≤ size) :
    chain step (n * size + len) = blocks step n ++ (chained step (n + 1)).take len := by
  have hsucc : (n + 1) * size = n * size + size := Nat.succ_mul n size
  rw [← take_blocks h hsize (n := n + 1) (by omega), blocks_succ, List.take_append, length_blocks h,
    List.take_of_length_le (by rw [length_blocks h]; omega), Nat.add_sub_cancel_left]

theorem length_chain (h : ∀ i, (chained step (i + 1)).length = size) (hsize : 0 < size) :
    (chain step n).length = n := by
  rw [chain, List.length_take, length_blocks h]
  exact Nat.min_eq_left (Nat.le_mul_of_pos_right n hsize)

theorem take_chain (h : ∀ i, (chained step (i + 1)).length = size) (hsize : 0 < size) (hle : m ≤ n) :
    (chain step n).take m = chain step m := by
  rw [chain, List.take_take, Nat.min_eq_left hle]
  exact take_blocks h hsize (Nat.le_trans hle (Nat.le_mul_of_pos_right n hsize))

end Chain
