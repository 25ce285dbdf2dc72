import Mathlib.Data.Nat.ModEq
import Mathlib.Logic.Function.Iterate
import Mathlib.Tactic.Ring

/-!
# Little-endian byte counters

`LeCounter.incr` adds one to the number that a list of bytes writes in little-endian order and drops the
carry out of the last byte; `LeCounter.val` is that number. From the zero counter of `n` bytes, `k`
increments give `k % 256 ^ n` (`val_iterate_incr`), so the counters of fewer than `256 ^ n` increments
are distinct (`iterate_incr_inj`) and come round after that many.
-/

namespace LeCounter

def incr : List UInt8 → List UInt8
  | [] => []
  | b :: bs => if b = 255 then 0 :: incr bs else (b + 1) :: bs

def val : List UInt8 → Nat
  | [] => 0
  | b :: bs => b.toNat + 256 * val bs

def zero (n : Nat) : List UInt8 := List.replicate n 0

@[simp] theorem length_incr (bs : List UInt8) : (incr bs).length = bs.length := by
  induction bs with
  | nil => rfl
  | cons b bs ih =>
    simp only [incr]
    split <;> simp [ih]

@[simp] theorem length_iterate_incr (k : Nat) (bs : List UInt8) : (incr^[k] bs).length = bs.length := by
  induction k generalizing bs with
  | zero => rfl
  | succ k ih => rw [Function.iterate_succ_apply, ih, length_incr]

@[simp] theorem length_zero (n : Nat) : (zero n).length = n := List.length_replicate

theorem val_lt (bs : List UInt8) : val bs < 256 ^ bs.length := by
  induction bs with
  | nil => decide
  | cons b bs ih =>
    have hb := b.toNat_lt
    simp only [val, List.length_cons, Nat.pow_succ]
    omega

theorem val_zero (n : Nat) : val (zero n) = 0 := by
  induction n with
  | zero => rfl
  | succ n ih =>
    simp only [zero, List.replicate_succ, val] at ih ⊢
    rw [ih]
    rfl

theorem val_incr (bs : List UInt8) : val (incr bs) = (val bs + 1) % 256 ^ bs.length := by
  induction bs with
  | nil => rfl
  | cons b bs ih =>
    have hlt := val_lt bs
    simp only [incr, List.length_cons, Nat.pow_succ]
    split
    · rename_i hb
      subst hb
      have h255 : (255 : UInt8).toNat = 255 := rfl
      have h0 : (0 : UInt8).toNat = 0 := rfl
      simp only [val, ih, h255, h0]
      rw [show 255 + 256 * val bs + 1 = (val bs + 1) * 256 by omega, Nat.mul_mod_mul_right]
      omega
    · rename_i hb
      have hb' : b.toNat ≠ 255 := fun h => hb (UInt8.toNat_inj.1 h)
      have hlt' := b.toNat_lt
      have hadd : (b + 1).toNat = b.toNat + 1 := by
        rw [UInt8.toNat_add]
        have : (1 : UInt8).toNat = 1 := rfl
        omega
      simp only [val, hadd]
      rw [Nat.mod_eq_of_lt (by omega)]
      omega

theorem val_iterate_incr (bs : List UInt8) (k : Nat) :
    val (incr^[k] bs) = (val bs + k) % 256 ^ bs.length := by
  induction k with
  | zero => exact (Nat.mod_eq_of_lt (val_lt bs)).symm
  | succ k ih =>
    rw [Function.iterate_succ_apply', val_incr, ih, length_iterate_incr, Nat.mod_add_mod, Nat.add_assoc]

theorem val_inj {bs cs : List UInt8} (hl : bs.length = cs.length) (h : val bs = val cs) : bs = cs := by
  induction bs generalizing cs with
  | nil => exact (List.length_eq_zero_iff.1 hl.symm).symm
  | cons b bs ih =>
    obtain _ | ⟨c, cs⟩ := cs
    · cases hl
    have hb := b.toNat_lt
    have hc := c.toNat_lt
    simp only [val] at h
    have hbc : b = c := UInt8.toNat_inj.1 (by omega)
    rw [hbc, ih (by simpa using hl) (by omega)]

theorem val_iterate_zero (n k : Nat) : val (incr^[k] (zero n)) = k % 256 ^ n := by
  rw [val_iterate_incr, val_zero, length_zero, Nat.zero_add]

theorem iterate_incr_inj {n i j : Nat} (hi : i < 256 ^ n) (hj : j < 256 ^ n)
    (h : incr^[i] (zero n) = incr^[j] (zero n)) : i = j := by
  have hv := congrArg val h
  rwa [val_iterate_zero, val_iterate_zero, Nat.mod_eq_of_lt hi, Nat.mod_eq_of_lt hj] at hv

theorem iterate_incr_period (n : Nat) : incr^[256 ^ n] (zero n) = zero n := by
  refine val_inj (by simp) ?_
  rw [val_iterate_zero, val_zero, Nat.mod_self]

end LeCounter
