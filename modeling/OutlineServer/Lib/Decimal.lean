import Mathlib.Algebra.Ring.Int.Defs
import Mathlib.Algebra.Ring.Nat
import OutlineServer.Lib.JsonQuotes

/-!
# Decimal numbers

`ofInt` writes an integer in decimal, `atoi` reads one as the C library does: white space, a sign, digits, and
whatever follows is ignored. Many texts are read as one number; the one that `ofInt` writes is its canonical
text (`atoi_ofInt`).
-/

namespace Decimal

def ofInt : Int → List Char
  | .ofNat n => n.repr.toList
  | .negSucc n => '-' :: (n + 1).repr.toList

/-- `isspace` -/
def isSpace (c : Char) : Bool := c = ' ' ∨ (9 ≤ c.toNat ∧ c.toNat ≤ 13)

def atoiDigits (s : List Char) : Nat := Nat.ofDigitChars 10 (s.takeWhile Char.isDigit) 0

def atoi (s : List Char) : Int :=
  match s.dropWhile isSpace with
  | '-' :: s => -atoiDigits s
  | '+' :: s => atoiDigits s
  | s => atoiDigits s

theorem isDigit_of_mem_repr {n : Nat} {c : Char} (h : c ∈ n.repr.toList) : c.isDigit = true := by
  rw [Nat.toList_repr] at h
  exact Nat.isDigit_of_mem_toDigits (by omega) (by omega) h

theorem atoiDigits_repr (n : Nat) : atoiDigits n.repr.toList = n := by
  have hall : n.repr.toList.takeWhile Char.isDigit = n.repr.toList :=
    List.takeWhile_eq_self_iff.2 fun c hc => isDigit_of_mem_repr hc
  rw [atoiDigits, hall, Nat.toList_repr, Nat.ofDigitChars_ten_toDigits]

theorem digit_le_nine {c : Char} (h : c.isDigit = true) : c.toNat - 48 ≤ 9 := by
  simp only [Char.isDigit, Bool.and_eq_true, decide_eq_true_eq] at h
  have h57 : c.toNat ≤ 57 := UInt32.le_iff_toNat_le.1 h.2
  omega

theorem atoiDigits_lt (s : List Char) : atoiDigits s < 10 ^ s.length := by
  rw [atoiDigits]
  induction s with
  | nil => decide
  | cons c s ih =>
    cases hc : c.isDigit with
    | false =>
      rw [List.takeWhile_cons_of_neg (by simp [hc])]
      exact Nat.pow_pos (by omega)
    | true =>
      have hlen : (s.takeWhile Char.isDigit).length ≤ s.length := (List.takeWhile_prefix _).length_le
      have hmul : 10 ^ (s.takeWhile Char.isDigit).length * (c.toNat - 48) ≤ 10 ^ s.length * 9 :=
        Nat.mul_le_mul (Nat.pow_le_pow_right (by omega) hlen) (digit_le_nine hc)
      have h0 : 10 * 0 + (c.toNat - '0'.toNat) = c.toNat - 48 := by simp
      rw [List.takeWhile_cons_of_pos hc, Nat.ofDigitChars_cons, Nat.ofDigitChars_eq_ofDigitChars_zero, h0,
        List.length_cons, Nat.pow_succ]
      omega

theorem atoi_natAbs_lt (s : List Char) : (atoi s).natAbs < 10 ^ s.length := by
  have hle : ∀ t : List Char, t <:+ s → atoiDigits t < 10 ^ s.length := fun t ht =>
    lt_of_lt_of_le (atoiDigits_lt t) (Nat.pow_le_pow_right (by omega) ht.length_le)
  have hdrop : s.dropWhile isSpace <:+ s := List.dropWhile_suffix _
  unfold atoi
  split
  · rename_i t ht
    simpa using hle t ((List.suffix_cons '-' t).trans (ht ▸ hdrop))
  · rename_i t ht
    simpa using hle t ((List.suffix_cons '+' t).trans (ht ▸ hdrop))
  · simpa using hle _ hdrop

theorem isSpace_of_digit {c : Char} (h : c.isDigit = true) : isSpace c = false := by
  simp only [isSpace, decide_eq_false_iff_not]
  rintro (rfl | ⟨-, hle⟩)
  · cases h
  · have h48 : 48 ≤ c.toNat := by
      simp only [Char.isDigit, Bool.and_eq_true, decide_eq_true_eq] at h
      exact UInt32.le_iff_toNat_le.1 h.1
    omega

theorem atoi_ofInt (n : Int) : atoi (ofInt n) = n := by
  cases n with
  | ofNat n =>
    obtain ⟨c, s, hs, -⟩ := Json.digits_head n
    have hc : c.isDigit = true := isDigit_of_mem_repr (hs ▸ List.mem_cons_self)
    have hspace := isSpace_of_digit hc
    have hdrop : (ofInt (.ofNat n)).dropWhile isSpace = n.repr.toList := by
      rw [ofInt, hs, List.dropWhile_cons_of_neg (by simp [hspace])]
    rw [atoi, hdrop]
    split
    · rename_i h
      rw [h] at hs
      cases hs
      cases hc
    · rename_i h
      rw [h] at hs
      cases hs
      cases hc
    · rw [atoiDigits_repr]
      rfl
  | negSucc n =>
    have hdrop : (ofInt (.negSucc n)).dropWhile isSpace = '-' :: (n + 1).repr.toList := rfl
    rw [atoi, hdrop]
    simp only [atoiDigits_repr]
    rfl

theorem ofInt_injective {m n : Int} (h : ofInt m = ofInt n) : m = n := by
  rw [← atoi_ofInt m, h, atoi_ofInt]

theorem ofInt_ne_nil (n : Int) : ofInt n ≠ [] := by
  cases n with
  | ofNat n =>
    obtain ⟨c, s, hs, -⟩ := Json.digits_head n
    rw [ofInt, hs]
    exact List.cons_ne_nil c s
  | negSucc n => exact List.cons_ne_nil _ _

theorem mem_ofInt {n : Int} {c : Char} (h : c ∈ ofInt n) : c.isDigit = true ∨ c = '-' := by
  cases n with
  | ofNat n => exact .inl (isDigit_of_mem_repr h)
  | negSucc n =>
    rcases List.mem_cons.1 h with rfl | h
    · exact .inr rfl
    · exact .inl (isDigit_of_mem_repr h)

theorem isNumber_ofInt (n : Int) : Json.IsNumber (ofInt n) := by
  refine ⟨?_, fun c hc => ?_⟩
  · cases n with
    | ofNat n => exact Json.isNumber_nat n
    | negSucc n =>
      have h := Json.isNumber_nat (n + 1)
      have hhead : (n + 1).repr.toList.head? ≠ some '-' := fun hm => by
        have hd := isDigit_of_mem_repr (List.mem_of_mem_head? hm)
        cases hd
      rw [Json.isNumber, if_neg hhead] at h
      rw [ofInt, Json.isNumber, List.head?_cons, if_pos rfl]
      exact h
  · rcases mem_ofInt hc with hd | rfl
    · simp [Json.isNumberChar, hd]
    · rfl

theorem plain_ofInt (n : Int) : Json.Plain (ofInt n) := by
  intro c hc
  rcases mem_ofInt hc with hd | rfl
  · exact Json.plain_of_digit hd
  · decide

end Decimal
