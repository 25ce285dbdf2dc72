import OutlineServer.Crypto
import OutlineServer.Jconf

/-!
# Numbers in place of strings (`utils.c`, `jconf.c`)

`ss_itoa` prints an `int` into a static array that has room for integers of 64 bits, from its end to its front. The
config reader gives it an `int64_t`, so a number keeps its value if and only if it is an `int` (`keepsNumber_iff`).
-/

namespace OutlineServer.Servers.Itoa
open Decimal

def INT_DIGITS : Nat := 19

/-- The static array, whose last character is never written. -/
structure Static where
  chars : Text
  length_eq : chars.length = INT_DIGITS + 2
  terminated : chars.drop (INT_DIGITS + 1) = ['\x00']

def Static.zero : Static := ⟨List.replicate (INT_DIGITS + 2) '\x00', rfl, rfl⟩

/-- `'0' + (i % 10)`, for the remainder -/
def digitUp (r : Int) : Char := Char.ofNat (48 + r).toNat

/-- `'0' - (i % 10)` -/
def digitDown (r : Int) : Char := Char.ofNat (48 - r).toNat

/-- The loop that prints the digits, and where it leaves `p`. -/
def digitsLoop (digit : Int → Char) : (p : Nat) → (i : Int) → (buf : Text) → C (Nat × Text)
  | 0, _, _ => .error .bounds
  | p + 1, i, buf =>
    let buf := buf.set p (digit (i.tmod 10))
    if i.tdiv 10 ≠ 0 then digitsLoop digit p (i.tdiv 10) buf else .ok (p, buf)

/-- `*--p = '-'` -/
def putSign : Nat × Text → C (Nat × Text)
  | (0, _) => .error .bounds
  | (p + 1, buf) => .ok (p, buf.set p '-')

/-- `ss_itoa`: where the string starts, and the array. -/
def ss_itoa (buf : Static) (i : Int) : C (Nat × Text) :=
  if 0 ≤ i then digitsLoop digitUp (INT_DIGITS + 1) i buf.chars
  else do
    let r ← digitsLoop digitDown (INT_DIGITS + 1) i buf.chars
    putSign r

variable {digit : Int → Char} {f : Nat → Int} {n p : Nat} {buf : Text}

/-- The digits of `f n`, where `f` is one of the two signs. -/
theorem digitsLoop_spec (hmod : ∀ n, digit ((f n).tmod 10) = Nat.digitChar (n % 10))
    (hdiv : ∀ n, (f n).tdiv 10 = f (n / 10))
    (hzero : ∀ n, f n = 0 ↔ n = 0) (hp : (Nat.toDigits 10 n).length ≤ p) (hbuf : p ≤ buf.length) :
    digitsLoop digit p (f n) buf = .ok (p - (Nat.toDigits 10 n).length,
      buf.take (p - (Nat.toDigits 10 n).length) ++ Nat.toDigits 10 n ++ buf.drop p) := by
  induction p generalizing n buf with
  | zero =>
    have hpos := Nat.length_toDigits_pos (b := 10) (n := n)
    omega
  | succ p ih =>
    have hdrop : (buf.set p (Nat.digitChar (n % 10))).drop p = Nat.digitChar (n % 10) :: buf.drop (p + 1) := by
      rw [List.drop_set, if_neg (Nat.lt_irrefl p), Nat.sub_self, List.drop_eq_getElem_cons (by omega),
        List.set_cons_zero]
    have htake : ∀ k ≤ p, (buf.set p (Nat.digitChar (n % 10))).take k = buf.take k := fun k hk => List.take_set_of_le hk
    rw [digitsLoop]
    simp only [hmod, hdiv]
    by_cases hn : n < 10
    · have hdigits : Nat.toDigits 10 n = [Nat.digitChar (n % 10)] := by
        rw [Nat.toDigits_of_lt_base hn, Nat.mod_eq_of_lt hn]
      have hquot : ¬ f (n / 10) ≠ 0 := not_not.2 ((hzero _).2 (by omega))
      rw [if_neg hquot, hdigits, List.length_singleton, Nat.add_sub_cancel]
      congr 2
      rw [← List.take_append_drop p (buf.set p (Nat.digitChar (n % 10))), hdrop, htake p (Nat.le_refl _),
        List.append_assoc]
      rfl
    · have hdigits : Nat.toDigits 10 n = Nat.toDigits 10 (n / 10) ++ [Nat.digitChar (n % 10)] :=
        Nat.toDigits_of_base_le (by decide) (by omega)
      have hquot : f (n / 10) ≠ 0 := fun h => by
        have := (hzero _).1 h
        omega
      rw [hdigits, List.length_append, List.length_singleton] at hp
      rw [if_pos hquot, ih (by omega) (by rw [List.length_set]; omega), hdrop, htake _ (Nat.sub_le _ _), hdigits,
        List.length_append, List.length_singleton, Nat.add_sub_add_right]
      simp

theorem digitChar_eq : ∀ r < 10, Char.ofNat (48 + r) = Nat.digitChar r := by decide

theorem digitUp_natCast (n : Nat) : digitUp ((n : Int).tmod 10) = Nat.digitChar (n % 10) := by
  have hcast : (48 + (n : Int).tmod 10).toNat = 48 + n % 10 := by
    rw [Int.tmod_eq_emod_of_nonneg (by omega)]
    omega
  rw [digitUp, hcast]
  exact digitChar_eq _ (by omega)

theorem digitDown_neg (n : Nat) : digitDown ((-(n : Int)).tmod 10) = Nat.digitChar (n % 10) := by
  have hcast : (48 - (-(n : Int)).tmod 10).toNat = 48 + n % 10 := by
    rw [Int.neg_tmod, Int.tmod_eq_emod_of_nonneg (by omega)]
    omega
  rw [digitDown, hcast]
  exact digitChar_eq _ (by omega)

/-- The string from a place of the array on. -/
theorem cstr_printed {digits : Text} (buf : Static) (hnul : '\x00' ∉ digits) (hlen : digits.length ≤ INT_DIGITS + 1) :
    cstr ((buf.chars.take (INT_DIGITS + 1 - digits.length) ++ digits ++ buf.chars.drop (INT_DIGITS + 1)).drop
      (INT_DIGITS + 1 - digits.length)) = digits := by
  have hbuf := buf.length_eq
  rw [buf.terminated, List.append_assoc, List.drop_append_of_le_length (by rw [List.length_take]; omega),
    List.drop_take_self, List.nil_append, cstr, List.takeWhile_append_of_pos]
  · simp
  · intro c hc
    exact decide_eq_true fun h => hnul (h ▸ hc)

/-- The array with a string printed at its end. -/
def Static.print (buf : Static) (digits : Text) (hlen : digits.length ≤ INT_DIGITS + 1) : Static where
  chars := buf.chars.take (INT_DIGITS + 1 - digits.length) ++ digits ++ buf.chars.drop (INT_DIGITS + 1)
  length_eq := by
    have hbuf := buf.length_eq
    simp only [List.length_append, List.length_take, List.length_drop]
    omega
  terminated := by
    have hbuf := buf.length_eq
    rw [List.drop_append, List.drop_of_length_le (by rw [List.length_append, List.length_take]; omega), List.nil_append,
      buf.terminated]
    have hzero : INT_DIGITS + 1 - (buf.chars.take (INT_DIGITS + 1 - digits.length) ++ digits).length = 0 := by
      rw [List.length_append, List.length_take]
      omega
    rw [hzero, List.drop_zero]

theorem set_sign {A D R : List Char} (hp : p < A.length) :
    (A.take (p + 1) ++ D ++ R).set p '-' = A.take p ++ '-' :: D ++ R := by
  have htake : A.take (p + 1) = A.take p ++ [A[p]] := List.take_succ_eq_append_getElem hp
  rw [htake, List.append_assoc, List.append_assoc, List.set_append_right p '-' (by rw [List.length_take]; omega)]
  have hzero : p - (A.take p).length = 0 := by
    rw [List.length_take]
    omega
  rw [hzero, List.append_assoc]
  rfl

theorem length_toDigits_le {n : Nat} (h : n ≤ 2 ^ 31) : (Nat.toDigits 10 n).length ≤ 10 := by
  rw [Nat.length_toDigits_le_iff (by decide) (by decide)]
  exact Nat.lt_of_le_of_lt h (by decide)

theorem nul_not_mem_toDigits (n : Nat) : '\x00' ∉ Nat.toDigits 10 n := by
  intro h
  exact absurd (Nat.isDigit_of_mem_toDigits (by decide) (by decide) h) (by decide)

/-- Every `int` is printed, whatever the array holds. -/
theorem ss_itoa_spec (buf : Static) {i : Int} (hlow : -2 ^ 31 ≤ i) (hhigh : i < 2 ^ 31) :
    ∃ p, ∃ buf' : Static, ss_itoa buf i = .ok (p, buf'.chars) ∧ cstr (buf'.chars.drop p) = ofInt i := by
  have hbuf := buf.length_eq
  unfold INT_DIGITS at hbuf
  cases i with
  | ofNat n =>
    rw [Int.ofNat_eq_natCast] at hlow hhigh
    have hlen := length_toDigits_le (n := n) (by omega)
    have hroom : (Nat.toDigits 10 n).length ≤ INT_DIGITS + 1 := by
      unfold INT_DIGITS
      omega
    refine ⟨INT_DIGITS + 1 - (Nat.toDigits 10 n).length, buf.print _ hroom, ?_, ?_⟩
    · show ss_itoa buf (n : Int) = _
      rw [ss_itoa, if_pos (Int.natCast_nonneg n)]
      refine digitsLoop_spec (f := fun n => (n : Int)) digitUp_natCast (fun n => ?_) (fun n => by omega) hroom ?_
      · rw [Int.tdiv_eq_ediv_of_nonneg (by omega)]
        omega
      · unfold INT_DIGITS
        omega
    · show _ = n.repr.toList
      rw [Nat.toList_repr]
      exact cstr_printed buf (nul_not_mem_toDigits n) hroom
  | negSucc m =>
    rw [Int.negSucc_eq] at hlow
    have hlen := length_toDigits_le (n := m + 1) (by omega)
    have hroom : ('-' :: Nat.toDigits 10 (m + 1)).length ≤ INT_DIGITS + 1 := by
      rw [List.length_cons]
      unfold INT_DIGITS
      omega
    have hloop := @digitsLoop_spec _ (fun n => -(n : Int)) (m + 1) (INT_DIGITS + 1) buf.chars
      digitDown_neg (fun n => by rw [Int.neg_tdiv, Int.tdiv_eq_ediv_of_nonneg (by omega)]; omega) (fun n => by omega)
      (Nat.le_of_succ_le hroom) (by unfold INT_DIGITS; omega)
    obtain ⟨p, hp⟩ : ∃ p, INT_DIGITS + 1 - (Nat.toDigits 10 (m + 1)).length = p + 1 :=
      ⟨INT_DIGITS + 1 - (Nat.toDigits 10 (m + 1)).length - 1, by unfold INT_DIGITS; omega⟩
    have hp' : INT_DIGITS + 1 - ('-' :: Nat.toDigits 10 (m + 1)).length = p := by
      rw [List.length_cons]
      omega
    refine ⟨p, buf.print _ hroom, ?_, ?_⟩
    · have hneg : Int.negSucc m = -((m + 1 : Nat) : Int) := rfl
      have hset := set_sign (A := buf.chars) (D := Nat.toDigits 10 (m + 1)) (R := buf.chars.drop (INT_DIGITS + 1))
        (p := p) (by unfold INT_DIGITS at hp; omega)
      show _ = Except.ok (p, buf.chars.take (INT_DIGITS + 1 - _) ++ _ ++ _)
      rw [ss_itoa, hneg, if_neg (by omega), hloop, C.ok_bind, hp, putSign, hset, hp']
    · have hstr := cstr_printed buf (by simp [nul_not_mem_toDigits]) hroom
      rw [hp'] at hstr
      show cstr ((buf.chars.take (INT_DIGITS + 1 - _) ++ _ ++ _).drop p) = '-' :: (m + 1).repr.toList
      rw [hp', hstr, Nat.toList_repr]

/-- The number is printed and stored as it is. -/
structure KeepsNumber (buf : Static) (lexeme : Text) (n : Int) : Prop where
  printed : ∃ p, ∃ buf' : Static, ss_itoa buf (toInt n) = .ok (p, buf'.chars) ∧ cstr (buf'.chars.drop p) = ofInt n
  read : to_string (.num lexeme) = .ok (some (ofInt n))

theorem toInt_bounds (n : Int) : -2 ^ 31 ≤ toInt n ∧ toInt n < 2 ^ 31 := by
  have hlow := Int.le_bmod (x := n) (m := 2 ^ 32) (by decide)
  have hhigh := Int.bmod_lt (x := n) (m := 2 ^ 32) (by decide)
  unfold toInt
  constructor
  · omega
  · omega

theorem toInt_eq_iff (n : Int) : toInt n = n ↔ -2 ^ 31 ≤ n ∧ n < 2 ^ 31 := by
  constructor
  · intro h
    have hbounds := toInt_bounds n
    rwa [h] at hbounds
  · rintro ⟨hlow, hhigh⟩
    unfold toInt
    rw [Int.bmod_eq_of_le]
    · omega
    · omega

/-- The text that is stored is the one that the loops print. -/
theorem ss_itoa_text (buf : Static) (n : Int) :
    ∃ p, ∃ buf' : Static, ss_itoa buf (toInt n) = .ok (p, buf'.chars) ∧ cstr (buf'.chars.drop p) = Servers.ss_itoa n :=
  ss_itoa_spec buf (toInt_bounds n).1 (toInt_bounds n).2

/-- For every integer of a config file. -/
theorem keepsNumber_iff (buf : Static) {lexeme : Text} {n : Int} (h : jsonInteger lexeme = some n) :
    KeepsNumber buf lexeme n ↔ -2 ^ 31 ≤ n ∧ n < 2 ^ 31 := by
  have hread : to_string (.num lexeme) = .ok (some (Servers.ss_itoa n)) := by
    rw [to_string, h]
  rw [← toInt_eq_iff]
  constructor
  · intro hkeeps
    have hstored := hkeeps.read
    rw [hread] at hstored
    exact ofInt_injective (Option.some.inj (Except.ok.inj hstored))
  · intro hint
    obtain ⟨p, buf', hok, hstr⟩ := ss_itoa_text buf n
    have htext : Servers.ss_itoa n = ofInt n := congrArg ofInt hint
    rw [htext] at hstr hread
    exact ⟨⟨p, buf', hok, hstr⟩, hread⟩

theorem keepsNumber_iff_8388 : KeepsNumber Static.zero "8388".toList 8388 ∧
    KeepsNumber Static.zero "-2147483648".toList (-2 ^ 31) :=
  ⟨(keepsNumber_iff Static.zero (by decide)).2 (by decide), (keepsNumber_iff Static.zero (by decide)).2 (by decide)⟩

/-- A password that is a number of ten digits. -/
theorem number_truncated : jsonInteger "9999999999".toList = some 9999999999 ∧
    to_string (.num "9999999999".toList) = .ok (some "1410065407".toList) ∧
    ¬ KeepsNumber Static.zero "9999999999".toList 9999999999 := by
  have hstored : to_string (.num "9999999999".toList) = .ok (some "1410065407".toList) := rfl
  have hne : "1410065407".toList ≠ ofInt 9999999999 := by decide
  refine ⟨by decide, hstored, fun h => ?_⟩
  have hread := h.read
  rw [hstored] at hread
  exact hne (Option.some.inj (Except.ok.inj hread))

end OutlineServer.Servers.Itoa
