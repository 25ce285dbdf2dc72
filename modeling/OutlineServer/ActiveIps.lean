import OutlineServer.IpLock
import OutlineServer.Lib.JsonArrays

/-!
# The array of addresses (`ip_lock_format_active_ips`)

The function with its output array, in which every write is looked for, and with its `int` positions. What it prints
before the closing bracket is `activeText`. If an address does not fit that comes after another one, its comma has been
printed already and stands before the bracket.
-/

namespace OutlineServer.ActiveIps
open Json

/-- A write behind the array, or an `int` that overflows. -/
inductive Overrun
  | bounds
  | overflow
deriving DecidableEq

@[irreducible] def INT_MAX : Nat := 2147483647

@[irreducible] def INT_MIN : Int := -2147483648

/-- `(int)n` -/
def intOf (n : Nat) : Int := (n : Int).bmod (2 ^ 32)

def checkInt (n : Int) : Except Overrun Int :=
  if INT_MIN ≤ n ∧ n ≤ INT_MAX then .ok n else .error .overflow

/-- `snprintf(out + pos, size, "%s", s)`: the array afterwards, and what is returned. -/
def snprintfAt (out : Text) (pos size : Nat) (s : Text) : Except Overrun (Text × Int) :=
  let n : Int := if s.length ≤ INT_MAX then s.length else -1
  if size = 0 then .ok (out, n)
  else
    let printed := s.take (size - 1) ++ ['\x00']
    if pos + printed.length ≤ out.length then
      .ok (out.take pos ++ printed ++ out.drop (pos + printed.length), n)
    else .error .bounds

/-- The comma before an address that is not the first. -/
def printComma (out : Text) (pos : Nat) : Except Overrun (Text × Nat) := do
  if pos ≤ 1 then
    return (out, pos)
  let limit ← checkInt (intOf out.length - 1)
  if limit ≤ pos then
    return (out, pos)
  let (out, _) ← snprintfAt out pos (size_t_sub out.length pos) [',']
  return (out, pos + 1)

/-- An address; `none` for the position if the loop ends here. -/
def printIp (out : Text) (pos : Nat) (ip : Text) : Except Overrun (Text × Option Nat) := do
  let limit ← checkInt (intOf out.length - 2)
  if limit ≤ pos then
    return (out, none)
  let (out, n) ← snprintfAt out pos (size_t_sub out.length pos) (raw ip)
  if n < 0 then
    return (out, none)
  let next ← checkInt (pos + n)
  if limit ≤ next then
    return (out, none)
  return (out, some next.toNat)

/-- The loop over the addresses, which are `[]` if they are `NULL` or empty: the array and `pos` when it ends. -/
def printIps : List Text → Text → Nat → Except Overrun (Text × Nat)
  | [], out, pos => .ok (out, pos)
  | ip :: ips, out, pos =>
    if ip = [] then printIps ips out pos
    else do
      let (out, pos) ← printComma out pos
      match ← printIp out pos ip with
      | (out, none) => return (out, pos)
      | (out, some next) => printIps ips out next

/-- The array `out` of `out_size` bytes afterwards; each step leaves its length as it is. -/
def ip_lock_format_active_ips (ips : List Text) (out : Text) : Except Overrun Text := do
  if out = [] then
    return out
  if ips = [] then
    let (out, _) ← snprintfAt out 0 out.length ['[', ']']
    return out
  let (out, _) ← snprintfAt out 0 out.length ['[']
  let (out, pos) ← printIps ips out 1
  let (out, _) ← snprintfAt out pos (size_t_sub out.length pos) [']']
  return out

/-! ### What is printed -/

/-- `ips` without the empty addresses. -/
def given (ips : List Text) : List Text := ips.filter (· ≠ [])

/-- The addresses with their quotes and a comma, or the bracket, before each. -/
def total (ips : List Text) : Nat := (ips.map fun ip => ip.length + 3).sum

/-- The text with the comma behind it that another address needs. -/
def withComma (t : Text) : Text := if 1 < t.length then t ++ [','] else t

/-- What is printed before the closing bracket, behind `t`, for `size` as an `int`. -/
def activeText (size : Int) : Text → List Text → Except Overrun Text
  | t, [] => .ok t
  | t, ip :: ips =>
    let t := withComma t
    if size - 2 ≤ t.length then .ok t
    else if INT_MAX < ip.length + 2 then .ok t
    else if INT_MAX < t.length + (ip.length + 2) then .error .overflow
    else if size - 2 ≤ t.length + (ip.length + 2) then .ok t
    else activeText size (t ++ raw ip) ips

/-- The start of the array is the text `t`, and there is room for two characters behind it. -/
structure Printed (size : Nat) (t : Text) (out : Text) : Prop where
  length : out.length = size
  start : out.take t.length = t
  room : t.length + 2 ≤ size

variable {out out' t s : Text} {ip : Text} {ips as bs xs : List Text} {pos size n : Nat} {M : Int}

theorem ok_bind {α β : Type} (a : α) (f : α → Except Overrun β) : (Except.ok a >>= f) = f a := rfl

theorem error_bind {α β : Type} (e : Overrun) (f : α → Except Overrun β) : (Except.error e >>= f) = .error e := rfl

theorem INT_MAX_eq : INT_MAX = 2147483647 := by
  unfold INT_MAX
  rfl

theorem INT_MIN_eq : INT_MIN = -2147483648 := by
  unfold INT_MIN
  rfl

theorem intOf_le (n : Nat) : intOf n ≤ n := by
  unfold intOf
  have := @Int.emod_lt_of_pos (n : Int) (2 ^ 32) (by decide)
  rw [Int.bmod_def]
  split <;> omega

theorem intOf_lt (n : Nat) : intOf n ≤ INT_MAX := by
  have := @Int.bmod_lt (n : Int) (2 ^ 32) (by decide)
  unfold intOf
  rw [INT_MAX_eq]
  omega

theorem size_t_sub_eq (h : n ≤ size) (hsize : size < 2 ^ 64) : size_t_sub size n = size - n := by
  unfold size_t_sub
  omega

theorem checkInt_ok {n : Int} (h : INT_MIN ≤ n ∧ n ≤ INT_MAX) : checkInt n = .ok n := if_pos h

/-- A text printed behind `t` leaves `t` as it is. -/
theorem Printed.snprintf (h : Printed size t out) (s : Text) (hsize : size < 2 ^ 64) :
    ∃ out', snprintfAt out t.length (size_t_sub size t.length) s =
        .ok (out', if s.length ≤ INT_MAX then (s.length : Int) else -1) ∧ Printed size t out' ∧
      (t.length + s.length < size → out'.take (t.length + s.length) = t ++ s ∧
        out'[t.length + s.length]? = some '\x00') := by
  have hroom := h.room
  rw [size_t_sub_eq (by omega) hsize]
  unfold snprintfAt
  have hlen : (s.take (size - t.length - 1) ++ ['\x00']).length = min (size - t.length - 1) s.length + 1 := by simp
  rw [if_neg (by omega)]
  dsimp only
  rw [hlen, h.length, if_pos (by omega)]
  refine ⟨_, rfl, ⟨?_, ?_, hroom⟩, fun hfit => ?_⟩
  · simp only [List.length_append, List.length_take, List.length_drop, List.length_singleton, h.length]
    omega
  · rw [List.append_assoc, List.take_append_of_le_length (by rw [List.length_take, h.length]; omega),
      List.take_take, Nat.min_self, h.start]
  · have hs : s.take (size - t.length - 1) = s := List.take_of_length_le (by omega)
    rw [hs, h.start]
    have hsplit : t ++ (s ++ ['\x00']) ++ out.drop (t.length + (min (size - t.length - 1) s.length + 1)) =
        (t ++ s) ++ '\x00' :: out.drop (t.length + (min (size - t.length - 1) s.length + 1)) := by simp
    rw [hsplit, ← List.length_append]
    refine ⟨List.take_left, ?_⟩
    rw [List.getElem?_append_right (Nat.le_refl _), Nat.sub_self]
    rfl

/-- The positions that the loop goes on from. -/
def Going (M : Int) (t : Text) : Prop := t.length = 1 ∨ t.length + 3 ≤ M

theorem printComma_eq (h : Printed size t out) (hsize : size < 2 ^ 64) (hgo : Going (intOf size) t) :
    ∃ out', printComma out t.length = .ok (out', (withComma t).length) ∧ Printed size (withComma t) out' := by
  have hle := intOf_le size
  have hlt := intOf_lt size
  have hmin : INT_MIN ≤ 0 := by
    rw [INT_MIN_eq]
    decide
  unfold printComma withComma
  by_cases hone : t.length ≤ 1
  · rw [if_pos hone, if_neg (Nat.not_lt.2 hone)]
    exact ⟨out, rfl, h⟩
  have hroom : t.length + 3 ≤ intOf size := hgo.resolve_left (by omega)
  obtain ⟨out', heq, hout, hfit⟩ := h.snprintf [','] hsize
  rw [if_neg hone, if_pos (Nat.lt_of_not_le hone), h.length, checkInt_ok ⟨by omega, by omega⟩]
  rw [ok_bind, if_neg (by omega), heq, ok_bind, List.length_append]
  refine ⟨out', rfl, hout.length, ?_, ?_⟩
  · rw [List.length_append]
    exact (hfit (by simp only [List.length_singleton]; omega)).1
  · rw [List.length_append, List.length_singleton]
    omega

/-- What an address comes to behind `t`. -/
theorem printIp_eq (h : Printed size t out) (hsize : size < 2 ^ 64) (hM : INT_MIN + 2 ≤ intOf size) (ip : Text) :
    (¬ intOf size - 2 ≤ t.length → ¬ INT_MAX < ip.length + 2 → INT_MAX < t.length + (ip.length + 2) →
        printIp out t.length ip = .error .overflow) ∧
      ((intOf size - 2 ≤ t.length ∨ INT_MAX < ip.length + 2 ∨
          (t.length + (ip.length + 2) ≤ INT_MAX ∧ intOf size - 2 ≤ t.length + (ip.length + 2))) →
        ∃ out', printIp out t.length ip = .ok (out', none) ∧ Printed size t out') ∧
      (t.length + (ip.length + 2) < intOf size - 2 →
        ∃ out', printIp out t.length ip = .ok (out', some (t ++ raw ip).length) ∧ Printed size (t ++ raw ip) out') := by
  have hle := intOf_le size
  have hlt := intOf_lt size
  have hraw : (raw ip).length = ip.length + 2 := by simp [raw]
  obtain ⟨out', heq, hout, hfit⟩ := h.snprintf (raw ip) hsize
  have hmin : INT_MIN ≤ 0 := by
    rw [INT_MIN_eq]
    decide
  unfold printIp
  rw [h.length, checkInt_ok ⟨by omega, by omega⟩, ok_bind]
  rw [hraw] at heq
  by_cases hfull : intOf size - 2 ≤ t.length
  · rw [if_pos hfull]
    exact ⟨fun h => absurd hfull h, fun _ => ⟨out, rfl, h⟩, fun h => absurd h (by omega)⟩
  rw [if_neg hfull, heq, ok_bind]
  by_cases hlong : INT_MAX < ip.length + 2
  · rw [if_neg (Nat.not_le.2 hlong)]
    exact ⟨fun _ h => absurd hlong h, fun _ => ⟨out', rfl, hout⟩, fun h => absurd h (by omega)⟩
  rw [if_pos (Nat.not_lt.1 hlong)]
  dsimp only
  rw [if_neg (by omega)]
  by_cases hover : INT_MAX < t.length + (ip.length + 2)
  · have herr : checkInt ((t.length : Int) + ((ip.length + 2 : Nat) : Int)) = .error .overflow := by
      unfold checkInt
      rw [if_neg (by omega)]
    rw [herr, error_bind]
    exact ⟨fun _ _ _ => rfl, fun h => by omega, fun h => by omega⟩
  rw [checkInt_ok ⟨by omega, by omega⟩, ok_bind]
  by_cases hend : intOf size - 2 ≤ (t.length : Int) + ((ip.length + 2 : Nat) : Int)
  · rw [if_pos hend]
    exact ⟨fun _ _ h => absurd h hover, fun _ => ⟨out', rfl, hout⟩, fun h => by omega⟩
  · rw [if_neg hend]
    refine ⟨fun _ _ h => absurd h hover, fun h => by omega, fun _ => ⟨out', ?_, hout.length, ?_, ?_⟩⟩
    · rw [List.length_append, hraw]
      congr 1
    · rw [List.length_append]
      exact (hfit (by omega)).1
    · rw [List.length_append]
      omega

/-- The loop has printed the text, or has overflowed as it says. -/
inductive Prints (size : Nat) : Except Overrun (Text × Nat) → Except Overrun Text → Prop
  | error (e : Overrun) : Prints size (.error e) (.error e)
  | ok {t out : Text} (h : Printed size t out) : Prints size (.ok (out, t.length)) (.ok t)

theorem printIps_eq (h : Printed size t out) (hsize : size < 2 ^ 64) (hM : INT_MIN + 2 ≤ intOf size)
    (hgo : Going (intOf size) t) (ips : List Text) :
    Prints size (printIps ips out t.length) (activeText (intOf size) t (given ips)) := by
  induction ips generalizing t out with
  | nil =>
    rw [given, List.filter_nil, activeText, printIps]
    exact .ok h
  | cons ip ips ih =>
    unfold printIps
    by_cases hne : ip = []
    · rw [if_pos hne, given, List.filter_cons_of_neg (by simpa using hne)]
      exact ih h hgo
    obtain ⟨out₁, heq₁, h₁⟩ := printComma_eq h hsize hgo
    rw [if_neg hne, given, List.filter_cons_of_pos (by simpa using hne), heq₁, ok_bind, activeText]
    dsimp only
    generalize withComma t = t₁ at heq₁ h₁ ⊢
    obtain ⟨hover, hstop, hnext⟩ := printIp_eq h₁ hsize hM ip
    by_cases hfull : intOf size - 2 ≤ (t₁.length : Int)
    · obtain ⟨out₂, heq₂, h₂⟩ := hstop (.inl hfull)
      rw [if_pos hfull, heq₂, ok_bind]
      exact .ok h₂
    rw [if_neg hfull]
    by_cases hlong : INT_MAX < ip.length + 2
    · obtain ⟨out₂, heq₂, h₂⟩ := hstop (.inr (.inl hlong))
      rw [if_pos hlong, heq₂, ok_bind]
      exact .ok h₂
    rw [if_neg hlong]
    by_cases hmax : INT_MAX < t₁.length + (ip.length + 2)
    · rw [if_pos hmax, hover hfull hlong hmax, error_bind]
      exact .error _
    rw [if_neg hmax]
    by_cases hend : intOf size - 2 ≤ (t₁.length : Int) + (ip.length + 2)
    · obtain ⟨out₂, heq₂, h₂⟩ := hstop (.inr (.inr ⟨Nat.not_lt.1 hmax, hend⟩))
      rw [if_pos hend, heq₂, ok_bind]
      exact .ok h₂
    · obtain ⟨out₂, heq₂, h₂⟩ := hnext (Int.not_le.1 hend)
      rw [if_neg hend, heq₂, ok_bind]
      refine ih h₂ (.inr ?_)
      rw [List.length_append, raw]
      simp only [List.length_append, List.length_cons, List.length_nil]
      omega

/-- The first character, or a text that is printed into the whole array. -/
theorem snprintf_start (hout : 3 ≤ out.length) (hsize : out.length < 2 ^ 64) (s : Text) (hs : s.length ≤ 2) :
    ∃ out' n, snprintfAt out 0 out.length s = .ok (out', n) ∧ out'.length = out.length ∧
      out'.take s.length = s ∧ out'[s.length]? = some '\x00' := by
  have h : Printed out.length [] out := ⟨rfl, List.take_zero, by simp only [List.length_nil]; omega⟩
  obtain ⟨out', heq, hout', hfit⟩ := h.snprintf s hsize
  rw [List.length_nil, size_t_sub_eq (Nat.zero_le _) hsize, Nat.sub_zero] at heq
  simp only [List.length_nil, Nat.zero_add, List.nil_append] at hfit
  obtain ⟨hstart, hnul⟩ := hfit (by omega)
  exact ⟨out', _, heq, hout'.length, hstart, hnul⟩

/-- The array holds the text `s`, with a NUL behind it. -/
def Holds (out s : Text) : Prop := out.take s.length = s ∧ out[s.length]? = some '\x00'

/-- The function has printed the text and the closing bracket. -/
inductive Formats : Except Overrun Text → Except Overrun Text → Prop
  | error (e : Overrun) : Formats (.error e) (.error e)
  | ok {t out : Text} (h : Holds out (t ++ [']'])) : Formats (.ok out) (.ok t)

theorem format_eq {r : Except Overrun Text} (hout : 3 ≤ out.length) (hsize : out.length < 2 ^ 64)
    (hloop : ∀ out₁, Printed out.length ['['] out₁ → Prints out.length (printIps ips out₁ 1) r) :
    Formats (ip_lock_format_active_ips ips out) r := by
  have hne : out ≠ [] := by
    rintro rfl
    simp at hout
  obtain ⟨out₁, n, heq, hlen, hstart, -⟩ := snprintf_start hout hsize ['['] (by simp)
  have hprints := hloop out₁ ⟨hlen, hstart, hout⟩
  unfold ip_lock_format_active_ips
  rw [if_neg hne]
  by_cases hips : ips = []
  · obtain ⟨out', n', heq', -, hstart', hnul'⟩ := snprintf_start hout hsize ['[', ']'] (by simp)
    rw [if_pos hips, heq', ok_bind]
    rw [hips, printIps] at hprints
    generalize hone : (1 : Nat) = one at hprints
    cases hprints with
    | @ok t _ h =>
      have ht : t = ['['] := by
        rw [← h.start, ← hone]
        exact hstart
      rw [ht]
      exact .ok ⟨hstart', hnul'⟩
  rw [if_neg hips, heq, ok_bind]
  dsimp only
  generalize printIps ips out₁ 1 = p at hprints ⊢
  cases hprints with
  | error e =>
    rw [error_bind]
    exact .error e
  | @ok t out₂ h₂ =>
    obtain ⟨out₃, heq₃, h₃, hfit⟩ := h₂.snprintf [']'] hsize
    rw [ok_bind]
    dsimp only
    rw [h₂.length, heq₃, ok_bind]
    have hroom := h₂.room
    obtain ⟨hstart₃, hnul₃⟩ := hfit (by simp only [List.length_singleton]; omega)
    refine .ok ⟨?_, ?_⟩
    · rw [List.length_append]
      exact hstart₃
    · rw [List.length_append]
      exact hnul₃

theorem printIps_none (h : given ips = []) (out : Text) (pos : Nat) : printIps ips out pos = .ok (out, pos) := by
  induction ips with
  | nil => rfl
  | cons ip ips ih =>
    by_cases hip : ip = []
    · rw [printIps, if_pos hip]
      rw [given, List.filter_cons_of_neg (by simpa using hip)] at h
      exact ih h
    · rw [given, List.filter_cons_of_pos (by simpa using hip)] at h
      cases h

/-- For a size that is too small as an `int`, the first address is where it overflows. -/
theorem printIps_min (hM : intOf out.length < INT_MIN + 2) (hne : given ips ≠ []) :
    printIps ips out 1 = .error .overflow := by
  induction ips with
  | nil => exact absurd rfl hne
  | cons ip ips ih =>
    unfold printIps
    by_cases hip : ip = []
    · rw [if_pos hip]
      rw [given, List.filter_cons_of_neg (by simpa using hip)] at hne
      exact ih hne
    have hcomma : printComma out 1 = .ok (out, 1) := by
      unfold printComma
      rw [if_pos (Nat.le_refl 1)]
      rfl
    have hprint : printIp out 1 ip = .error .overflow := by
      unfold printIp checkInt
      rw [if_neg (by omega), error_bind]
    rw [if_neg hip, hcomma, ok_bind]
    dsimp only
    rw [hprint, error_bind]

/-! ### What it is read as -/

theorem commaSep_concat {ws : List Text} (h : ws ≠ []) (w : Text) : commaSep (ws ++ [w]) = commaSep ws ++ ',' :: w := by
  induction ws with
  | nil => exact absurd rfl h
  | cons v ws ih =>
    cases ws with
    | nil => rfl
    | cons v' ws =>
      rw [List.cons_append, commaSep_cons v (by simp), ih (by simp), commaSep_cons v (by simp), List.append_assoc,
        List.cons_append]

theorem total_append (as bs : List Text) : total (as ++ bs) = total as + total bs := by
  simp [total]

theorem length_rawArray (as : List Text) : (rawArray as).length = max 1 (total as) := by
  have hlen : ∀ as : List Text, as ≠ [] → (rawArray as).length = total as := by
    intro as hne
    induction as with
    | nil => exact absurd rfl hne
    | cons a as ih =>
      cases as with
      | nil => simp [rawArray, commaSep, raw, total]
      | cons b as =>
        have := ih (by simp)
        simp only [rawArray, List.map_cons, List.length_cons, total, List.sum_cons] at this ⊢
        rw [commaSep_cons _ (by simp), List.length_append, List.length_cons, raw, List.length_append, List.length_cons,
          List.length_singleton]
        omega
  cases as with
  | nil => rfl
  | cons a as =>
    rw [hlen _ (by simp)]
    simp only [total, List.map_cons, List.sum_cons]
    omega

/-- An address with what comes before it. -/
theorem withComma_raw (as : List Text) (x : Text) : withComma (rawArray as) ++ raw x = rawArray (as ++ [x]) := by
  unfold withComma
  rw [length_rawArray]
  cases as with
  | nil => rfl
  | cons a as =>
    have hone : 1 < max 1 (total (a :: as)) := by
      simp only [total, List.map_cons, List.sum_cons]
      omega
    rw [if_pos hone, rawArray, rawArray, List.map_append, List.map_singleton, commaSep_concat (by simp)]
    simp

theorem withComma_of_ne (hne : as ≠ []) : withComma (rawArray as) = rawArray as ++ [','] := by
  unfold withComma
  rw [if_pos]
  rw [length_rawArray]
  obtain ⟨a, as, rfl⟩ := List.exists_cons_of_ne_nil hne
  simp only [total, List.map_cons, List.sum_cons]
  omega

theorem length_withComma_le (as : List Text) : (withComma (rawArray as)).length ≤ total as + 1 := by
  cases as with
  | nil => exact Nat.le_refl 1
  | cons a as =>
    rw [withComma_of_ne (by simp), List.length_append, length_rawArray, List.length_singleton]
    simp only [total, List.map_cons, List.sum_cons]
    omega

theorem activeText_step {x : Text} (hM : M ≤ INT_MAX) (hfit : (total (as ++ [x]) : Int) + 2 < M) (xs : List Text) :
    activeText M (rawArray as) (x :: xs) = activeText M (rawArray (as ++ [x])) xs := by
  have hle := length_withComma_le as
  rw [total_append] at hfit
  simp only [total, List.map_cons, List.map_nil, List.sum_cons, List.sum_nil] at hfit hle
  rw [activeText, if_neg (by omega), if_neg (by omega), if_neg (by omega), if_neg (by omega), withComma_raw]

theorem activeText_fits (hM : M ≤ INT_MAX) (h : xs = [] ∨ (total (as ++ xs) : Int) + 2 < M) :
    activeText M (rawArray as) xs = .ok (rawArray (as ++ xs)) := by
  induction xs generalizing as with
  | nil => rw [activeText, List.append_nil]
  | cons x xs ih =>
    have hfit : (total (as ++ x :: xs) : Int) + 2 < M := h.resolve_left (by simp)
    have hsplit : as ++ x :: xs = (as ++ [x]) ++ xs := by simp
    rw [hsplit] at hfit ⊢
    have hfirst : (total (as ++ [x]) : Int) + 2 < M := by
      rw [total_append] at hfit
      omega
    rw [activeText_step hM hfirst, ih (.inr hfit)]

/-- The first address does not fit. -/
theorem activeText_first {x : Text} (h : M ≤ x.length + 5) (xs : List Text) :
    activeText M ['['] (x :: xs) = if M ≤ 3 ∨ x.length + 2 ≠ INT_MAX then .ok ['['] else .error .overflow := by
  have ht : withComma ['['] = ['['] := rfl
  have hlen : (['['] : Text).length = 1 := rfl
  rw [activeText, ht, hlen]
  by_cases h3 : M ≤ 3
  · rw [if_pos (by omega), if_pos (.inl h3)]
  rw [if_neg (by omega)]
  by_cases hlong : INT_MAX < x.length + 2
  · rw [if_pos hlong, if_pos (.inr (by omega))]
  rw [if_neg hlong]
  by_cases hover : INT_MAX < 1 + (x.length + 2)
  · rw [if_pos hover, if_neg (by omega)]
  · rw [if_neg hover, if_pos (by omega), if_pos (.inr (by omega))]

/-- An address behind another one does not fit: its comma is there. -/
theorem activeText_trailing (hM : M ≤ INT_MAX) (hne : as ≠ []) (hfit : (total as : Int) + 2 < M)
    (hnot : ¬ (total (as ++ xs) : Int) + 2 < M) :
    activeText M (rawArray as) xs = .error .overflow ∨
      ∃ bs, bs ≠ [] ∧ bs <+: as ++ xs ∧ activeText M (rawArray as) xs = .ok (rawArray bs ++ [',']) := by
  induction xs generalizing as with
  | nil =>
    rw [List.append_nil] at hnot
    exact absurd hfit hnot
  | cons x xs ih =>
    have hsplit : as ++ x :: xs = (as ++ [x]) ++ xs := by simp
    by_cases hfirst : (total (as ++ [x]) : Int) + 2 < M
    · rw [activeText_step hM hfirst, hsplit]
      rw [hsplit] at hnot
      exact ih (by simp) hfirst hnot
    have hlen : (withComma (rawArray as)).length = total as + 1 := by
      rw [withComma_of_ne hne, List.length_append, length_rawArray, List.length_singleton]
      obtain ⟨a, as, rfl⟩ := List.exists_cons_of_ne_nil hne
      simp only [total, List.map_cons, List.sum_cons]
      omega
    have hstop : ∃ bs, bs ≠ [] ∧ bs <+: as ++ x :: xs ∧
        (.ok (withComma (rawArray as)) : Except Overrun Text) = .ok (rawArray bs ++ [',']) :=
      ⟨as, hne, List.prefix_append _ _, by rw [withComma_of_ne hne]⟩
    rw [total_append] at hfirst
    simp only [total, List.map_cons, List.map_nil, List.sum_cons, List.sum_nil] at hfirst hlen
    rw [activeText, hlen]
    by_cases hfull : M - 2 ≤ ((total as + 1 : Nat) : Int)
    · rw [total] at hfull
      rw [if_pos hfull]
      exact .inr hstop
    rw [total] at hfull
    rw [if_neg hfull]
    by_cases hlong : INT_MAX < x.length + 2
    · rw [if_pos hlong]
      exact .inr hstop
    rw [if_neg hlong]
    split
    · exact .inl rfl
    · rw [if_pos (by omega)]
      exact .inr hstop

/-! ### The result -/

/-- The array holds a JSON array of some of the first addresses that are not empty. -/
def HoldsJson (ips : List Text) (out : Text) : Prop :=
  '\x00' ∈ out ∧ ∃ ys, ys <+: given ips ∧ parse (out.takeWhile (· ≠ '\x00')) = some (.arr (ys.map .str))

/-- Whatever was in the array: nothing is written behind it, and it holds a JSON array then. -/
def FormatsWell (ips : List Text) (out_size : Nat) : Prop :=
  ∀ out : Text, out.length = out_size → ∃ out', ip_lock_format_active_ips ips out = .ok out' ∧ HoldsJson ips out'

/-- All addresses fit, and none needs an escape. -/
def AllFit (size : Int) (ips : List Text) : Prop := (total ips : Int) + 2 < size ∧ ∀ ip ∈ ips, Plain ip

/-- Not even the first address fits, and its end is no position beyond those of an `int`. -/
def NoneFits (size : Int) (ips : List Text) : Prop :=
  ∀ ip ∈ ips.head?, size ≤ 3 ∨ (size ≤ ip.length + 5 ∧ ip.length + 2 ≠ INT_MAX)

theorem Holds.takeWhile (h : Holds out s) (hs : '\x00' ∉ s) :
    '\x00' ∈ out ∧ out.takeWhile (· ≠ '\x00') = s := by
  obtain ⟨hlt, hnul⟩ := List.getElem?_eq_some_iff.1 h.2
  have hsplit : out = s ++ '\x00' :: out.drop (s.length + 1) := by
    conv_lhs => rw [← List.take_append_drop s.length out, h.1, List.drop_eq_getElem_cons hlt, hnul]
  refine ⟨List.mem_of_getElem? h.2, ?_⟩
  rw [hsplit, List.takeWhile_append_of_pos fun c hc => by simpa using fun heq : c = '\x00' => hs (heq ▸ hc)]
  simp

theorem formatsWell_ok (hout : 3 ≤ size) (hsize : size < 2 ^ 64) (hnul : '\x00' ∉ t)
    (hloop : ∀ out₁, Printed size ['['] out₁ → Prints size (printIps ips out₁ 1) (.ok t)) :
    FormatsWell ips size ↔ ∃ ys, ys <+: given ips ∧ parse (t ++ [']']) = some (.arr (ys.map .str)) := by
  have hall : ∀ out : Text, out.length = size → ∃ out', ip_lock_format_active_ips ips out = .ok out' ∧
      '\x00' ∈ out' ∧ out'.takeWhile (· ≠ '\x00') = t ++ [']'] := by
    rintro out rfl
    have hf := format_eq hout hsize hloop
    generalize ip_lock_format_active_ips ips out = p at hf ⊢
    cases hf with
    | @ok _ out' h => exact ⟨out', rfl, h.takeWhile (by simpa using hnul)⟩
  constructor
  · intro h
    obtain ⟨out', heq, -, hys⟩ := h (List.replicate size ' ') List.length_replicate
    obtain ⟨out₂, heq₂, -, htext⟩ := hall (List.replicate size ' ') List.length_replicate
    cases heq.symm.trans heq₂
    rwa [htext] at hys
  · intro h out hlen
    obtain ⟨out', heq, hmem, htext⟩ := hall out hlen
    refine ⟨out', heq, hmem, ?_⟩
    rwa [htext]

theorem not_formatsWell {e : Overrun} (hout : 3 ≤ size) (hsize : size < 2 ^ 64)
    (hloop : ∀ out₁, Printed size ['['] out₁ → Prints size (printIps ips out₁ 1) (.error e)) :
    ¬ FormatsWell ips size := by
  intro h
  obtain ⟨out', heq, -⟩ := h (List.replicate size ' ') List.length_replicate
  have hlen : (List.replicate size ' ').length = size := List.length_replicate
  have hf : Formats (ip_lock_format_active_ips ips (List.replicate size ' ')) (.error e) :=
    format_eq (hlen.symm ▸ hout) (hlen.symm ▸ hsize) (hlen.symm ▸ hloop)
  rw [heq] at hf
  cases hf

theorem nul_not_mem_rawArray (h : ∀ a ∈ as, '\x00' ∉ a) : '\x00' ∉ rawArray as := by
  induction as using List.reverseRecOn with
  | nil => simp [rawArray, commaSep]
  | append_singleton as a ih =>
    have ha := h a (by simp)
    have has := ih fun b hb => h b (by simp [hb])
    rw [← withComma_raw]
    unfold withComma
    split <;> simp [has, ha, raw]

/-- For every list of addresses and every size from 3 on. -/
theorem format_active_ips_iff {out_size : Nat} (hnul : ∀ ip ∈ ips, '\x00' ∉ ip) (hout : 3 ≤ out_size)
    (hsize : out_size < 2 ^ 64) : FormatsWell ips out_size ↔
      given ips = [] ∨ (INT_MIN + 2 ≤ intOf out_size ∧
        (AllFit (intOf out_size) (given ips) ∨ NoneFits (intOf out_size) (given ips))) := by
  have hgiven : ∀ ip ∈ given ips, '\x00' ∉ ip := fun ip hip => hnul ip (List.mem_of_mem_filter hip)
  have hstart : ∀ {bs : List Text}, bs <+: given ips → '\x00' ∉ rawArray bs := fun hbs =>
    nul_not_mem_rawArray fun b hb => hgiven b (hbs.subset hb)
  by_cases hnone : given ips = []
  · refine iff_of_true ((formatsWell_ok (t := ['[']) hout hsize (by decide) fun out₁ h₁ => ?_).2 ⟨[], ?_⟩) (.inl hnone)
    · rw [printIps_none hnone]
      exact .ok h₁
    · exact ⟨List.nil_prefix, by rfl⟩
  have hM' := intOf_lt out_size
  by_cases hM : INT_MIN + 2 ≤ intOf out_size
  swap
  · refine iff_of_false (not_formatsWell (e := .overflow) hout hsize fun out₁ h₁ => ?_)
      fun h => h.elim hnone fun h => hM h.1
    rw [printIps_min (by rw [h₁.length]; omega) hnone]
    exact .error _
  have hloop : ∀ out₁, Printed out_size ['['] out₁ →
      Prints out_size (printIps ips out₁ 1) (activeText (intOf out_size) (rawArray []) (given ips)) :=
    fun out₁ h₁ => printIps_eq h₁ hsize hM (.inl rfl) ips
  have hcond : (given ips = [] ∨ (INT_MIN + 2 ≤ intOf out_size ∧
      (AllFit (intOf out_size) (given ips) ∨ NoneFits (intOf out_size) (given ips)))) ↔
      AllFit (intOf out_size) (given ips) ∨ NoneFits (intOf out_size) (given ips) :=
    ⟨fun h => (h.resolve_left hnone).2, fun h => .inr ⟨hM, h⟩⟩
  rw [hcond]
  obtain ⟨x, xs, hxs⟩ := List.exists_cons_of_ne_nil hnone
  by_cases hfit : (total (given ips) : Int) + 2 < intOf out_size
  · -- all are printed: they are read again if they are plain
    have hfit' : (total ([] ++ given ips) : Int) + 2 < intOf out_size := by rwa [List.nil_append]
    rw [activeText_fits hM' (.inr hfit'), List.nil_append] at hloop
    have hnot : ¬ NoneFits (intOf out_size) (given ips) := by
      intro h
      have := h x (by rw [hxs]; rfl)
      rw [hxs] at hfit
      simp only [total, List.map_cons, List.sum_cons] at hfit
      omega
    rw [formatsWell_ok hout hsize (hstart (List.prefix_refl _)) hloop]
    constructor
    · rintro ⟨ys, hys, hparse⟩
      exact .inl ⟨hfit, plain_of_parse hnone hys (List.prefix_refl _) hparse⟩
    · intro h
      have hplain := (h.resolve_right hnot).2
      refine ⟨given ips, List.prefix_refl _, ?_⟩
      have := parse_of_spells (Spells.rawArray hplain) (r := []) rfl (by intro c hc; cases hc)
      rwa [List.append_nil] at this
  have hnot : ¬ AllFit (intOf out_size) (given ips) := fun h => hfit h.1
  by_cases hfirst : intOf out_size ≤ x.length + 5
  · -- none is printed
    have hnone_iff : NoneFits (intOf out_size) (given ips) ↔ intOf out_size ≤ 3 ∨ x.length + 2 ≠ INT_MAX := by
      unfold NoneFits
      rw [hxs]
      simp only [List.head?_cons, Option.mem_def, Option.some.injEq, forall_eq']
      exact or_congr_right (and_iff_right hfirst)
    have hbracket : (rawArray [] : Text) = ['['] := rfl
    rw [hxs, hbracket, activeText_first hfirst] at hloop
    rw [or_iff_right hnot, hnone_iff]
    by_cases hover : intOf out_size ≤ 3 ∨ x.length + 2 ≠ INT_MAX
    · rw [if_pos hover] at hloop
      exact iff_of_true ((formatsWell_ok hout hsize (by decide) hloop).2 ⟨[], List.nil_prefix, by rfl⟩) hover
    · rw [if_neg hover] at hloop
      exact iff_of_false (not_formatsWell hout hsize hloop) hover
  · -- the first is printed, and the comma of one that is not
    have hnotNone : ¬ NoneFits (intOf out_size) (given ips) := by
      intro h
      have := h x (by rw [hxs]; rfl)
      omega
    refine iff_of_false ?_ (not_or.2 ⟨hnot, hnotNone⟩)
    have hone : (total ([] ++ [x]) : Int) + 2 < intOf out_size := by
      simp only [total, List.nil_append, List.map_cons, List.map_nil, List.sum_cons, List.sum_nil]
      omega
    rw [hxs, activeText_step hM' hone, List.nil_append] at hloop
    rw [List.nil_append] at hone
    have hsplit : given ips = [x] ++ xs := hxs
    rcases activeText_trailing hM' (by simp) hone (hsplit ▸ hfit) with herr | ⟨bs, hbs, hpre, heq⟩
    · rw [herr] at hloop
      exact not_formatsWell hout hsize hloop
    · rw [← hsplit] at hpre
      rw [heq] at hloop
      have hnulComma : '\x00' ∉ rawArray bs ++ [','] := by
        simpa using hstart hpre
      rw [formatsWell_ok hout hsize hnulComma hloop]
      rintro ⟨ys, hys, hparse⟩
      rw [List.append_assoc] at hparse
      exact parse_trailing hbs hys hpre hparse

theorem format_active_ips_iff_two : FormatsWell ["10.0.0.1".toList, [], "10.0.0.2".toList] 1024 ↔
    given ["10.0.0.1".toList, [], "10.0.0.2".toList] = [] ∨ (INT_MIN + 2 ≤ intOf 1024 ∧
      (AllFit (intOf 1024) (given ["10.0.0.1".toList, [], "10.0.0.2".toList]) ∨
        NoneFits (intOf 1024) (given ["10.0.0.1".toList, [], "10.0.0.2".toList]))) :=
  format_active_ips_iff (by decide) (by decide) (by decide)

/-- In 16 bytes there is room for the first address only: `["10.0.0.1",]`. -/
theorem format_trailing_comma : ¬ FormatsWell ["10.0.0.1".toList, "10.0.0.2".toList] 16 := by
  intro h
  obtain ⟨out', heq, -, ys, -, hparse⟩ := h (List.replicate 16 ' ') rfl
  have hout : ip_lock_format_active_ips ["10.0.0.1".toList, "10.0.0.2".toList] (List.replicate 16 ' ') =
      .ok ("[\"10.0.0.1\",]".toList ++ '\x00' :: "0\x00".toList) := by decide +kernel
  cases heq.symm.trans hout
  have hnone : (parse "[\"10.0.0.1\",]".toList).isNone := by decide +kernel
  have htext : ("[\"10.0.0.1\",]".toList ++ '\x00' :: "0\x00".toList).takeWhile (· ≠ '\x00') =
      "[\"10.0.0.1\",]".toList := by decide +kernel
  rw [htext] at hparse
  rw [hparse] at hnone
  cases hnone

/-! ### The text -/

theorem snprintf_text (hsize : size ≤ INT_MAX) (hstart : out.take t.length = t) (hroom : t.length + 2 ≤ size)
    (s : Text) : snprintf out size t.length s = t ++ s.take (size - t.length - 1) := by
  have hmax := INT_MAX_eq
  have hsub : size_t_sub size t.length = size - t.length := size_t_sub_eq (by omega) (by omega)
  unfold snprintf
  rw [hsub, if_neg (by omega), hstart]

/-- `formatIpsLoop` keeps the text of the array only. -/
theorem formatIpsLoop_text {t' : Text} (hsize : size ≤ INT_MAX) (hstart : out.take t.length = t)
    (hroom : t.length + 2 ≤ size) (hgo : Going size t) (h : activeText size t (given ips) = .ok t') :
    ∃ out', formatIpsLoop size ips out t.length = (out', t'.length) ∧ out'.take t'.length = t' ∧
      t'.length + 2 ≤ size := by
  induction ips generalizing t out with
  | nil =>
    rw [given, List.filter_nil, activeText] at h
    cases h
    exact ⟨out, rfl, hstart, hroom⟩
  | cons ip ips ih =>
    unfold formatIpsLoop
    by_cases hip : ip = []
    · rw [given, List.filter_cons_of_neg (by simpa using hip)] at h
      rw [if_pos hip]
      exact ih hstart hroom hgo h
    rw [given, List.filter_cons_of_pos (by simpa using hip), activeText] at h
    rw [if_neg hip]
    -- the comma
    obtain ⟨out₁, hcomma, hstart₁, hroom₁⟩ : ∃ out₁,
        ((if (decide (1 < t.length ∧ (t.length : Int) < (size : Int) - 1)) = true
        then snprintf out size t.length [','] else out) = out₁ ∧
        (if (decide (1 < t.length ∧ (t.length : Int) < (size : Int) - 1)) = true then t.length + 1 else t.length) =
          (withComma t).length) ∧ out₁.take (withComma t).length = withComma t ∧ (withComma t).length + 2 ≤ size := by
      unfold withComma
      by_cases hone : 1 < t.length
      · have hthree : (t.length : Int) + 3 ≤ size := hgo.resolve_left (by omega)
        have hlen : (t ++ [',']).length = t.length + 1 := by simp
        have htake : ([','] : Text).take (size - t.length - 1) = [','] :=
          List.take_of_length_le (by rw [List.length_singleton]; omega)
        rw [if_pos (by simpa using ⟨hone, by omega⟩), if_pos (by simpa using ⟨hone, by omega⟩), if_pos hone, hlen,
          snprintf_text hsize hstart hroom, htake]
        exact ⟨_, ⟨rfl, rfl⟩, List.take_of_length_le (Nat.le_of_eq hlen), by omega⟩
      · rw [if_neg (by simp [hone]), if_neg (by simp [hone]), if_neg hone]
        exact ⟨out, ⟨rfl, rfl⟩, hstart, hroom⟩
    dsimp only
    rw [hcomma.1, hcomma.2]
    generalize withComma t = t₁ at h hstart₁ hroom₁ ⊢
    have hquoted : '"' :: ip ++ ['"'] = raw ip := rfl
    have hraw : (raw ip).length = ip.length + 2 := by simp [raw]
    rw [hquoted, hraw, snprintf_text hsize hstart₁ hroom₁]
    have hkeep : (t₁ ++ (raw ip).take (size - t₁.length - 1)).take t₁.length = t₁ := List.take_left
    by_cases hfull : (size : Int) - 2 ≤ t₁.length
    · rw [if_pos hfull] at h ⊢
      cases h
      exact ⟨out₁, rfl, hstart₁, hroom₁⟩
    rw [if_neg hfull] at h ⊢
    have hmax := INT_MAX_eq
    by_cases hlong : INT_MAX < ip.length + 2
    · rw [if_pos hlong] at h
      cases h
      rw [if_pos (by push_cast; omega)]
      exact ⟨_, rfl, hkeep, hroom₁⟩
    rw [if_neg hlong] at h
    by_cases hover : INT_MAX < t₁.length + (ip.length + 2)
    · rw [if_pos hover] at h
      cases h
    rw [if_neg hover] at h
    by_cases hend : (size : Int) - 2 ≤ t₁.length + (ip.length + 2)
    · rw [if_pos hend] at h
      cases h
      rw [if_pos (by push_cast; omega)]
      exact ⟨_, rfl, hkeep, hroom₁⟩
    rw [if_neg hend] at h
    have hlen : (t₁ ++ raw ip).length = t₁.length + (ip.length + 2) := by rw [List.length_append, hraw]
    have htake : (raw ip).take (size - t₁.length - 1) = raw ip := List.take_of_length_le (by omega)
    rw [if_neg (by push_cast; omega), htake, ← hlen]
    exact ih List.take_length (by omega) (.inr (by omega)) h

/-- Within an `int` the text of the array is that of `OutlineServer.ip_lock_format_active_ips`. -/
theorem text_eq (hips : ips ≠ []) (hout : 3 ≤ size) (hsize : size ≤ INT_MAX)
    (h : activeText size ['['] (given ips) = .ok t) :
    OutlineServer.ip_lock_format_active_ips ips size = t ++ [']'] := by
  have hmax := INT_MAX_eq
  have hstart : snprintf [] size 0 ['['] = ['['] := by
    have hnil : snprintf [] size ([] : Text).length ['['] = [] ++ (['['] : Text).take (size - ([] : Text).length - 1) :=
      snprintf_text hsize rfl (by rw [List.length_nil]; omega) ['[']
    rw [List.length_nil] at hnil
    rw [hnil, List.nil_append, List.take_of_length_le (by rw [List.length_singleton]; omega)]
  have htake₀ : (['['] : Text).take (['['] : Text).length = ['['] := rfl
  obtain ⟨out', heq, htake, hroom⟩ := formatIpsLoop_text hsize htake₀ hout (.inl rfl) h
  rw [List.length_singleton] at heq
  unfold OutlineServer.ip_lock_format_active_ips
  rw [if_neg (by omega), if_neg hips, hstart, heq]
  dsimp only
  rw [snprintf_text hsize htake hroom, List.take_of_length_le (by rw [List.length_singleton]; omega)]

end OutlineServer.ActiveIps
