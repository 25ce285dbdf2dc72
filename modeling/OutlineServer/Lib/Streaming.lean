import Mathlib.Data.List.Basic

/-!
# Stream ciphers

A stream cipher gives an output for each input as it comes, which depends on what has gone through it
before: `e past a` after `past`. `scan e past as` is the output for `as`. It does not depend on how the input
is cut (`scan_append`), and two ciphers that invert one another input by input do so on whole streams
(`Inverts.scan`).
-/

namespace Streaming

variable {α : Type*} {d e : List α → α → α} {past as bs : List α} {a : α}

def scan (e : List α → α → α) : List α → List α → List α
  | _, [] => []
  | past, a :: as => e past a :: scan e (past ++ [a]) as

@[simp] theorem scan_nil : scan e past [] = [] := rfl

theorem scan_cons : scan e past (a :: as) = e past a :: scan e (past ++ [a]) as := rfl

@[simp] theorem length_scan : (scan e past as).length = as.length := by
  induction as generalizing past with
  | nil => rfl
  | cons a as ih => rw [scan_cons, List.length_cons, List.length_cons, ih]

theorem scan_append : scan e past (as ++ bs) = scan e past as ++ scan e (past ++ as) bs := by
  induction as generalizing past with
  | nil => simp
  | cons a as ih =>
    rw [List.cons_append, scan_cons, ih, scan_cons, List.cons_append, List.append_assoc]
    rfl

/-- `d` undoes `e` at every input, when each has seen what the other has. -/
def Inverts (d e : List α → α → α) : Prop := ∀ past a, d (scan e [] past) (e past a) = a

theorem Inverts.scan (h : Inverts d e) (past as : List α) : scan d (scan e [] past) (scan e past as) = as := by
  induction as generalizing past with
  | nil => rfl
  | cons a as ih =>
    have hpast : Streaming.scan e [] past ++ [e past a] = Streaming.scan e [] (past ++ [a]) := by
      rw [scan_append, List.nil_append, scan_cons, scan_nil]
    rw [scan_cons, scan_cons, h, hpast, ih]

/-- A cipher that looks at the position only. -/
def pad (ks : Nat → α → α) (past : List α) (a : α) : α := ks past.length a

theorem scan_pad {ks : Nat → α → α} : scan (pad ks) past as = as.mapIdx fun i => ks (past.length + i) := by
  induction as generalizing past with
  | nil => rfl
  | cons a as ih =>
    rw [scan_cons, ih, List.mapIdx_cons]
    simp only [pad, List.length_append, List.length_singleton, Nat.add_zero, Nat.add_assoc, Nat.add_comm 1]

theorem inverts_pad {ks : Nat → α → α} (h : ∀ i a, ks i (ks i a) = a) : Inverts (pad ks) (pad ks) := by
  intro past a
  rw [pad, pad, length_scan, h]

end Streaming
