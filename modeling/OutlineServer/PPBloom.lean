import Mathlib.Data.List.Basic
import Mathlib.Logic.Function.Basic

/-!
# The replay filter (`libbloom/bloom.c`, `ppbloom.c`)

A Bloom filter and the pair of them that `ppbloom_add` fills in turn. `murmurhash2` is a parameter; the
sizes that `bloom_init` computes in floating point are arguments. `PPBloom.Lives f x n` says that `x` is
reported whatever the next `n` items are; an item that is added lives for `entries - 1` further ones
(`lives_ppbloom_add`), so that the last `n / 2` ones of any sequence are reported (`ppbloom_remembers`).
-/

namespace OutlineServer

abbrev Bytes := List UInt8

abbrev Murmur := Bytes → UInt32 → UInt32

/-! ### `bloom.c` -/

structure Bloom where
  hashes : Nat
  bits : Nat
  ready : Bool
  bf : Nat → Bool

def bloom_init (hashes bits : Nat) : Bloom := ⟨hashes, bits, true, fun _ => false⟩

/-- The loop of `bloom_check_add` over the bits `xs` of an element. -/
def bloomLoop (add : Bool) : List Nat → Bloom → Nat → Int × Bloom
  | [], b, hits => (if hits = b.hashes then 1 else 0, b)
  | x :: xs, b, hits =>
    if b.bf x then bloomLoop add xs b (hits + 1)
    else if !add then (0, b)
    else bloomLoop add xs { b with bf := Function.update b.bf x true } hits

section
variable (murmurhash2 : Murmur)

def Bloom.probes (b : Bloom) (buffer : Bytes) : List Nat :=
  let h := murmurhash2 buffer 0x9747b28c
  let h' := murmurhash2 buffer h
  (List.range b.hashes).map fun i => (h + UInt32.ofNat i * h').toNat % b.bits

def bloom_check_add (b : Bloom) (buffer : Bytes) (add : Bool) : Int × Bloom :=
  if !b.ready then (-1, b) else bloomLoop add (b.probes murmurhash2 buffer) b 0

def bloom_check (b : Bloom) (buffer : Bytes) : Int := (bloom_check_add murmurhash2 b buffer false).1

def bloom_add (b : Bloom) (buffer : Bytes) : Int × Bloom := bloom_check_add murmurhash2 b buffer true

end

def bloom_reset (b : Bloom) : Bloom := if !b.ready then b else { b with bf := fun _ => false }

/-! ### `ppbloom.c` -/

inductive Side
  | ping
  | pong
deriving DecidableEq

def Side.other : Side → Side
  | .ping => .pong
  | .pong => .ping

structure PPBloom where
  ppbloom : Side → Bloom
  bloom_count : Side → Nat
  current : Side
  entries : Nat

/-- `ppbloom_init n e`, with the sizes that `bloom_init` computes from `n / 2` and `e`. -/
def ppbloom_init (n hashes bits : Nat) : PPBloom where
  ppbloom _ := bloom_init hashes bits
  bloom_count _ := 0
  current := .ping
  entries := n / 2

section
variable (murmurhash2 : Murmur)

def ppbloom_check (f : PPBloom) (buffer : Bytes) : Int :=
  let ret := bloom_check murmurhash2 (f.ppbloom .ping) buffer
  if ret ≠ 0 then ret
  else
    let ret := bloom_check murmurhash2 (f.ppbloom .pong) buffer
    if ret ≠ 0 then ret else 0

/-- `ppbloom_add`: every caller ignores its return value. -/
def ppbloom_add (f : PPBloom) (buffer : Bytes) : PPBloom :=
  let r := bloom_add murmurhash2 (f.ppbloom f.current) buffer
  if r.1 = -1 then f
  else
    let f := { f with
      ppbloom := Function.update f.ppbloom f.current r.2
      bloom_count := Function.update f.bloom_count f.current (f.bloom_count f.current + 1) }
    if f.entries ≤ f.bloom_count f.current then
      let current := f.current.other
      { f with
        bloom_count := Function.update f.bloom_count f.current 0
        current
        ppbloom := Function.update f.ppbloom current (bloom_reset (f.ppbloom current)) }
    else f

end

/-! ### One filter has no false negatives -/

variable {murmurhash2 : Murmur} {b : Bloom} {x y : Bytes}

theorem bloomLoop_check (xs : List Nat) (b : Bloom) (hits : Nat) (hh : hits + xs.length = b.hashes) :
    bloomLoop false xs b hits = (if ∀ i ∈ xs, b.bf i = true then 1 else 0, b) := by
  induction xs generalizing hits with
  | nil => simp_all [bloomLoop]
  | cons i xs ih =>
    simp only [bloomLoop, Bool.not_false, ↓reduceIte, List.forall_mem_cons]
    by_cases hi : b.bf i = true
    · rw [if_pos hi, ih (hits + 1) (by rw [← hh, List.length_cons]; omega)]
      simp [hi]
    · rw [if_neg hi, if_neg (fun h => hi h.1)]

theorem bloomLoop_add (xs : List Nat) (b : Bloom) (hits : Nat) :
    ((bloomLoop true xs b hits).1 = 0 ∨ (bloomLoop true xs b hits).1 = 1) ∧
      ∃ bf, (bloomLoop true xs b hits).2 = { b with bf := bf } ∧ ∀ i, bf i = true ↔ b.bf i = true ∨ i ∈ xs := by
  induction xs generalizing b hits with
  | nil =>
    refine ⟨?_, b.bf, rfl, by simp⟩
    simp only [bloomLoop]
    split <;> simp
  | cons j xs ih =>
    simp only [bloomLoop, Bool.not_true, Bool.false_eq_true, ↓reduceIte]
    split
    · rename_i hj
      obtain ⟨hr, bf, hb, hbf⟩ := ih b (hits + 1)
      refine ⟨hr, bf, hb, fun i => ?_⟩
      rw [hbf, List.mem_cons]
      constructor
      · rintro (h | h)
        · exact .inl h
        · exact .inr (.inr h)
      · rintro (h | rfl | h)
        · exact .inl h
        · exact .inl hj
        · exact .inr h
    · obtain ⟨hr, bf, hb, hbf⟩ := ih { b with bf := Function.update b.bf j true } hits
      refine ⟨hr, bf, hb, fun i => ?_⟩
      rw [hbf, List.mem_cons]
      by_cases hij : i = j
      · subst hij
        simp
      · simp [hij]

theorem length_probes : (b.probes murmurhash2 x).length = b.hashes := by simp [Bloom.probes]

theorem bloom_check_eq_one (hr : b.ready = true) :
    bloom_check murmurhash2 b x = 1 ↔ ∀ i ∈ b.probes murmurhash2 x, b.bf i = true := by
  simp only [bloom_check, bloom_check_add, hr, Bool.not_true, Bool.false_eq_true, ↓reduceIte]
  rw [bloomLoop_check _ _ _ (by rw [length_probes, Nat.zero_add])]
  simp

theorem bloom_check_zero_or_one (hr : b.ready = true) :
    bloom_check murmurhash2 b x = 0 ∨ bloom_check murmurhash2 b x = 1 := by
  simp only [bloom_check, bloom_check_add, hr, Bool.not_true, Bool.false_eq_true, ↓reduceIte]
  rw [bloomLoop_check _ _ _ (by rw [length_probes, Nat.zero_add])]
  simp only
  split <;> simp

theorem bloom_add_eq (murmurhash2 : Murmur) (x : Bytes) (hr : b.ready = true) :
    (bloom_add murmurhash2 b x).1 ≠ -1 ∧ ∃ bf, (bloom_add murmurhash2 b x).2 = { b with bf := bf } ∧
      ∀ i, bf i = true ↔ b.bf i = true ∨ i ∈ b.probes murmurhash2 x := by
  rw [bloom_add, bloom_check_add, if_neg (by simp [hr])]
  obtain ⟨h, hb⟩ := bloomLoop_add (b.probes murmurhash2 x) b 0
  refine ⟨?_, hb⟩
  rcases h with h | h <;> rw [h] <;> decide

theorem bloom_add_ready (hr : b.ready = true) : (bloom_add murmurhash2 b x).2.ready = true := by
  obtain ⟨-, bf, hb, -⟩ := bloom_add_eq murmurhash2 x hr
  rw [hb]
  exact hr

theorem bloom_check_add_self (hr : b.ready = true) :
    bloom_check murmurhash2 (bloom_add murmurhash2 b x).2 x = 1 := by
  obtain ⟨-, bf, hb, hbf⟩ := bloom_add_eq murmurhash2 x hr
  rw [hb]
  refine (bloom_check_eq_one (b := { b with bf := bf }) hr).2 ?_
  exact fun i hi => (hbf i).2 (.inr hi)

theorem bloom_check_add_of_check (hr : b.ready = true) (hy : bloom_check murmurhash2 b y = 1) :
    bloom_check murmurhash2 (bloom_add murmurhash2 b x).2 y = 1 := by
  obtain ⟨-, bf, hb, hbf⟩ := bloom_add_eq murmurhash2 x hr
  rw [hb]
  refine (bloom_check_eq_one (b := { b with bf := bf }) hr).2 ?_
  intro i hi
  exact (hbf i).2 (.inl ((bloom_check_eq_one hr).1 hy i hi))

/-! ### The pair remembers the last `entries` items -/

namespace PPBloom

variable {f : PPBloom} {n : Nat}

/-- Both filters are ready; the one being filled has room, and the other one counts from zero. -/
structure WF (f : PPBloom) : Prop where
  ready : ∀ s, (f.ppbloom s).ready = true
  room : f.bloom_count f.current < f.entries
  other : f.bloom_count f.current.other = 0

/-- `x` is reported now and after any `n` further items. -/
def Lives (murmurhash2 : Murmur) (f : PPBloom) (x : Bytes) (n : Nat) : Prop :=
  bloom_check murmurhash2 (f.ppbloom f.current) x = 1 ∧ f.bloom_count f.current + n < 2 * f.entries ∨
    bloom_check murmurhash2 (f.ppbloom f.current.other) x = 1 ∧ f.bloom_count f.current + n < f.entries

theorem Lives.mono {k : Nat} (h : f.Lives murmurhash2 x n) (hk : k ≤ n) : f.Lives murmurhash2 x k := by
  rcases h with ⟨hx, hn⟩ | ⟨hx, hn⟩
  · exact .inl ⟨hx, by omega⟩
  · exact .inr ⟨hx, by omega⟩

end PPBloom

open PPBloom

variable {f : PPBloom} {n : Nat}

theorem Side.other_ne (s : Side) : s.other ≠ s := by
  cases s <;> decide

theorem Side.other_other (s : Side) : s.other.other = s := by
  cases s <;> rfl

theorem ppbloom_check_eq_one (h : f.WF) :
    ppbloom_check murmurhash2 f x = 1 ↔ ∃ s, bloom_check murmurhash2 (f.ppbloom s) x = 1 := by
  have hping : bloom_check murmurhash2 (f.ppbloom .ping) x = 0 ∨ _ := bloom_check_zero_or_one (h.ready .ping)
  have hpong : bloom_check murmurhash2 (f.ppbloom .pong) x = 0 ∨ _ := bloom_check_zero_or_one (h.ready .pong)
  simp only [ppbloom_check]
  constructor
  · intro hx
    rcases hping with h0 | h1
    · simp only [h0, ne_eq, not_true_eq_false, ↓reduceIte] at hx
      rcases hpong with h0' | h1'
      · simp [h0'] at hx
      · exact ⟨_, h1'⟩
    · exact ⟨_, h1⟩
  · rintro ⟨s, hs⟩
    cases s with
    | ping => simp [hs]
    | pong => rcases hping with h0 | h1 <;> simp [*]

theorem PPBloom.Lives.check (h : f.WF) (hx : f.Lives murmurhash2 x n) : ppbloom_check murmurhash2 f x = 1 := by
  rw [ppbloom_check_eq_one h]
  rcases hx with ⟨hx, -⟩ | ⟨hx, -⟩
  · exact ⟨_, hx⟩
  · exact ⟨_, hx⟩

/-- The two outcomes of `ppbloom_add`: the filter being filled still has room, or the other one is emptied
and filled from now on. -/
theorem ppbloom_add_cases (murmurhash2 : Murmur) (h : f.WF) (x : Bytes) :
    (f.bloom_count f.current + 1 < f.entries ∧ ppbloom_add murmurhash2 f x = { f with
      ppbloom := Function.update f.ppbloom f.current (bloom_add murmurhash2 (f.ppbloom f.current) x).2
      bloom_count := Function.update f.bloom_count f.current (f.bloom_count f.current + 1) }) ∨
    (f.bloom_count f.current + 1 = f.entries ∧ ppbloom_add murmurhash2 f x = { f with
      ppbloom := Function.update (Function.update f.ppbloom f.current
        (bloom_add murmurhash2 (f.ppbloom f.current) x).2) f.current.other
          (bloom_reset (f.ppbloom f.current.other))
      bloom_count := Function.update f.bloom_count f.current 0
      current := f.current.other }) := by
  have hroom := h.room
  have hadd : (bloom_add murmurhash2 (f.ppbloom f.current) x).1 ≠ -1 := (bloom_add_eq _ x (h.ready _)).1
  simp only [ppbloom_add, hadd, ↓reduceIte, Function.update_self]
  by_cases hfull : f.entries ≤ f.bloom_count f.current + 1
  · refine .inr ⟨by omega, ?_⟩
    simp only [hfull, ↓reduceIte, Function.update_idem, Function.update_of_ne f.current.other_ne]
  · exact .inl ⟨by omega, by simp only [hfull, ↓reduceIte]⟩

theorem bloom_reset_ready (hr : b.ready = true) : (bloom_reset b).ready = true := by
  simp [bloom_reset, hr]

theorem ppbloom_add_entries (h : f.WF) (x : Bytes) : (ppbloom_add murmurhash2 f x).entries = f.entries := by
  rcases ppbloom_add_cases murmurhash2 h x with ⟨-, he⟩ | ⟨-, he⟩ <;> rw [he]

theorem ppbloom_add_wf (h : f.WF) (x : Bytes) : (ppbloom_add murmurhash2 f x).WF := by
  have hr := h.ready f.current
  have ho := h.ready f.current.other
  rcases ppbloom_add_cases murmurhash2 h x with ⟨hn, he⟩ | ⟨hn, he⟩
  · rw [he]
    refine ⟨fun s => ?_, by simpa using hn, ?_⟩
    · by_cases hs : s = f.current
      · subst hs
        simpa using bloom_add_ready hr
      · simpa [hs] using h.ready s
    · simp only [Function.update_of_ne f.current.other_ne]
      exact h.other
  · rw [he]
    refine ⟨fun s => ?_, ?_, by simp [Side.other_other]⟩
    · by_cases hs : s = f.current.other
      · subst hs
        simpa using bloom_reset_ready ho
      · by_cases hs' : s = f.current
        · subst hs'
          simpa [Function.update_of_ne hs] using bloom_add_ready hr
        · simpa [hs, hs'] using h.ready s
    · simp only [Function.update_of_ne f.current.other_ne, h.other]
      omega

/-- An item that was just added lives for `entries - 1` others. -/
theorem lives_ppbloom_add (h : f.WF) (x : Bytes) :
    (ppbloom_add murmurhash2 f x).Lives murmurhash2 x (f.entries - 1) := by
  have hself : bloom_check murmurhash2 (bloom_add murmurhash2 (f.ppbloom f.current) x).2 x = 1 :=
    bloom_check_add_self (h.ready _)
  have hroom := h.room
  rcases ppbloom_add_cases murmurhash2 h x with ⟨hn, he⟩ | ⟨hn, he⟩
  · rw [he]
    refine .inl ⟨?_, ?_⟩
    · simpa using hself
    · simp only [Function.update_self]
      omega
  · rw [he]
    refine .inr ⟨?_, ?_⟩
    · simpa [Side.other_other, Function.update_of_ne f.current.other_ne.symm] using hself
    · simp only [Function.update_of_ne f.current.other_ne, h.other]
      omega

theorem PPBloom.Lives.add (h : f.WF) (hy : f.Lives murmurhash2 y (n + 1)) (x : Bytes) :
    (ppbloom_add murmurhash2 f x).Lives murmurhash2 y n := by
  have hr := h.ready f.current
  rcases ppbloom_add_cases murmurhash2 h x with ⟨hn, he⟩ | ⟨hn, he⟩
  · rw [he]
    rcases hy with ⟨hy, hlt⟩ | ⟨hy, hlt⟩
    · refine .inl ⟨?_, ?_⟩
      · simpa using bloom_check_add_of_check hr hy
      · simp only [Function.update_self]
        omega
    · refine .inr ⟨?_, ?_⟩
      · simpa [Function.update_of_ne f.current.other_ne] using hy
      · simp only [Function.update_self]
        omega
  · rw [he]
    rcases hy with ⟨hy, hlt⟩ | ⟨hy, hlt⟩
    · refine .inr ⟨?_, ?_⟩
      · simpa [Side.other_other, Function.update_of_ne f.current.other_ne.symm] using
          bloom_check_add_of_check hr hy
      · simp only [Function.update_of_ne f.current.other_ne, h.other]
        omega
    -- an item of the filter that is emptied has no life left
    · omega

theorem ppbloom_init_wf {hashes bits : Nat} (hn : 2 ≤ n) : (ppbloom_init n hashes bits).WF where
  ready _ := rfl
  room := by simp only [ppbloom_init]; omega
  other := rfl

/-- An empty filter reports nothing. -/
theorem ppbloom_check_init {hashes bits : Nat} (hh : 0 < hashes) :
    ppbloom_check murmurhash2 (ppbloom_init n hashes bits) x = 0 := by
  have h : bloom_check murmurhash2 (bloom_init hashes bits) x = 0 := by
    have hb : bloom_check murmurhash2 (bloom_init hashes bits) x = 0 ∨ _ := bloom_check_zero_or_one rfl
    rcases hb with h | h
    · exact h
    · have hlen : 0 < ((bloom_init hashes bits).probes murmurhash2 x).length := by
        rw [length_probes]
        exact hh
      have := (bloom_check_eq_one rfl).1 h _ (List.getElem_mem hlen)
      cases this
  simp [ppbloom_check, ppbloom_init, h]

/-! ### A sequence of additions -/

theorem foldl_ppbloom_add_wf (h : f.WF) (xs : List Bytes) : (xs.foldl (ppbloom_add murmurhash2) f).WF := by
  induction xs generalizing f with
  | nil => exact h
  | cons x xs ih => exact ih (ppbloom_add_wf h x)

theorem foldl_ppbloom_add_entries (h : f.WF) (xs : List Bytes) :
    (xs.foldl (ppbloom_add murmurhash2) f).entries = f.entries := by
  induction xs generalizing f with
  | nil => rfl
  | cons x xs ih => exact (ih (ppbloom_add_wf h x)).trans (ppbloom_add_entries h x)

theorem PPBloom.Lives.foldl (h : f.WF) (xs : List Bytes) (hy : f.Lives murmurhash2 y (n + xs.length)) :
    (xs.foldl (ppbloom_add murmurhash2) f).Lives murmurhash2 y n := by
  induction xs generalizing f with
  | nil => exact hy
  | cons x xs ih => exact ih (ppbloom_add_wf h x) (hy.add h x)

/-- The pair remembers the last `n / 2` items. -/
theorem ppbloom_remembers (murmurhash2 : Murmur) {n : Nat} (hn : 2 ≤ n) (hashes bits : Nat) (xs : List Bytes) :
    ∀ x ∈ xs.drop (xs.length - n / 2),
      ppbloom_check murmurhash2 (xs.foldl (ppbloom_add murmurhash2) (ppbloom_init n hashes bits)) x = 1 := by
  intro x hx
  -- `t` is what is added after `x`
  obtain ⟨s, t, hst⟩ := List.append_of_mem hx
  have hlen : s.length + t.length + 1 ≤ n / 2 := by
    have := congrArg List.length hst
    simp only [List.length_drop, List.length_append, List.length_cons] at this
    omega
  have hxs : xs = xs.take (xs.length - n / 2) ++ s ++ x :: t := by
    rw [List.append_assoc, ← hst, List.take_append_drop]
  generalize xs.take (xs.length - n / 2) ++ s = before at hxs
  have hinit : (ppbloom_init n hashes bits).WF := ppbloom_init_wf hn
  have hbefore := (@foldl_ppbloom_add_wf murmurhash2) hinit before
  have hlives := (@lives_ppbloom_add murmurhash2) hbefore x
  rw [foldl_ppbloom_add_entries hinit before] at hlives
  rw [hxs, List.foldl_append, List.foldl_cons]
  refine Lives.check (n := 0) (foldl_ppbloom_add_wf (ppbloom_add_wf hbefore x) t) ?_
  refine Lives.foldl (ppbloom_add_wf hbefore x) t (hlives.mono ?_)
  simp only [ppbloom_init]
  omega

theorem ppbloom_remembers_three :
    ppbloom_check (fun _ seed => seed)
      ([[1], [2], [3]].foldl (ppbloom_add fun _ seed => seed) (ppbloom_init 4 2 8)) [2] = 1 :=
  ppbloom_remembers (fun _ seed => seed) (by decide) 2 8 [[1], [2], [3]] [2] (by decide)

end OutlineServer
