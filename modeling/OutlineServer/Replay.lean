import OutlineServer.Crypto
import OutlineServer.Lib.Trans

/-!
# Contexts and calls that share one replay filter

A `Decryptor` is what the crypto code offers to decrypt with: contexts that are fed the segments of a
stream, and calls for whole datagrams. `replaySystem` is a process with any number of contexts and calls,
interleaved with whatever else adds to the filter. It keeps a history of the calls that returned
`CRYPTO_OK`, with the salts that they had been presented with, and of all items added to the filter.

A decryptor is `Guarded` if the first `CRYPTO_OK` of a context, and every one of a call, comes with a salt that
the filter does not report and that is then added. Two contexts or calls with one salt then have at least
`entries` items added between them (`Guarded.apart`).
-/

namespace OutlineServer

structure Decryptor where
  Ctx : Type
  fresh : Ctx → Prop
  salt_len : Nat
  decrypt : CryptoState → Buffer → Ctx → C (CryptoRet × Buffer × Ctx × CryptoState)
  decrypt_all : CryptoState → Buffer → C (CryptoRet × Buffer × CryptoState)

/-- A context, by its number, or a call of `decrypt_all`, by the number of calls before it. -/
inductive Source
  | ctx (i : Nat)
  | call (i : Nat)
deriving DecidableEq

/-- The process with its history: the bytes that contexts have been fed, the number of calls of `decrypt_all`,
the sources that have returned `CRYPTO_OK` with the salts they were presented with, and the items added to the
filter, with the source whose first success it was. -/
structure Process (D : Decryptor) where
  g : CryptoState
  ctx : Nat → D.Ctx
  fed : Nat → Bytes
  calls : Nat
  oks : List (Source × Bytes)
  adds : List (Option Source × Bytes)

inductive ProcessEvent
  | feed (i : Nat) (b : Buffer)
  | all (b : Buffer)
  | add (x : Bytes)
  | other

variable {D : Decryptor} {murmurhash2 : Murmur}

/-- The source `src` has returned `ret` after it was presented with `x`. -/
def Process.answer (p : Process D) (src : Source) (x : Bytes) (ret : CryptoRet) : Process D :=
  if ret = .CRYPTO_OK then { p with
    oks := p.oks ++ [(src, x)]
    adds := if src ∈ p.oks.map (·.1) then p.adds else p.adds ++ [(some src, x)] }
  else p

def Process.feed (p : Process D) (i : Nat) (b : Buffer) : C (Process D) := do
  let (ret, _, ctx, g) ← D.decrypt p.g b (p.ctx i)
  return Process.answer { p with
    g
    ctx := Function.update p.ctx i ctx
    fed := Function.update p.fed i (p.fed i ++ b.bytes) } (.ctx i) ((p.fed i ++ b.bytes).take D.salt_len) ret

def Process.all (p : Process D) (b : Buffer) : C (Process D) := do
  let (ret, _, g) ← D.decrypt_all p.g b
  return Process.answer { p with g, calls := p.calls + 1 } (.call p.calls) (b.bytes.take D.salt_len) ret

inductive Process.Step (D : Decryptor) (murmurhash2 : Murmur) : Process D → ProcessEvent → Process D → Prop
  | feed {p p' : Process D} {i : Nat} {b : Buffer} (hb : b.len ≤ b.capacity) (h : p.feed i b = .ok p') :
      Step D murmurhash2 p (.feed i b) p'
  | all {p p' : Process D} {b : Buffer} (hb : b.len ≤ b.capacity) (h : p.all b = .ok p') :
      Step D murmurhash2 p (.all b) p'
  /-- An encrypting context adds its salt. -/
  | add {p : Process D} {x : Bytes} {g : CryptoState} (h : g.bloom = ppbloom_add murmurhash2 p.g.bloom x) :
      Step D murmurhash2 p (.add x) { p with g, adds := p.adds ++ [(none, x)] }
  | other {p : Process D} {g : CryptoState} (h : g.bloom = p.g.bloom) : Step D murmurhash2 p .other { p with g }

def replaySystem (D : Decryptor) (murmurhash2 : Murmur) (f : PPBloom) : Lts (Process D) ProcessEvent where
  init p := p.g.bloom = f ∧ (∀ i, D.fresh (p.ctx i)) ∧ (∀ i, p.fed i = []) ∧ p.calls = 0 ∧ p.oks = [] ∧ p.adds = []
  step := Process.Step D murmurhash2

/-! ### Guarded decryptors -/

/-- What a call does with the filter `f` for a source presented with `x` that has (`won`) or has not succeeded
before. -/
inductive Filtered (murmurhash2 : Murmur) (f : PPBloom) (x : Bytes) : Bool → CryptoRet → Bool → PPBloom → Prop
  | quiet {won : Bool} {ret : CryptoRet} (h : ret ≠ .CRYPTO_OK) : Filtered murmurhash2 f x won ret won f
  | again : Filtered murmurhash2 f x true .CRYPTO_OK true f
  | first (h : ppbloom_check murmurhash2 f x ≠ 1) :
      Filtered murmurhash2 f x false .CRYPTO_OK true (ppbloom_add murmurhash2 f x)

theorem Filtered.error {f : PPBloom} {x : Bytes} {won : Bool} :
    Filtered murmurhash2 f x won .CRYPTO_ERROR won f := .quiet (by decide)

theorem Filtered.needMore {f : PPBloom} {x : Bytes} {won : Bool} :
    Filtered murmurhash2 f x won .CRYPTO_NEED_MORE won f := .quiet (by decide)

/-- `Inv fed won ctx`: a context that has been fed `fed` and has (`won`) or has not succeeded. -/
structure Guarded (D : Decryptor) (murmurhash2 : Murmur) (Inv : Bytes → Bool → D.Ctx → Prop) : Prop where
  fresh : ∀ {ctx}, D.fresh ctx → Inv [] false ctx
  salt_le : ∀ {fed ctx}, Inv fed true ctx → D.salt_len ≤ fed.length
  decrypt : ∀ {g g' b b' ctx ctx' ret fed won}, Inv fed won ctx → b.len ≤ b.capacity →
    D.decrypt g b ctx = .ok (ret, b', ctx', g') → ∃ won', Inv (fed ++ b.bytes) won' ctx' ∧
      Filtered murmurhash2 g.bloom ((fed ++ b.bytes).take D.salt_len) won ret won' g'.bloom
  decrypt_all : ∀ {g g' b b' ret}, b.len ≤ b.capacity → D.decrypt_all g b = .ok (ret, b', g') →
    ∃ won', Filtered murmurhash2 g.bloom (b.bytes.take D.salt_len) false ret won' g'.bloom

/-! ### The filter after a list of additions -/

def PPBloom.addAll (murmurhash2 : Murmur) (f : PPBloom) (xs : List Bytes) : PPBloom :=
  xs.foldl (ppbloom_add murmurhash2) f

theorem addAll_wf {f : PPBloom} (h : f.WF) (xs : List Bytes) :
    (f.addAll murmurhash2 xs).WF ∧ (f.addAll murmurhash2 xs).entries = f.entries := by
  induction xs generalizing f with
  | nil => exact ⟨h, rfl⟩
  | cons x xs ih =>
    have hadd : (ppbloom_add murmurhash2 f x).WF := ppbloom_add_wf h x
    obtain ⟨hwf, he⟩ := ih hadd
    exact ⟨hwf, he.trans (ppbloom_add_entries h x)⟩

theorem lives_addAll {f : PPBloom} (h : f.WF) {y : Bytes} {n : Nat} {xs : List Bytes}
    (hy : f.Lives murmurhash2 y (n + xs.length)) : (f.addAll murmurhash2 xs).Lives murmurhash2 y n := by
  induction xs generalizing f with
  | nil => exact hy
  | cons x xs ih => exact ih (ppbloom_add_wf h x) (hy.add h x)

/-- Fewer than `entries` items later an item is still reported. -/
theorem check_addAll {f : PPBloom} (h : f.WF) {x : Bytes} {xs ys : List Bytes} (hlen : ys.length < f.entries) :
    ppbloom_check murmurhash2 (f.addAll murmurhash2 (xs ++ x :: ys)) x = 1 := by
  obtain ⟨hwf, he⟩ : (f.addAll murmurhash2 xs).WF ∧ _ := addAll_wf h xs
  rw [PPBloom.addAll, List.foldl_append, List.foldl_cons]
  have hlives : (ppbloom_add murmurhash2 _ x).Lives murmurhash2 x (0 + ys.length) :=
    (lives_ppbloom_add hwf x).mono (by omega)
  exact (lives_addAll (ppbloom_add_wf hwf x) hlives).check (addAll_wf (ppbloom_add_wf hwf x) ys).1

/-! ### Runs -/

/-- The filter and the history of a process that started with the filter `f`. -/
structure Process.History (murmurhash2 : Murmur) (f : PPBloom) (p : Process D) : Prop where
  bloom : p.g.bloom = f.addAll murmurhash2 (p.adds.map (·.2))
  mem : ∀ a x, (a, x) ∈ p.oks → (some a, x) ∈ p.adds
  /-- Whoever succeeds does so long after his salt was added last. -/
  apart : ∀ l₁ l₂ l₃ a b x, p.adds = l₁ ++ (a, x) :: l₂ ++ (some b, x) :: l₃ → f.entries ≤ l₂.length

theorem eq_append_cons_append_cons {α : Type} {l l₁ l₂ l₃ : List α} {a b c : α}
    (h : l ++ [c] = l₁ ++ a :: l₂ ++ b :: l₃) :
    (l₃ = [] ∧ b = c ∧ l = l₁ ++ a :: l₂) ∨ ∃ l₃', l = l₁ ++ a :: l₂ ++ b :: l₃' := by
  rcases List.eq_nil_or_concat l₃ with rfl | ⟨l₃', d, rfl⟩
  · obtain ⟨h₁, h₂⟩ := List.append_inj' h rfl
    exact .inl ⟨rfl, by simpa using h₂.symm, h₁⟩
  · right
    refine ⟨l₃', ?_⟩
    rw [List.concat_eq_append, ← List.cons_append, ← List.append_assoc] at h
    exact (List.append_inj' h rfl).1

theorem Process.History.add {f : PPBloom} (hf : f.WF) {p q : Process D} (h : p.History murmurhash2 f)
    {s : Option Source} {x : Bytes} (hs : s ≠ none → ppbloom_check murmurhash2 p.g.bloom x ≠ 1)
    (hg : q.g.bloom = ppbloom_add murmurhash2 p.g.bloom x) (hadds : q.adds = p.adds ++ [(s, x)])
    (hoks : ∀ a y, (a, y) ∈ q.oks → (a, y) ∈ p.oks ∨ (some a, y) = (s, x)) : q.History murmurhash2 f := by
  refine ⟨?_, ?_, ?_⟩
  · rw [hg, h.bloom, hadds, List.map_append, PPBloom.addAll, PPBloom.addAll, List.foldl_append]
    rfl
  · intro a y hy
    rw [hadds]
    rcases hoks a y hy with hy | hy
    · exact List.mem_append_left _ (h.mem a y hy)
    · rw [hy]
      exact List.mem_append_right _ List.mem_cons_self
  · intro l₁ l₂ l₃ a b y hcut
    rw [hadds] at hcut
    rcases eq_append_cons_append_cons hcut with ⟨-, hb, hl⟩ | ⟨l₃', hl⟩
    · -- the new item is the later one, so the filter did not report it
      cases hb
      by_contra hlen
      refine hs (by simp) ?_
      rw [h.bloom, hl, List.map_append, List.map_cons]
      exact check_addAll hf (by rw [List.length_map]; omega)
    · exact h.apart l₁ l₂ l₃' a b y hl

theorem Process.mem_answer_oks {p : Process D} {src a : Source} {x y : Bytes} {ret : CryptoRet} :
    (a, y) ∈ (p.answer src x ret).oks ↔ (a, y) ∈ p.oks ∨ ret = .CRYPTO_OK ∧ a = src ∧ y = x := by
  by_cases hret : ret = .CRYPTO_OK <;> simp [Process.answer, hret]

def Process.won (p : Process D) (a : Source) : Bool := a ∈ p.oks.map (·.1)

theorem Process.won_iff {p : Process D} {a : Source} : p.won a = true ↔ ∃ x, (a, x) ∈ p.oks := by
  simp [Process.won]

theorem Process.won_answer (p : Process D) (src a : Source) (x : Bytes) (ret : CryptoRet) :
    (p.answer src x ret).won a = (p.won a || decide (ret = .CRYPTO_OK ∧ a = src)) := by
  rw [Bool.eq_iff_iff, Bool.or_eq_true, Process.won_iff, Process.won_iff, decide_eq_true_eq]
  constructor
  · rintro ⟨y, hy⟩
    rcases Process.mem_answer_oks.1 hy with hy | ⟨hret, ha, -⟩
    · exact .inl ⟨y, hy⟩
    · exact .inr ⟨hret, ha⟩
  · rintro (⟨y, hy⟩ | ⟨hret, ha⟩)
    · exact ⟨y, Process.mem_answer_oks.2 (.inl hy)⟩
    · exact ⟨x, Process.mem_answer_oks.2 (.inr ⟨hret, ha, rfl⟩)⟩

theorem Filtered.won_eq {f f' : PPBloom} {x : Bytes} {won won' : Bool} {ret : CryptoRet}
    (h : Filtered murmurhash2 f x won ret won' f') : won' = (won || decide (ret = .CRYPTO_OK)) := by
  rcases h with h | _ | _
  · simp [h]
  · rfl
  · rfl

/-- The history after the answer to a source that has been presented with one salt only. -/
theorem Process.History.answer {f : PPBloom} (hf : f.WF) {p q : Process D} (h : p.History murmurhash2 f)
    (hq : q.oks = p.oks ∧ q.adds = p.adds) {src : Source} {x : Bytes} {ret : CryptoRet} {won' : Bool}
    (hF : Filtered murmurhash2 p.g.bloom x (p.won src) ret won' q.g.bloom)
    (hx : ∀ y, (src, y) ∈ p.oks → y = x) : (q.answer src x ret).History murmurhash2 f := by
  obtain ⟨hoks, hadds⟩ := hq
  generalize hb : q.g.bloom = bloom at hF
  generalize hw : p.won src = won at hF
  rcases hF with hret | _ | hcheck
  · -- nothing happened
    refine ⟨?_, ?_, ?_⟩
    all_goals simp only [Process.answer, hret, ↓reduceIte, hoks, hadds, hb]
    · exact h.bloom
    · exact h.mem
    · exact h.apart
  · -- a source that has succeeded before
    obtain ⟨y, hy⟩ := Process.won_iff.1 hw
    have hmem : src ∈ q.oks.map (·.1) := by
      rw [hoks]
      exact List.mem_map_of_mem hy
    refine ⟨?_, ?_, ?_⟩
    · simp only [Process.answer, ↓reduceIte, hmem, hadds, hb]
      exact h.bloom
    · intro a z hz
      simp only [Process.answer, ↓reduceIte, hmem, hadds]
      rcases Process.mem_answer_oks.1 hz with hz | ⟨-, rfl, rfl⟩
      · rw [hoks] at hz
        exact h.mem a z hz
      · rw [← hx y hy]
        exact h.mem _ y hy
    · simp only [Process.answer, ↓reduceIte, hmem, hadds]
      exact h.apart
  · -- the first success of the source
    have hmem : src ∉ q.oks.map (·.1) := by
      intro hm
      rw [hoks] at hm
      have : p.won src = true := by simpa [Process.won] using hm
      rw [hw] at this
      cases this
    refine h.add hf (fun _ => hcheck) ?_ (s := some src) ?_ ?_
    · simp only [Process.answer, ↓reduceIte, hb]
    · simp only [Process.answer, ↓reduceIte, hmem, hadds]
    · intro a y hy
      rcases Process.mem_answer_oks.1 hy with hy | ⟨-, rfl, rfl⟩
      · rw [hoks] at hy
        exact .inl hy
      · exact .inr rfl

structure ReplayInv (murmurhash2 : Murmur) (Inv : Bytes → Bool → D.Ctx → Prop) (f : PPBloom) (p : Process D) :
    Prop where
  history : p.History murmurhash2 f
  ctx : ∀ i, Inv (p.fed i) (p.won (.ctx i)) (p.ctx i)
  fed : ∀ i x, (.ctx i, x) ∈ p.oks → x = (p.fed i).take D.salt_len
  calls : ∀ i x, (.call i, x) ∈ p.oks → i < p.calls

@[simp] theorem Process.answer_ctx (p : Process D) (src : Source) (x : Bytes) (ret : CryptoRet) :
    (p.answer src x ret).ctx = p.ctx := by
  rw [Process.answer]
  split <;> rfl

@[simp] theorem Process.answer_fed (p : Process D) (src : Source) (x : Bytes) (ret : CryptoRet) :
    (p.answer src x ret).fed = p.fed := by
  rw [Process.answer]
  split <;> rfl

@[simp] theorem Process.answer_calls (p : Process D) (src : Source) (x : Bytes) (ret : CryptoRet) :
    (p.answer src x ret).calls = p.calls := by
  rw [Process.answer]
  split <;> rfl

section
variable {Inv : Bytes → Bool → D.Ctx → Prop} {f : PPBloom} {p p' : Process D}

/-- The salt of a context that has succeeded does not change. -/
theorem ReplayInv.take_eq (hD : Guarded D murmurhash2 Inv) (h : ReplayInv murmurhash2 Inv f p) {i : Nat} {y : Bytes}
    (hy : (.ctx i, y) ∈ p.oks) (x : Bytes) : (p.fed i ++ x).take D.salt_len = y := by
  have hctx := h.ctx i
  rw [show p.won (.ctx i) = true from Process.won_iff.2 ⟨y, hy⟩] at hctx
  rw [List.take_append_of_le_length (hD.salt_le hctx)]
  exact (h.fed i y hy).symm

theorem ReplayInv.feed (hf : f.WF) (hD : Guarded D murmurhash2 Inv) (h : ReplayInv murmurhash2 Inv f p) {i : Nat}
    {b : Buffer} (hb : b.len ≤ b.capacity) (hs : p.feed i b = .ok p') : ReplayInv murmurhash2 Inv f p' := by
  obtain ⟨⟨ret, b', ctx, g⟩, hr, hs⟩ := C.bind_eq_ok hs
  cases hs
  obtain ⟨won', hInv, hF⟩ := hD.decrypt (h.ctx i) hb hr
  obtain ⟨q, hq, hg, hctx, hfed, hwon, hcalls, hoks, hadds⟩ : ∃ q : Process D, q = { p with
      g
      ctx := Function.update p.ctx i ctx
      fed := Function.update p.fed i (p.fed i ++ b.bytes) } ∧ q.g = g ∧ q.ctx = Function.update p.ctx i ctx ∧
      q.fed = Function.update p.fed i (p.fed i ++ b.bytes) ∧ q.won = p.won ∧ q.calls = p.calls ∧
      q.oks = p.oks ∧ q.adds = p.adds := ⟨_, rfl, rfl, rfl, rfl, rfl, rfl, rfl, rfl⟩
  rw [← hq]
  refine ⟨?_, ?_, ?_, ?_⟩
  · exact h.history.answer hf ⟨hoks, hadds⟩ (hg ▸ hF) fun y hy => (h.take_eq hD hy b.bytes).symm
  · intro j
    rw [Process.won_answer, Process.answer_ctx, Process.answer_fed, hctx, hfed, hwon]
    by_cases hij : j = i
    · subst hij
      simp only [Function.update_self, and_true, ← hF.won_eq]
      exact hInv
    · have hne : ¬ (ret = .CRYPTO_OK ∧ Source.ctx j = Source.ctx i) := fun ⟨_, h⟩ => hij (Source.ctx.inj h)
      simp only [Function.update_of_ne hij, hne, decide_false, Bool.or_false]
      exact h.ctx j
  · intro j x hx
    rw [Process.answer_fed, hfed]
    rcases Process.mem_answer_oks.1 hx with hy | ⟨-, hj, rfl⟩
    · rw [hoks] at hy
      by_cases hij : j = i
      · subst hij
        rw [Function.update_self]
        exact (h.take_eq hD hy b.bytes).symm
      · rw [Function.update_of_ne hij]
        exact h.fed j x hy
    · cases hj
      rw [Function.update_self]
  · intro j x hx
    rw [Process.answer_calls, hcalls]
    rcases Process.mem_answer_oks.1 hx with hx | ⟨-, hj, -⟩
    · rw [hoks] at hx
      exact h.calls j x hx
    · cases hj

theorem ReplayInv.all (hf : f.WF) (hD : Guarded D murmurhash2 Inv) (h : ReplayInv murmurhash2 Inv f p)
    {b : Buffer} (hb : b.len ≤ b.capacity) (hs : p.all b = .ok p') : ReplayInv murmurhash2 Inv f p' := by
  obtain ⟨⟨ret, b', g⟩, hr, hs⟩ := C.bind_eq_ok hs
  cases hs
  obtain ⟨won', hF⟩ := hD.decrypt_all hb hr
  have hnew : ∀ y, (.call p.calls, y) ∉ p.oks := fun y hy => Nat.lt_irrefl _ (h.calls _ y hy)
  have hwon : p.won (.call p.calls) = false := by
    rw [← Bool.not_eq_true, Process.won_iff]
    rintro ⟨y, hy⟩
    exact hnew y hy
  obtain ⟨q, hq, hg, hctx, hfed, hq', hcalls, hoks, hadds⟩ : ∃ q : Process D,
      q = { p with g, calls := p.calls + 1 } ∧ q.g = g ∧ q.ctx = p.ctx ∧ q.fed = p.fed ∧ q.won = p.won ∧
      q.calls = p.calls + 1 ∧ q.oks = p.oks ∧ q.adds = p.adds := ⟨_, rfl, rfl, rfl, rfl, rfl, rfl, rfl, rfl⟩
  rw [← hq]
  rw [← hwon, ← hg] at hF
  refine ⟨h.history.answer hf ⟨hoks, hadds⟩ hF fun y hy => absurd hy (hnew y), ?_, ?_, ?_⟩
  · intro j
    rw [Process.won_answer, Process.answer_ctx, Process.answer_fed, hctx, hfed, hq']
    have hne : ¬ (ret = .CRYPTO_OK ∧ Source.ctx j = Source.call p.calls) := fun ⟨_, h⟩ => Source.noConfusion h
    simp only [hne, decide_false, Bool.or_false]
    exact h.ctx j
  · intro j x hx
    rw [Process.answer_fed, hfed]
    rcases Process.mem_answer_oks.1 hx with hx | ⟨-, hj, -⟩
    · rw [hoks] at hx
      exact h.fed j x hx
    · cases hj
  · intro j x hx
    rw [Process.answer_calls, hcalls]
    rcases Process.mem_answer_oks.1 hx with hx | ⟨-, hj, -⟩
    · rw [hoks] at hx
      exact Nat.lt_succ_of_lt (h.calls j x hx)
    · cases hj
      exact Nat.lt_succ_self _

theorem ReplayInv.step (hf : f.WF) (hD : Guarded D murmurhash2 Inv) (h : ReplayInv murmurhash2 Inv f p)
    {e : ProcessEvent} (hs : Process.Step D murmurhash2 p e p') : ReplayInv murmurhash2 Inv f p' := by
  cases hs with
  | feed hb hr => exact h.feed hf hD hb hr
  | all hb hr => exact h.all hf hD hb hr
  | add hg =>
    exact ⟨h.history.add hf (fun hs => absurd rfl hs) hg rfl fun a y hy => .inl hy, h.ctx, h.fed, h.calls⟩
  | other hg => exact ⟨⟨hg.trans h.history.bloom, h.history.mem, h.history.apart⟩, h.ctx, h.fed, h.calls⟩

theorem replayInv_of_reach (hf : f.WF) (hD : Guarded D murmurhash2 Inv)
    (h : (replaySystem D murmurhash2 f).Reach p) : ReplayInv murmurhash2 Inv f p := by
  refine h.invariant ?_ fun s e s' _ hs hstep => hs.step hf hD hstep
  rintro p ⟨hg, hctx, hfed, hcalls, hoks, hadds⟩
  refine ⟨⟨?_, ?_, ?_⟩, ?_, ?_, ?_⟩
  · rw [hadds, hg]
    rfl
  · simp [hoks]
  · intro l₁ l₂ l₃ a b x hl
    rw [hadds] at hl
    exact absurd hl.symm (by simp)
  · intro i
    rw [hfed, Process.won, hoks]
    exact hD.fresh (hctx i)
  · simp [hoks]
  · simp [hoks]

/-- Two sources that have succeeded with one salt have added it at different times, with `entries` other items
in between. -/
theorem Guarded.apart (hf : f.WF) (hD : Guarded D murmurhash2 Inv) (h : (replaySystem D murmurhash2 f).Reach p)
    {a b : Source} {x : Bytes} (ha : (a, x) ∈ p.oks) (hb : (b, x) ∈ p.oks) (hab : a ≠ b) :
    ∃ l₁ l₂ l₃, (p.adds = l₁ ++ (some a, x) :: l₂ ++ (some b, x) :: l₃ ∨
      p.adds = l₁ ++ (some b, x) :: l₂ ++ (some a, x) :: l₃) ∧ f.entries ≤ l₂.length := by
  obtain ⟨-, hmem, hapart⟩ := (replayInv_of_reach hf hD h).history
  obtain ⟨s, t, hst⟩ := List.append_of_mem (hmem a x ha)
  have hmem' := hmem b x hb
  rw [hst] at hmem'
  rcases List.mem_append.1 hmem' with hs | ht
  · obtain ⟨l₁, l₂, rfl⟩ := List.append_of_mem hs
    exact ⟨l₁, l₂, t, .inr hst, hapart _ _ _ _ _ _ hst⟩
  · rcases List.mem_cons.1 ht with heq | ht
    · exact absurd (Option.some.inj (Prod.mk.inj heq).1).symm hab
    · obtain ⟨l₂, l₃, rfl⟩ := List.append_of_mem ht
      have hcut : p.adds = s ++ (some a, x) :: l₂ ++ (some b, x) :: l₃ := by simpa using hst
      exact ⟨s, l₂, l₃, .inl hcut, hapart _ _ _ _ _ _ hcut⟩

end

end OutlineServer
