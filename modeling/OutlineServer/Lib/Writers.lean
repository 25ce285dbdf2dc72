import OutlineServer.Lib.Files

/-!
# Programs that write files whole

`Writes W Q none p`: whatever its calls answer, `p` writes only through the descriptor of its last `fopen`
for writing, once for each, at a path and with a text that `W` admits, and returns a value in `Q`. The file
may be unlinked meanwhile; `Files.OpenOn` is what remains true of such a descriptor. A file that only such
a program writes is therefore empty or holds one of the texts (`Writing.step`).
-/

namespace Files

variable {Path : Type}

/-- `i` was opened on `p`: where its inode is still listed, it is there. -/
structure OpenOn (fs : Files Path) (p : Path) (i : Nat) : Prop where
  alloc : i < fs.next
  only : ∀ q, fs.dir q = some i → q = p

/-- What the file at `p` holds, if there is one, is in `Q`. -/
def Holds (fs : Files Path) (p : Path) (Q : List Char → Prop) : Prop := ∀ f, fs.file p = some f → Q f.content

theorem Holds.mono {fs : Files Path} {p : Path} {Q Q' : List Char → Prop} (h : fs.Holds p Q)
    (hQ : ∀ s, Q s → Q' s) : fs.Holds p Q' := fun f hf => hQ _ (h f hf)

theorem Holds.of_file_eq {fs fs' : Files Path} {p : Path} {Q : List Char → Prop} (h : fs.Holds p Q)
    (hf : fs'.file p = fs.file p) : fs'.Holds p Q := fun f hf' => h f (hf ▸ hf')

theorem openOn_of_dir {fs : Files Path} {p : Path} {i : Nat} (h : fs.dir p = some i) : fs.OpenOn p i :=
  ⟨fs.alloc p i h, fun q hq => fs.inj q p i hq h⟩

variable [DecidableEq Path] {allow : Files Path → FileOp Path → Bool → Prop} {fs fs' : Files Path} {p q : Path}
  {i : Nat}

theorem OpenOn.step (h : fs.OpenOn p i) {o : FileOp Path} {r : o.Res} (hs : Step allow fs o r fs') :
    fs'.OpenOn p i := by
  obtain ⟨t, ok, -, -, he⟩ := hs
  cases o with
  | unlink q =>
    cases he
    refine ⟨h.alloc, fun q' hq' => ?_⟩
    simp only [remove, dir_setNow] at hq'
    split at hq'
    · cases hq'
    · exact h.only q' hq'
  | openW q =>
    cases ok with
    | false => cases he; exact ⟨h.alloc, h.only⟩
    | true =>
      cases hd : (fs.setNow t).dir q with
      | some j =>
        simp only [exec, ↓reduceIte, hd, Prod.mk.injEq] at he
        obtain ⟨-, rfl⟩ := he
        exact ⟨h.alloc, h.only⟩
      | none =>
        simp only [exec, ↓reduceIte, hd, Prod.mk.injEq] at he
        obtain ⟨-, rfl⟩ := he
        refine ⟨Nat.lt_succ_of_lt h.alloc, fun q' hq' => ?_⟩
        simp only [create, dir_setNow] at hq'
        split at hq'
        · -- the new inode is not the open one
          have hi := h.alloc
          have : fs.next = i := Option.some.inj hq'
          omega
        · exact h.only q' hq'
  | _ => cases he; exact ⟨h.alloc, h.only⟩

/-- A write leaves the files at other paths. -/
theorem OpenOn.file_ne (h : fs.OpenOn p i) {s : List Char} {r : Unit} (hs : Step allow fs (.write i s) r fs')
    (hq : q ≠ p) : fs'.file q = fs.file q := by
  obtain ⟨t, ok, -, -, he⟩ := hs
  cases he
  exact file_flush_ne (fs.setNow t) (fun hd => hq (h.only q hd)) s

/-- A write to an empty file makes the text its own, unless it is no longer listed. -/
theorem OpenOn.file_self (hf : fs.Holds p (· = [])) {s : List Char} {r : Unit}
    (hs : Step allow fs (.write i s) r fs') : fs'.Holds p fun c => c = [] ∨ c = s := by
  obtain ⟨t, ok, -, -, he⟩ := hs
  cases he
  intro f hf'
  by_cases hd : fs.dir p = some i
  · have hc : (fs.inode i).content = [] := hf _ (file_of_dir hd)
    rw [file_flush_self (fs.setNow t) hd] at hf'
    cases hf'
    refine .inr ?_
    simp [setNow, hc]
  · rw [file_flush_ne (fs.setNow t) hd] at hf'
    exact .inl (hf f hf')

theorem step_file_unlink {r : Unit} (hs : Step allow fs (.unlink q) r fs') :
    fs'.file p = if p = q then none else fs.file p := by
  obtain ⟨t, ok, -, -, he⟩ := hs
  cases he
  simp only [file, remove, dir_setNow]
  split <;> rfl

end Files

namespace Prog
open Files

variable {Path α β : Type} {W : Path → List Char → Prop} {Q R : α → Prop}

def Writes (W : Path → List Char → Prop) (Q : α → Prop) : Option (Path × Nat) → FileProg Path α → Prop
  | _, .ret a => Q a
  | cur, .call (.write i s) k => (∃ p, cur = some (p, i) ∧ W p s) ∧ ∀ r, Writes W Q none (k r)
  | _, .call (.openW p) k => ∀ r : Option Nat, Writes W Q (r.map (p, ·)) (k r)
  | _, .call (.unlink _) _ => False
  | cur, .call (.stat _) k => ∀ r, Writes W Q cur (k r)
  | cur, .call (.openR _) k => ∀ r, Writes W Q cur (k r)
  | cur, .call (.read _) k => ∀ r, Writes W Q cur (k r)
  | cur, .call (.mkdir _) k => ∀ r, Writes W Q cur (k r)
  | cur, .call .time k => ∀ r, Writes W Q cur (k r)

theorem writes_pure {a : α} (h : Q a) (cur : Option (Path × Nat)) :
    Writes W Q cur (pure a : FileProg Path α) := h

/-- A program that has not opened a file may be run with one open. -/
theorem Writes.weaken {p : FileProg Path α} (h : Writes W Q none p) (cur : Option (Path × Nat)) :
    Writes W Q cur p := by
  induction p generalizing cur with
  | ret a => exact h
  | call o k ih =>
    cases o with
    | write i s =>
      obtain ⟨⟨p, hp, -⟩, -⟩ := h
      cases hp
    | openW p => exact h
    | unlink p => exact h.elim
    | _ => exact fun r => ih r (h r) cur

theorem Writes.bind {p : FileProg Path α} {f : α → FileProg Path β} {Q : β → Prop} {cur : Option (Path × Nat)}
    (hp : Writes W R cur p) (hf : ∀ a, R a → Writes W Q none (f a)) : Writes W Q cur (p >>= f) := by
  induction p generalizing cur with
  | ret a => exact (hf a hp).weaken cur
  | call o k ih =>
    cases o with
    | write i s => exact ⟨hp.1, fun r => ih r (hp.2 r)⟩
    | unlink p => exact hp.elim
    | _ => exact fun r => ih r (hp r)

theorem writes_op_bind {o : FileOp Path} {f : o.Res → FileProg Path β} {Q : β → Prop}
    {cur : Option (Path × Nat)} (ho : ¬ o.Writes) (hf : ∀ r, Writes W Q cur (f r)) :
    Writes W Q cur (op o >>= f) := by
  cases o with
  | write i s => exact absurd trivial ho
  | openW p => exact absurd trivial ho
  | unlink p => exact absurd trivial ho
  | _ => exact hf

theorem writes_openW_bind {p : Path} {f : Option Nat → FileProg Path β} {Q : β → Prop}
    {cur : Option (Path × Nat)} (hf : ∀ r : Option Nat, Writes W Q (r.map (p, ·)) (f r)) :
    Writes W Q cur (Sys.fopenW p >>= f) := hf

theorem writes_fputs_bind {p : Path} {i : Nat} {s : List Char} {f : Unit → FileProg Path β} {Q : β → Prop}
    (hW : W p s) (hf : ∀ r, Writes W Q none (f r)) : Writes W Q (some (p, i)) (Sys.fputs i s >>= f) :=
  ⟨⟨p, rfl, hW⟩, hf⟩

theorem Writes.mono {p : FileProg Path α} {cur : Option (Path × Nat)} (h : Writes W R cur p)
    (hQ : ∀ a, R a → Q a) : Writes W Q cur p := by
  induction p generalizing cur with
  | ret a => exact hQ a h
  | call o k ih =>
    cases o with
    | write i s => exact ⟨h.1, fun r => ih r (h.2 r)⟩
    | unlink p => exact h.elim
    | _ => exact fun r => ih r (h r)

/-! ### A file that one program writes -/

/-- What is left of such a program while the file at `q` is empty or holds one of its texts: a file that it
has open there is still empty. -/
def Writing (W : Path → List Char → Prop) (Q : α → Prop) (q : Path) (fs : Files Path) (p : FileProg Path α) :
    Prop :=
  ∃ cur, Writes W Q cur p ∧
    ∀ p' i, cur = some (p', i) → fs.OpenOn p' i ∧ (p' = q → fs.Holds q (· = []))

theorem Writing.start {q : Path} {fs : Files Path} {p : FileProg Path α} (h : Writes W Q none p) : Writing W Q q fs p :=
  ⟨none, h, fun _ _ h => by cases h⟩

section
variable [DecidableEq Path] {allow : Files Path → FileOp Path → Bool → Prop} {fs fs' : Files Path} {q : Path}

/-- The other process may open other files and remove any. -/
theorem Writing.other {p : FileProg Path α} (h : Writing W Q q fs p) {o : FileOp Path} {r : o.Res}
    (hs : Step allow fs o r fs') (hq : fs'.file q = fs.file q ∨ fs'.file q = none) : Writing W Q q fs' p := by
  obtain ⟨cur, hw, hcur⟩ := h
  refine ⟨cur, hw, fun p' i hi => ?_⟩
  obtain ⟨hopen, hempty⟩ := hcur p' i hi
  refine ⟨hopen.step hs, fun hp' f hf => ?_⟩
  rcases hq with hq | hq
  · exact hempty hp' f (hq ▸ hf)
  · rw [hq] at hf
    cases hf

/-- One operation of the program, and the file at `q` after it. -/
theorem Writing.step {o : FileOp Path} {k : o.Res → FileProg Path α} {r : o.Res}
    (h : Writing W Q q fs (.call o k)) (hs : Step allow fs o r fs') {T : List Char → Prop}
    (hT : ∀ s, W q s → T s) (hq : fs.Holds q fun c => c = [] ∨ T c) :
    Writing W Q q fs' (k r) ∧ fs'.Holds q fun c => c = [] ∨ T c := by
  obtain ⟨cur, hw, hcur⟩ := h
  cases o with
  | write i s =>
    obtain ⟨⟨p, rfl, hW⟩, hw⟩ := hw
    obtain ⟨hopen, hempty⟩ := hcur p i rfl
    refine ⟨.start (hw r), ?_⟩
    by_cases hp : q = p
    · subst hp
      refine (OpenOn.file_self (hempty rfl) hs).mono fun c hc => ?_
      rcases hc with hc | rfl
      · exact .inl hc
      · exact .inr (hT _ hW)
    · exact hq.of_file_eq (hopen.file_ne hs hp)
  | openW p =>
    rcases step_openW hs with ⟨rfl, hage, -⟩ | ⟨i, rfl, hd, hf, hne⟩
    · exact ⟨.start (hw none), hq.of_file_eq (hage.file_eq q)⟩
    · have hempty : p = q → fs'.Holds q (· = []) := by
        rintro rfl f hf'
        rw [hf] at hf'
        cases hf'
        rfl
      refine ⟨⟨_, hw (some i), fun p' j hj => ?_⟩, ?_⟩
      · cases hj
        exact ⟨openOn_of_dir hd, hempty⟩
      · by_cases hp : q = p
        · exact (hempty hp.symm).mono fun c hc => .inl hc
        · exact hq.of_file_eq (hne q hp)
  | unlink p => exact hw.elim
  | _ =>
    have hage := step_of_not_writes (by simp [FileOp.Writes]) hs
    refine ⟨⟨cur, hw r, fun p' i hi => ?_⟩, hq.of_file_eq (hage.file_eq q)⟩
    exact ⟨(hcur p' i hi).1.step hs, fun hp' => ((hcur p' i hi).2 hp').of_file_eq (hage.file_eq q)⟩

end

end Prog
