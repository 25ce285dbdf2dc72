import OutlineServer.Lib.Prog
import Mathlib.Logic.Function.Basic

/-!
# Files shared by processes

The part of a POSIX file system that programs exchanging small text files depend on: directory
entries that point to inodes, an inode's text and modification time (one tick of the clock is the
resolution of `st_mtime`), `fopen` for reading and for writing (which truncates or creates), the
flush of a written stream at `fclose`, and `unlink` (an open descriptor keeps the inode).

`Files.exec` is one operation. `Files.Step` lets time pass before the operation and lets the
environment choose, within `allow`, whether an `fopen` for writing succeeds. The `step_*` lemmas are
the effect of each operation on `Files.file`, the view of a path that the programs reason about.
-/

structure Inode where
  content : List Char
  mtime : Nat
deriving DecidableEq

structure Files (Path : Type) where
  now : Nat
  dir : Path → Option Nat
  inode : Nat → Inode
  next : Nat
  /-- Every entry points to an inode that has been allocated. -/
  alloc : ∀ p i, dir p = some i → i < next
  /-- There are no hard links. -/
  inj : ∀ p q i, dir p = some i → dir q = some i → p = q

/-- The operations on files; a descriptor is the inode it is open on. -/
inductive FileOp (Path : Type)
  | stat (p : Path)
  | openR (p : Path)
  | read (fd : Nat)
  | openW (p : Path)
  | write (fd : Nat) (s : List Char)
  | unlink (p : Path)
  | mkdir (p : Path)
  | time

/-- What an operation answers: `st_mtime`, a descriptor, the text read, nothing, or the time. -/
@[reducible] def FileOp.Res {Path : Type} : FileOp Path → Type
  | .stat _ => Option Nat
  | .openR _ => Option Nat
  | .read _ => List Char
  | .openW _ => Option Nat
  | .write _ _ => Unit
  | .unlink _ => Unit
  | .mkdir _ => Unit
  | .time => Nat

def FileOp.Writes {Path : Type} : FileOp Path → Prop
  | .openW _ | .write _ _ | .unlink _ => True
  | _ => False

abbrev FileProg (Path : Type) := Prog (FileOp Path) FileOp.Res

namespace Sys

variable {Path : Type}

@[reducible] def stat (p : Path) : FileProg Path (Option Nat) := Prog.op (FileOp.stat p)

@[reducible] def fopenR (p : Path) : FileProg Path (Option Nat) := Prog.op (FileOp.openR p)

/-- The text that a stream just opened reads. -/
@[reducible] def fread (f : Nat) : FileProg Path (List Char) := Prog.op (FileOp.read f)

@[reducible] def fopenW (p : Path) : FileProg Path (Option Nat) := Prog.op (FileOp.openW p)

/-- `fprintf` and the flush of the stream at `fclose`. -/
@[reducible] def fputs (f : Nat) (s : List Char) : FileProg Path Unit := Prog.op (FileOp.write f s)

@[reducible] def unlink (p : Path) : FileProg Path Unit := Prog.op (FileOp.unlink p)

@[reducible] def mkdir (p : Path) : FileProg Path Unit := Prog.op (FileOp.mkdir p)

@[reducible] def time : FileProg Path Nat := Prog.op FileOp.time

end Sys

namespace Files

variable {Path : Type}

def empty (t : Nat) : Files Path := ⟨t, fun _ => none, fun _ => ⟨[], 0⟩, 0, by simp, by simp⟩

def file (fs : Files Path) (p : Path) : Option Inode := (fs.dir p).map fs.inode

def setNow (fs : Files Path) (t : Nat) : Files Path := { fs with now := t }

/-- A stream of `s` is flushed to the start of inode `i`; text beyond it stays. -/
def flush (fs : Files Path) (i : Nat) (s : List Char) : Files Path :=
  { fs with inode := fun j =>
      if j = i then ⟨s ++ (fs.inode i).content.drop s.length, fs.now⟩ else fs.inode j }

def truncate (fs : Files Path) (i : Nat) : Files Path :=
  { fs with inode := fun j => if j = i then ⟨[], fs.now⟩ else fs.inode j }

@[simp] theorem dir_setNow (fs : Files Path) (t : Nat) (p : Path) : (fs.setNow t).dir p = fs.dir p := rfl

theorem file_eq_none {fs : Files Path} {p : Path} : fs.file p = none ↔ fs.dir p = none := by
  simp [file]

theorem file_of_dir {fs : Files Path} {p : Path} {i : Nat} (h : fs.dir p = some i) :
    fs.file p = some (fs.inode i) := by
  simp [file, h]

theorem file_truncate_self {fs : Files Path} {p : Path} {i : Nat} (h : fs.dir p = some i) :
    (fs.truncate i).file p = some ⟨[], fs.now⟩ := by
  simp [file, truncate, h]

theorem file_truncate_ne {fs : Files Path} {p q : Path} {i : Nat} (h : fs.dir p = some i) (hq : q ≠ p) :
    (fs.truncate i).file q = fs.file q := by
  cases hd : fs.dir q with
  | none => simp [file, truncate, hd]
  | some j =>
    have hj : j ≠ i := fun hji => hq (fs.inj q p i (hji ▸ hd) h)
    simp [file, truncate, hd, hj]

theorem file_flush_self (fs : Files Path) {p : Path} {i : Nat} (h : fs.dir p = some i) (s : List Char) :
    (fs.flush i s).file p = some ⟨s ++ (fs.inode i).content.drop s.length, fs.now⟩ := by
  simp [file, flush, h]

theorem file_flush_ne (fs : Files Path) {q : Path} {i : Nat} (h : fs.dir q ≠ some i) (s : List Char) :
    (fs.flush i s).file q = fs.file q := by
  cases hd : fs.dir q with
  | none => simp [file, flush, hd]
  | some j =>
    have hj : j ≠ i := fun hji => h (hji ▸ hd)
    simp [file, flush, hd, hj]

def Aged (fs fs' : Files Path) : Prop := ∃ t, fs.now ≤ t ∧ fs' = fs.setNow t

theorem Aged.trans {fs fs' fs'' : Files Path} (h : fs.Aged fs') (h' : fs'.Aged fs'') : fs.Aged fs'' := by
  obtain ⟨t, ht, rfl⟩ := h
  obtain ⟨t', ht', rfl⟩ := h'
  exact ⟨t', Nat.le_trans ht ht', rfl⟩

theorem Aged.refl (fs : Files Path) : fs.Aged fs := ⟨fs.now, Nat.le_refl _, rfl⟩

theorem Aged.file_eq {fs fs' : Files Path} (h : fs.Aged fs') (p : Path) : fs'.file p = fs.file p := by
  obtain ⟨t, -, rfl⟩ := h; rfl

theorem Aged.dir_eq {fs fs' : Files Path} (h : fs.Aged fs') (p : Path) : fs'.dir p = fs.dir p := by
  obtain ⟨t, -, rfl⟩ := h; rfl

theorem Aged.inode_eq {fs fs' : Files Path} (h : fs.Aged fs') (i : Nat) : fs'.inode i = fs.inode i := by
  obtain ⟨t, -, rfl⟩ := h; rfl

variable [DecidableEq Path]

/-- A new empty file at `p`, which has none. -/
def create (fs : Files Path) (p : Path) : Files Path where
  now := fs.now
  dir q := if q = p then some fs.next else fs.dir q
  inode j := if j = fs.next then ⟨[], fs.now⟩ else fs.inode j
  next := fs.next + 1
  alloc q i h := by
    split at h
    · cases h; omega
    · have := fs.alloc q i h; omega
  inj q q' i h h' := by
    split at h <;> split at h'
    · simp_all
    · cases h; exact absurd (fs.alloc _ _ h') (Nat.lt_irrefl _)
    · cases h'; exact absurd (fs.alloc _ _ h) (Nat.lt_irrefl _)
    · exact fs.inj q q' i h h'

def remove (fs : Files Path) (p : Path) : Files Path where
  now := fs.now
  dir q := if q = p then none else fs.dir q
  inode := fs.inode
  next := fs.next
  alloc q i h := by
    split at h
    · cases h
    · exact fs.alloc q i h
  inj q q' i h h' := by
    split at h <;> split at h'
    · cases h
    · cases h
    · cases h'
    · exact fs.inj q q' i h h'

/-- One operation; `ok` says whether an `fopen` for writing succeeds. -/
def exec (ok : Bool) (fs : Files Path) : (o : FileOp Path) → o.Res × Files Path
  | .stat p => ((fs.file p).map Inode.mtime, fs)
  | .openR p => (fs.dir p, fs)
  | .read fd => ((fs.inode fd).content, fs)
  | .openW p =>
    if ok then
      match fs.dir p with
      | some i => (some i, fs.truncate i)
      | none => (some fs.next, fs.create p)
    else (none, fs)
  | .write fd s => ((), fs.flush fd s)
  | .unlink p => ((), fs.remove p)
  | .mkdir _ => ((), fs)
  | .time => (fs.now, fs)

/-- One operation at some later time, with an outcome that `allow` admits. -/
def Step (allow : Files Path → FileOp Path → Bool → Prop)
    (fs : Files Path) (o : FileOp Path) (r : o.Res) (fs' : Files Path) : Prop :=
  ∃ t ok, fs.now ≤ t ∧ allow (fs.setNow t) o ok ∧ (fs.setNow t).exec ok o = (r, fs')

theorem file_create_self (fs : Files Path) (p : Path) : (fs.create p).file p = some ⟨[], fs.now⟩ := by
  simp [file, create]

theorem file_create_ne (fs : Files Path) {p q : Path} (hq : q ≠ p) : (fs.create p).file q = fs.file q := by
  cases hd : fs.dir q with
  | none => simp [file, create, hd, hq]
  | some j => simp [file, create, hd, hq, Nat.ne_of_lt (fs.alloc q j hd)]

/-! ### What one operation of a program does -/

section
variable {allow : Files Path → FileOp Path → Bool → Prop} {fs fs' : Files Path}

theorem step_stat {p : Path} {r : Option Nat} (h : Step allow fs (.stat p) r fs') :
    fs.Aged fs' ∧ r = (fs.file p).map Inode.mtime := by
  obtain ⟨t, ok, ht, -, he⟩ := h
  cases he
  exact ⟨⟨t, ht, rfl⟩, rfl⟩

theorem step_openR {p : Path} {r : Option Nat} (h : Step allow fs (.openR p) r fs') :
    fs.Aged fs' ∧ r = fs.dir p := by
  obtain ⟨t, ok, ht, -, he⟩ := h
  cases he
  exact ⟨⟨t, ht, rfl⟩, rfl⟩

theorem step_read {fd : Nat} {r : List Char} (h : Step allow fs (.read fd) r fs') :
    fs.Aged fs' ∧ r = (fs.inode fd).content := by
  obtain ⟨t, ok, ht, -, he⟩ := h
  cases he
  exact ⟨⟨t, ht, rfl⟩, rfl⟩

theorem step_time {r : Nat} (h : Step allow fs .time r fs') : fs.Aged fs' ∧ r = fs'.now := by
  obtain ⟨t, ok, ht, -, he⟩ := h
  cases he
  exact ⟨⟨t, ht, rfl⟩, rfl⟩

theorem step_mkdir {p : Path} {r : Unit} (h : Step allow fs (.mkdir p) r fs') : fs.Aged fs' := by
  obtain ⟨t, ok, ht, -, he⟩ := h
  cases he
  exact ⟨t, ht, rfl⟩

/-- `fopen(p, "w")` fails and leaves the files, or leaves an empty file that it is open on. -/
theorem step_openW {p : Path} {r : Option Nat} (h : Step allow fs (.openW p) r fs') :
    (r = none ∧ fs.Aged fs' ∧ allow fs' (.openW p) false) ∨
      ∃ i, r = some i ∧ fs'.dir p = some i ∧ fs'.file p = some ⟨[], fs'.now⟩ ∧
        ∀ q, q ≠ p → fs'.file q = fs.file q := by
  obtain ⟨t, ok, ht, ha, he⟩ := h
  cases ok with
  | false => cases he; exact .inl ⟨rfl, ⟨t, ht, rfl⟩, ha⟩
  | true =>
    refine .inr ?_
    cases hd : (fs.setNow t).dir p with
    | none =>
      simp only [exec, ↓reduceIte, hd, Prod.mk.injEq] at he
      obtain ⟨rfl, rfl⟩ := he
      exact ⟨_, rfl, by simp [create], file_create_self _ _, fun q hq => file_create_ne _ hq⟩
    | some i =>
      simp only [exec, ↓reduceIte, hd, Prod.mk.injEq] at he
      obtain ⟨rfl, rfl⟩ := he
      exact ⟨i, rfl, hd, file_truncate_self hd, fun q hq => file_truncate_ne hd hq⟩

/-- The flush of a stream open on the empty file at `p` makes `s` its text. -/
theorem step_write_empty {p : Path} {i : Nat} {s : List Char} {r : Unit} {t₀ : Nat}
    (hd : fs.dir p = some i) (hf : fs.file p = some ⟨[], t₀⟩) (h : Step allow fs (.write i s) r fs') :
    fs'.file p = some ⟨s, fs'.now⟩ ∧ ∀ q, q ≠ p → fs'.file q = fs.file q := by
  obtain ⟨t, ok, ht, -, he⟩ := h
  cases he
  have hc : (fs.inode i).content = [] := by
    rw [file_of_dir hd] at hf; rw [Option.some.inj hf]
  refine ⟨?_, fun q hq => ?_⟩
  · rw [file_flush_self (fs.setNow t) hd]
    simp [setNow, flush, hc]
  · refine file_flush_ne (fs.setNow t) (fun hqi => hq (fs.inj q p i hqi hd)) s

theorem exists_step_openW (hallow : ∀ fs o, allow fs o true) (p : Path) {t : Nat} (ht : fs.now ≤ t) :
    ∃ i fs', Step allow fs (.openW p) (some i) fs' ∧ fs'.dir p = some i ∧ fs'.file p = some ⟨[], t⟩ ∧
      fs'.now = t := by
  cases hd : fs.dir p with
  | none =>
    refine ⟨fs.next, (fs.setNow t).create p, ⟨t, true, ht, hallow _ _, ?_⟩, by simp [create, setNow],
      file_create_self _ _, rfl⟩
    simp only [exec, ↓reduceIte, dir_setNow, hd]
    rfl
  | some i =>
    refine ⟨i, (fs.setNow t).truncate i, ⟨t, true, ht, hallow _ _, ?_⟩, hd, file_truncate_self hd, rfl⟩
    simp only [exec, ↓reduceIte, dir_setNow, hd]

theorem runs_of_later {α : Type} {o : FileOp Path} {k : o.Res → FileProg Path α} {a : α} {t : Nat}
    (ht : fs.now ≤ t) (h : Prog.Runs (Step allow) (.call o k) (fs.setNow t) a fs') :
    Prog.Runs (Step allow) (.call o k) fs a fs' := by
  cases h with
  | call hs hk =>
    obtain ⟨t', ok, ht', ha, he⟩ := hs
    exact .call ⟨t', ok, Nat.le_trans ht ht', ha, he⟩ hk

theorem step_of_not_writes {o : FileOp Path} {r : o.Res} (ho : ¬ o.Writes) (h : Step allow fs o r fs') :
    fs.Aged fs' := by
  obtain ⟨t, ok, ht, -, he⟩ := h
  cases o <;> first | exact absurd trivial ho | (cases he; exact ⟨t, ht, rfl⟩)

/-- Only `unlink` takes an entry away. -/
theorem step_dir {o : FileOp Path} {r : o.Res} {p : Path} {i : Nat} (ho : o ≠ .unlink p)
    (hd : fs.dir p = some i) (h : Step allow fs o r fs') : fs'.dir p = some i := by
  obtain ⟨t, ok, ht, -, he⟩ := h
  cases o with
  | unlink q =>
    cases he
    have hq : p ≠ q := fun h => ho (h ▸ rfl)
    simp [remove, hq, hd]
  | openW q =>
    cases ok with
    | false => cases he; exact hd
    | true =>
      cases hq : (fs.setNow t).dir q with
      | some j =>
        simp only [exec, ↓reduceIte, hq, Prod.mk.injEq] at he
        obtain ⟨-, rfl⟩ := he
        exact hd
      | none =>
        simp only [exec, ↓reduceIte, hq, Prod.mk.injEq] at he
        obtain ⟨-, rfl⟩ := he
        have hpq : p ≠ q := by rintro rfl; rw [dir_setNow, hd] at hq; cases hq
        simp [create, hpq, hd]
  | _ => cases he; exact hd

theorem step_write {p : Path} {i : Nat} {s : List Char} {r : Unit} (hd : fs.dir p = some i)
    (h : Step allow fs (.write i s) r fs') :
    ∃ rest, fs'.file p = some ⟨s ++ rest, fs'.now⟩ := by
  obtain ⟨t, ok, ht, -, he⟩ := h
  cases he
  exact ⟨_, file_flush_self (fs.setNow t) hd s⟩

/-- A deterministic store at a fixed time steps as `Step` does. -/
theorem step_exec (ok : FileOp Path → Bool) (hok : ∀ fs o, allow fs o (ok o)) (o : FileOp Path)
    (fs : Files Path) : Step allow fs o (exec (ok o) fs o).1 (exec (ok o) fs o).2 :=
  ⟨fs.now, ok o, Nat.le_refl _, hok _ o, rfl⟩

end

end Files
