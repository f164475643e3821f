import Hios.Lib.Run
import Hios.Lib.RefCount
import Hios.Fs.Open
import Hios.Fs.ReadWrite
import Mathlib.Algebra.BigOperators.Fin

/-! The file table under `sys_open`, `sys_close`, `sys_dup` and fork by several
processes. `sys_open` is two steps: between them it sleeps in `open_namei`. -/
namespace Hios.Fs
open Hios.RefCount Hios.Run

structure Descriptors where
  filp : Fin NR_OPEN → Option (Fin NR_FILE)
  closeOnExec : BitVec 32

abbrev FileTable := Fin NR_FILE → File

def Descriptors.set (d : Descriptors) (fd : Fin NR_OPEN) (f : Option (Fin NR_FILE)) : Descriptors :=
  { d with filp := Function.update d.filp fd f }

def Descriptors.keepOnExec (d : Descriptors) (fd : Nat) : Descriptors :=
  { d with closeOnExec := d.closeOnExec &&& ~~~(1#32 <<< fd) }

def setCount (table : FileTable) (f : Fin NR_FILE) (n : Nat) : FileTable :=
  Function.update table f { table f with fCount := n }

/-- `f_count++` on an `unsigned short`. -/
def incCount (table : FileTable) (f : Fin NR_FILE) : FileTable :=
  setCount table f (((table f).fCount + 1) % 65536)

def lowestFd (d : Descriptors) (arg : Nat) : Option (Fin NR_OPEN) :=
  (List.finRange NR_OPEN).find? fun fd => arg ≤ fd.val ∧ (d.filp fd).isNone

def lowestFile (table : FileTable) : Option (Fin NR_FILE) :=
  (List.finRange NR_FILE).find? fun f => (table f).fCount = 0

/-- `sys_open` up to `open_namei`: the descriptor and the file it reserves. -/
def openReserve (d : Descriptors) (table : FileTable) :
    Option (Fin NR_OPEN × Fin NR_FILE) × Descriptors × FileTable :=
  match lowestFd d 0 with
  | none => (none, d, table)
  | some fd =>
    let d := d.keepOnExec fd
    match lowestFile table with
    | none => (none, d, table)
    | some f => (some (fd, f), d.set fd (some f), incCount table f)

inductive OpenEnd where
  | failed
  /-- `-EPERM`, with the inode put back. -/
  | noTerminal (inode : InodePtr)
  | opened (inode : InodePtr) (iMode flag : Nat)

inductive FileEvent where
  /-- `iput` of the inode of file `f`. -/
  | iput (f : Fin NR_FILE) (inode : InodePtr)
  | iputUnopened (inode : InodePtr)

def openFinish (fd : Fin NR_OPEN) (f : Fin NR_FILE) (e : OpenEnd) (d : Descriptors)
    (table : FileTable) :
    Option FileEvent × Descriptors × FileTable :=
  match e with
  | .failed => (none, d.set fd none, setCount table f 0)
  | .noTerminal inode => (some (.iputUnopened inode), d.set fd none, setCount table f 0)
  | .opened inode iMode flag =>
    (none, d, Function.update table f ⟨iMode, flag % 65536, 1, inode, 0⟩)

/-- `none` is the panic "Close: file count is 0". -/
def sysClose (fd : Nat) (d : Descriptors) (table : FileTable) :
    Option (Int × Option FileEvent × Descriptors × FileTable) :=
  if h : fd < NR_OPEN then
    let d := d.keepOnExec fd
    match d.filp ⟨fd, h⟩ with
    | none => some (-EINVAL, none, d, table)
    | some filp =>
      let d := d.set ⟨fd, h⟩ none
      if (table filp).fCount = 0 then none
      else
        let table := setCount table filp ((table filp).fCount - 1)
        if (table filp).fCount ≠ 0 then some (0, none, d, table)
        else some (0, some (.iput filp (table filp).fInode), d, table)
  else some (-EINVAL, none, d, table)

def dupfd (fd arg : Nat) (d : Descriptors) (table : FileTable) : Int × Descriptors × FileTable :=
  if h : fd < NR_OPEN then
    match d.filp ⟨fd, h⟩ with
    | none => (-EBADF, d, table)
    | some filp =>
      if arg ≥ NR_OPEN then (-EINVAL, d, table)
      else match lowestFd d arg with
      | none => (-EMFILE, d, table)
      | some arg => (arg.val, (d.keepOnExec arg).set arg (some filp), incCount table filp)
  else (-EBADF, d, table)

/-- The loop of `copy_process` over the files of the child. -/
def forkFiles (d : Descriptors) (table : FileTable) : FileTable :=
  (List.finRange NR_OPEN).foldl (fun table i => (d.filp i).elim table (incCount table)) table

section Sequential
variable (fs : FileSystem)

def descriptorsOf : Descriptors := ⟨fs.filp, fs.closeOnExec⟩

def FileSystem.withFiles (d : Descriptors) (table : FileTable) : FileSystem :=
  { fs with filp := d.filp, closeOnExec := d.closeOnExec, file := table }

theorem lowestFd_zero : lowestFd (descriptorsOf fs) 0 = freeFd fs := by
  have hsame : (fun fd : Fin NR_OPEN => decide (0 ≤ fd.val ∧ ((descriptorsOf fs).filp fd).isNone)) =
      fun fd => (fs.filp fd).isNone := by
    funext fd
    cases hfd : fs.filp fd with
    | none => simp [descriptorsOf, hfd]
    | some f => simp [descriptorsOf, hfd]
  rw [lowestFd, freeFd, hsame]

theorem sysDup_eq (fildes : Nat) : Fs.sysDup fildes fs =
    let (r, d, table) := dupfd fildes 0 (descriptorsOf fs) fs.file
    (r, fs.withFiles d table) := by
  have hfree := lowestFd_zero fs
  have harg : ¬ 0 ≥ NR_OPEN := by decide
  simp only [Fs.sysDup, dupfd]
  by_cases hfd : fildes < NR_OPEN
  · simp only [dif_pos hfd, if_neg harg, hfree]
    have hfilp : (descriptorsOf fs).filp ⟨fildes, hfd⟩ = fs.filp ⟨fildes, hfd⟩ := rfl
    rw [hfilp]
    cases fs.filp ⟨fildes, hfd⟩ with
    | none => rfl
    | some filp =>
      cases freeFd fs with
      | none => rfl
      | some arg => rfl
  · simp only [dif_neg hfd]
    rfl

/-- The end of `sys_open` in the process's own state. -/
def FileSystem.openFinish (fd : Fin NR_OPEN) (f : Fin NR_FILE) (e : OpenEnd) : FileSystem :=
  let (_, d, table) := Fs.openFinish fd f e (descriptorsOf fs) fs.file
  fs.withFiles d table

theorem dropFile_eq (fd : Fin NR_OPEN) (f : Fin NR_FILE) :
    dropFile fd f fs = fs.openFinish fd f .failed :=
  rfl

theorem openInode_eq {fd : Fin NR_OPEN} {f : Fin NR_FILE} {i : InodeIx} {flag : Nat}
    {fs fs' : FileSystem} {r : Int} (h : openInode fd f i flag fs = .ok (r, fs')) :
    (r = fd.val ∧ ∃ tty ttyPgrp,
      fs' = { fs with tty, ttyPgrp }.openFinish fd f
        (.opened (.entry i) (fs.inode i).d.iMode flag)) ∨
      r = -EPERM ∧ ∃ fs₁, Fs.iput i fs = .ok fs₁ ∧
      fs' = fs₁.openFinish fd f (.noTerminal (.entry i)) := by
  simp only [openInode] at h
  split at h
  · cases h
    exact .inl ⟨rfl, _, _, rfl⟩
  · split at h
    · obtain ⟨fs₁, hput, h⟩ := Outcome.bind_eq_ok.mp h
      cases h
      exact .inr ⟨rfl, fs₁, hput, rfl⟩
    · cases h
      exact .inl ⟨rfl, fs.tty, fs.ttyPgrp, rfl⟩

/-- `sys_open` reserves, sleeps in `open_namei`, and ends in one of these ways. -/
theorem sysOpen_eq (filename : List Byte) (flag mode : Nat) (inode uninit : InodePtr) :
    sysOpen filename flag mode inode uninit fs =
      (let (r, d, table) := openReserve (descriptorsOf fs) fs.file
      let fs := fs.withFiles d table
      match r with
      | none => .ok (-EINVAL, fs)
      | some (fd, f) => do
        let (r, res, fs) ← openNamei filename flag (mode &&& allowed fs) uninit fs
        if r < 0 then return (r, fs.openFinish fd f .failed) else
        match res.getD inode with
        | .null | .wild => throw .wildPointer
        | .entry i => openInode fd f i flag fs) := by
  simp only [sysOpen, openReserve, lowestFd_zero]
  cases freeFd fs with
  | none => rfl
  | some fd =>
    have hfile : lowestFile fs.file = freeFile
      { fs with closeOnExec := fs.closeOnExec &&& ~~~(1#32 <<< fd.val) } := rfl
    simp only [hfile]
    cases hf : freeFile { fs with closeOnExec := fs.closeOnExec &&& ~~~(1#32 <<< fd.val) } with
    | none => rfl
    | some f =>
      have hzero : (fs.file f).fCount = 0 := by simpa using List.find?_some hf
      have hcount : ((fs.file f).fCount + 1) % 65536 = (fs.file f).fCount + 1 := by
        rw [hzero]
      have hreserve : ({ fs with closeOnExec := fs.closeOnExec &&& ~~~(1#32 <<< fd.val) }.setFilp fd
        (some f)).setFile f
            { fs.file f with fCount := (fs.file f).fCount + 1 } =
          fs.withFiles (((descriptorsOf fs).keepOnExec fd).set fd (some f))
            (incCount fs.file f) := by
        rw [incCount, hcount]
        rfl
      dsimp only
      rewrite [hreserve]
      rfl

end Sequential

section Machine
variable {ι : Type*}

/-- The file tables of all processes. `opening` is set while a process sleeps in
`open_namei`: what it has reserved. -/
structure OpenFiles (ι : Type*) where
  proc : ι → Option Descriptors
  opening : ι → Option (Fin NR_OPEN × Fin NR_FILE)
  file : FileTable

inductive FileAct (ι : Type*) where
  | openStart (p : ι)
  | openEnd (p : ι) (e : OpenEnd)
  | close (p : ι) (fd : Nat)
  | dup (p : ι) (fildes : Nat)
  | fork (p child : ι)

def OpenFiles.caller (s : OpenFiles ι) (p : ι) : Option Descriptors :=
  if s.opening p = none then s.proc p else none

def pointsAt (s : OpenFiles ι) (x : ι × Fin NR_OPEN) : Option (Fin NR_FILE) :=
  (s.proc x.1).bind fun d => d.filp x.2

/-- The descriptors as references to the files; the one that `sys_open` has
reserved is the only one to its file. -/
def fileRefs (s : OpenFiles ι) : Refs (ι × Fin NR_OPEN) (Fin NR_FILE) :=
  ⟨pointsAt s, fun x => ∃ f, s.opening x.1 = some (x.2, f), [], fun f => (s.file f).fCount⟩

theorem fCount_update (table : FileTable) (f : Fin NR_FILE) (v : File) :
    (fun g => (Function.update table f v g).fCount) = Function.update (fun g => (table g).fCount) f
      v.fCount := by
  funext g
  by_cases hg : g = f
  · subst hg
    simp
  · simp [hg]

theorem caller_some {s : OpenFiles ι} {p : ι} {d : Descriptors} (hd : s.caller p = some d) :
    s.opening p = none ∧ s.proc p = some d := by
  by_cases ho : s.opening p = none
  · rw [OpenFiles.caller, if_pos ho] at hd
    exact ⟨ho, hd⟩
  · rw [OpenFiles.caller, if_neg ho] at hd
    cases hd

structure FilesCounted [Fintype ι] (s : OpenFiles ι) : Prop where
  valid : (fileRefs s).Valid
  reserved : ∀ p fd f, s.opening p = some (fd, f) → pointsAt s (p, fd) = some f

theorem FilesCounted.count [Fintype ι] {s : OpenFiles ι} (h : FilesCounted s) (f : Fin NR_FILE) :
    (s.file f).fCount = refs (pointsAt s) f := by
  have hex := h.valid.exact f
  simpa [fileRefs] using hex

theorem FilesCounted.sole [Fintype ι] {s : OpenFiles ι} (h : FilesCounted s) {q : ι}
    {fd : Fin NR_OPEN} {f : Fin NR_FILE} (hq : s.opening q = some (fd, f)) :
    (s.file f).fCount = 1 :=
  h.valid.sole (q, fd) f ⟨f, hq⟩ (h.reserved q fd f hq)

variable [DecidableEq ι]

def OpenFiles.put (s : OpenFiles ι) (p : ι) (d : Descriptors)
    (opening : Option (Fin NR_OPEN × Fin NR_FILE)) (file : FileTable) : OpenFiles ι :=
  ⟨Function.update s.proc p (some d), Function.update s.opening p opening, file⟩

@[simp] theorem put_opening (s : OpenFiles ι) (p : ι) (d : Descriptors)
    (opening : Option (Fin NR_OPEN × Fin NR_FILE)) (file : FileTable) :
    (s.put p d opening file).opening = Function.update s.opening p opening :=
  rfl

def fileStep (s : OpenFiles ι) : FileAct ι → Option (Option FileEvent × OpenFiles ι)
  | .openStart p => (s.caller p).map fun d =>
    let (r, d, file) := openReserve d s.file
    (none, s.put p d r file)
  | .openEnd p e => (s.proc p).bind fun d => (s.opening p).map fun (fd, f) =>
    let (ev, d, file) := openFinish fd f e d s.file
    (ev, s.put p d none file)
  | .close p fd => (s.caller p).bind fun d => (sysClose fd d s.file).map fun (_, ev, d, file) =>
    (ev, s.put p d none file)
  | .dup p fildes => (s.caller p).map fun d =>
    let (_, d, file) := dupfd fildes 0 d s.file
    (none, s.put p d none file)
  | .fork p child => (s.caller p).bind fun d =>
    if s.proc child = none then some (none, s.put child d none (forkFiles d s.file)) else none

theorem pointsAt_put {s : OpenFiles ι} {p : ι} {d : Descriptors} (hp : s.proc p = some d)
    (fd : Fin NR_OPEN) (o : Option (Fin NR_FILE)) {d' : Descriptors}
    (hd : d'.filp = Function.update d.filp fd o) (opening : Option (Fin NR_OPEN × Fin NR_FILE))
    (file : FileTable) :
    pointsAt (s.put p d' opening file) = Function.update (pointsAt s) (p, fd) o := by
  funext x
  obtain ⟨q, e⟩ := x
  by_cases hq : q = p
  · subst hq
    by_cases he : e = fd
    · subst he
      simp [pointsAt, OpenFiles.put, hd]
    · have hne : (q, e) ≠ (q, fd) := fun h => he (Prod.mk.inj h).2
      rw [Function.update_of_ne hne]
      simp [pointsAt, OpenFiles.put, hd, hp, he]
  · have hne : (q, e) ≠ (p, fd) := fun h => hq (Prod.mk.inj h).1
    rw [Function.update_of_ne hne]
    simp [pointsAt, OpenFiles.put, hq]

theorem pointsAt_same {s : OpenFiles ι} {p : ι} {d d' : Descriptors} (hp : s.proc p = some d)
    (hd : d'.filp = d.filp) (opening : Option (Fin NR_OPEN × Fin NR_FILE)) (file : FileTable) :
    pointsAt (s.put p d' opening file) = pointsAt s := by
  funext x
  obtain ⟨q, e⟩ := x
  by_cases hq : q = p
  · subst hq
    simp [pointsAt, OpenFiles.put, hd, hp]
  · simp [pointsAt, OpenFiles.put, hq]

section Steps
variable [Fintype ι] {s : OpenFiles ι} {p : ι} {d : Descriptors}

theorem FilesCounted.same (h : FilesCounted s) (ho : s.opening p = none) (hp : s.proc p = some d)
    {d' : Descriptors} (hd : d'.filp = d.filp) : FilesCounted (s.put p d' none s.file) := by
  have hopening : (s.put p d' none s.file).opening = s.opening := by
    rw [OpenFiles.put, ← ho]
    exact Function.update_eq_self p s.opening
  have hpoints := pointsAt_same hp hd none s.file
  constructor
  · have hrefs : fileRefs (s.put p d' none s.file) = fileRefs s := by
      simp only [fileRefs, hpoints, hopening]
      rfl
    rw [hrefs]
    exact h.valid
  · rw [hpoints, hopening]
    exact h.reserved

/-- The file found for `sys_open` has no pointers, and the descriptor is empty. -/
theorem FilesCounted.reserve (h : FilesCounted s) (ho : s.opening p = none)
    (hp : s.proc p = some d) {fd : Fin NR_OPEN} {f : Fin NR_FILE} (hfd : d.filp fd = none)
    (hf : (s.file f).fCount = 0) :
    FilesCounted (s.put p ((d.keepOnExec fd).set fd (some f)) (some (fd, f))
      (incCount s.file f)) := by
  have hpoints := pointsAt_put hp fd (some f)
    (rfl : ((d.keepOnExec fd).set fd (some f)).filp = Function.update d.filp fd (some f))
      (some (fd, f))
    (incCount s.file f)
  have hempty : pointsAt s (p, fd) = none := by simp [pointsAt, hp, hfd]
  have hone : ((s.file f).fCount + 1) % 65536 = 1 := by rw [hf]
  have hother : ∀ q, q ≠ p →
      (s.put p ((d.keepOnExec fd).set fd (some f)) (some (fd, f)) (incCount s.file f)).opening q =
        s.opening q := fun q hq => Function.update_of_ne hq ..
  have hself : (s.put p ((d.keepOnExec fd).set fd (some f)) (some (fd, f))
    (incCount s.file f)).opening p =
      some (fd, f) := Function.update_self ..
  constructor
  · have htaken := h.valid.take hf
    have hpoint := htaken.point
      (fileRefs (s.put p ((d.keepOnExec fd).set fd (some f)) (some (fd, f))
        (incCount s.file f))).sole rfl hempty
      ?_ ?_
    · have hcount : (fun g => (incCount s.file f g).fCount) = Function.update
          (fun g => (s.file g).fCount) f 1 := by
        rw [incCount, setCount, fCount_update, hone]
      have hrefs : fileRefs
        (s.put p ((d.keepOnExec fd).set fd (some f)) (some (fd, f)) (incCount s.file f)) =
          ⟨Function.update (pointsAt s) (p, fd) (some f),
            (fileRefs (s.put p ((d.keepOnExec fd).set fd (some f))
            (some (fd, f)) (incCount s.file f))).sole, [],
              Function.update (fun g => (s.file g).fCount) f 1⟩ := by
        rw [← hcount, ← hpoints]
        rfl
      rw [hrefs]
      exact hpoint
    · intro x hx hsole
      obtain ⟨g, hg⟩ := hsole
      by_cases hxp : x.1 = p
      · rw [hxp, hself] at hg
        cases hg
        exact absurd (Prod.ext hxp rfl : x = (p, x.2)) hx
      · rw [hother x.1 hxp] at hg
        exact ⟨g, hg⟩
    · intro _
      exact Function.update_self ..
  · intro q e g hq
    rw [hpoints]
    by_cases hqp : q = p
    · subst hqp
      rw [hself] at hq
      cases hq
      exact Function.update_self ..
    · rw [hother q hqp] at hq
      have hne : (q, e) ≠ (p, fd) := fun heq => hqp (Prod.mk.inj heq).1
      rw [Function.update_of_ne hne]
      exact h.reserved q e g hq

omit [Fintype ι] in
theorem opening_put_none (q : ι) (d' : Descriptors) (file : FileTable) (x : ι × Fin NR_OPEN)
    (g : Fin NR_FILE) (hx : (s.put q d' none file).opening x.1 = some (x.2, g)) :
    s.opening x.1 = some (x.2, g) := by
  by_cases hq : x.1 = q
  · rw [hq, put_opening, Function.update_self] at hx
    cases hx
  · rwa [put_opening, Function.update_of_ne hq] at hx

theorem FilesCounted.giveBack (h : FilesCounted s) (hp : s.proc p = some d) {fd : Fin NR_OPEN}
    {f : Fin NR_FILE} (ho : s.opening p = some (fd, f)) :
    FilesCounted (s.put p (d.set fd none) none (setCount s.file f 0)) := by
  have hpoints := pointsAt_put hp fd none
    (rfl : (d.set fd none).filp = Function.update d.filp fd none) none
    (setCount s.file f 0)
  have hcount : (fun g => (setCount s.file f 0 g).fCount) =
      Function.update (fun g => (s.file g).fCount) f ((s.file f).fCount - 1) := by
    rw [setCount, fCount_update, h.sole ho]
  constructor
  · have hdrop := (h.valid.unpoint (h.reserved p fd f ho)).drop rfl
    have hrefs : fileRefs (s.put p (d.set fd none) none (setCount s.file f 0)) =
        ⟨Function.update (pointsAt s) (p, fd) none,
          (fileRefs (s.put p (d.set fd none) none (setCount s.file f 0))).sole, [],
          Function.update (fun g => (s.file g).fCount) f ((s.file f).fCount - 1)⟩ := by
      rw [← hcount, ← hpoints]
      rfl
    rw [hrefs]
    apply hdrop.resole
    intro x g hx _
    obtain ⟨g', hg'⟩ := hx
    exact .inl ⟨g', opening_put_none p (d.set fd none) (setCount s.file f 0) x g' hg'⟩
  · intro q e g hq
    rw [hpoints]
    have hold := opening_put_none p (d.set fd none) (setCount s.file f 0) (q, e) g hq
    have hne : (q, e) ≠ (p, fd) := by
      intro heq
      obtain ⟨rfl, rfl⟩ := Prod.mk.inj heq
      rw [put_opening, Function.update_self] at hq
      cases hq
    rw [Function.update_of_ne hne]
    exact h.reserved q e g hold

theorem FilesCounted.fill (h : FilesCounted s) (hp : s.proc p = some d) {fd : Fin NR_OPEN}
    {f : Fin NR_FILE} (ho : s.opening p = some (fd, f)) {v : File} (hv : v.fCount = 1) :
    FilesCounted (s.put p d none (Function.update s.file f v)) := by
  have hpoints := pointsAt_same hp (rfl : d.filp = d.filp) none (Function.update s.file f v)
  have hcount : (fun g => (Function.update s.file f v g).fCount) = fun g => (s.file g).fCount := by
    rw [fCount_update, hv, ← h.sole ho]
    exact Function.update_eq_self f fun g => (s.file g).fCount
  constructor
  · have hrefs : fileRefs (s.put p d none (Function.update s.file f v)) =
        ⟨pointsAt s, (fileRefs (s.put p d none (Function.update s.file f v))).sole, [],
          fun g => (s.file g).fCount⟩ := by
      rw [← hcount, ← hpoints]
      rfl
    rw [hrefs]
    apply h.valid.resole
    intro x g hx _
    obtain ⟨g', hg'⟩ := hx
    exact .inl ⟨g', opening_put_none p d (Function.update s.file f v) x g' hg'⟩
  · intro q e g hq
    rw [hpoints]
    exact h.reserved q e g (opening_put_none p d (Function.update s.file f v) (q, e) g hq)

/-- A pair of a process outside `sys_open` does not point at what another has reserved. -/
theorem FilesCounted.not_reserved (h : FilesCounted s) (ho : s.opening p = none)
    {fd : Fin NR_OPEN} {f : Fin NR_FILE} (hfd : pointsAt s (p, fd) = some f) (q : ι)
    (e : Fin NR_OPEN) : s.opening q ≠ some (e, f) := by
  intro hq
  have hsame := h.valid.unique (h.sole hq) (h.reserved q e f hq) hfd
  obtain ⟨rfl, rfl⟩ := Prod.mk.inj hsame
  rw [ho] at hq
  cases hq

/-- A descriptor of the caller is cleared, and its file counted once less. -/
theorem FilesCounted.close (h : FilesCounted s) (ho : s.opening p = none) (hp : s.proc p = some d)
    {fd : Fin NR_OPEN} {f : Fin NR_FILE} (hfd : d.filp fd = some f) :
    FilesCounted (s.put p ((d.keepOnExec fd).set fd none) none
      (setCount s.file f ((s.file f).fCount - 1))) := by
  have hpoints := pointsAt_put hp fd none
    (rfl : ((d.keepOnExec fd).set fd none).filp = Function.update d.filp fd none) none
    (setCount s.file f ((s.file f).fCount - 1))
  have hpoint : pointsAt s (p, fd) = some f := by simp [pointsAt, hp, hfd]
  have hopening : (s.put p ((d.keepOnExec fd).set fd none) none
      (setCount s.file f ((s.file f).fCount - 1))).opening = s.opening := by
    rw [OpenFiles.put, ← ho]
    exact Function.update_eq_self p s.opening
  have hcount : (fun g => (setCount s.file f ((s.file f).fCount - 1) g).fCount) =
      Function.update (fun g => (s.file g).fCount) f ((s.file f).fCount - 1) := by
    rw [setCount, fCount_update]
  constructor
  · have hdrop := (h.valid.unpoint hpoint).drop rfl
    have hrefs : fileRefs (s.put p ((d.keepOnExec fd).set fd none) none
        (setCount s.file f ((s.file f).fCount - 1))) =
        ⟨Function.update (pointsAt s) (p, fd) none, (fileRefs s).sole, [],
          Function.update (fun g => (s.file g).fCount) f ((s.file f).fCount - 1)⟩ := by
      simp only [fileRefs, hpoints, hopening, ← hcount]
      rfl
    rw [hrefs]
    exact hdrop
  · intro q e g hq
    rw [hpoints]
    rw [hopening] at hq
    have hne : (q, e) ≠ (p, fd) := by
      intro heq
      obtain ⟨rfl, rfl⟩ := Prod.mk.inj heq
      rw [ho] at hq
      cases hq
    rw [Function.update_of_ne hne]
    exact h.reserved q e g hq

variable (hfew : Fintype.card ι * NR_OPEN < 65536)

omit [DecidableEq ι] in
include hfew in
theorem refs_few (target : ι × Fin NR_OPEN → Option (Fin NR_FILE)) (f : Fin NR_FILE) :
    refs target f < 65536 := by
  have hle : refs target f ≤ Fintype.card (ι × Fin NR_OPEN) :=
    refs_le_card id fun _ _ _ _ heq => heq
  rw [Fintype.card_prod, Fintype.card_fin] at hle
  omega

include hfew in
theorem FilesCounted.dup (h : FilesCounted s) (ho : s.opening p = none) (hp : s.proc p = some d)
    {fd arg : Fin NR_OPEN} {f : Fin NR_FILE} (hfd : d.filp fd = some f) (harg : d.filp arg = none) :
    FilesCounted (s.put p ((d.keepOnExec arg).set arg (some f)) none (incCount s.file f)) := by
  have hpoints := pointsAt_put hp arg (some f)
    (rfl : ((d.keepOnExec arg).set arg (some f)).filp = Function.update d.filp arg (some f)) none
    (incCount s.file f)
  have hpoint : pointsAt s (p, fd) = some f := by simp [pointsAt, hp, hfd]
  have hempty : pointsAt s (p, arg) = none := by simp [pointsAt, hp, harg]
  have hopening : (s.put p ((d.keepOnExec arg).set arg (some f)) none (incCount s.file f)).opening =
      s.opening := by
    rw [put_opening, ← ho]
    exact Function.update_eq_self p s.opening
  have hroom : ((s.file f).fCount + 1) % 65536 = (s.file f).fCount + 1 := by
    have hupd := refs_update (pointsAt s) (p, arg) (some f) f
    have hlt := refs_few hfew (Function.update (pointsAt s) (p, arg) (some f)) f
    simp only [hempty, reduceCtorEq, if_false, if_true] at hupd
    rw [h.count f]
    omega
  have hcount : (fun g => (incCount s.file f g).fCount) =
      Function.update (fun g => (s.file g).fCount) f ((s.file f).fCount + 1) := by
    rw [incCount, hroom, setCount, fCount_update]
  have hfree : ∀ x, (fileRefs s).sole x → (fileRefs s).target x ≠ some f := by
    intro x hx hxf
    obtain ⟨g, hg⟩ := hx
    have hxg : some g = some f := (h.reserved x.1 x.2 g hg).symm.trans hxf
    cases hxg
    exact h.not_reserved ho hpoint x.1 x.2 hg
  constructor
  · have hshare := (h.valid.share hfree).point (i := (p, arg)) (fileRefs s).sole rfl hempty
      (fun _ _ hx => hx) ?_
    · have hrefs : fileRefs
        (s.put p ((d.keepOnExec arg).set arg (some f)) none (incCount s.file f)) =
          ⟨Function.update (pointsAt s) (p, arg) (some f), (fileRefs s).sole, [],
            Function.update (fun g => (s.file g).fCount) f ((s.file f).fCount + 1)⟩ := by
        simp only [fileRefs, hpoints, hopening, ← hcount]
        rfl
      rw [hrefs]
      exact hshare
    · intro hx
      obtain ⟨g, hg⟩ := hx
      rw [ho] at hg
      cases hg
  · intro q e g hq
    rw [hopening] at hq
    rw [hpoints]
    have hne : (q, e) ≠ (p, arg) := by
      intro heq
      obtain ⟨rfl, rfl⟩ := Prod.mk.inj heq
      rw [ho] at hq
      cases hq
    rw [Function.update_of_ne hne]
    exact h.reserved q e g hq

theorem incCounts_fCount (filp : Fin NR_OPEN → Option (Fin NR_FILE)) (f : Fin NR_FILE)
    (l : List (Fin NR_OPEN)) (table : FileTable)
    (hroom : (table f).fCount + (l.map fun i => if filp i = some f then 1 else 0).sum < 65536) :
    (l.foldl (fun table i => (filp i).elim table (incCount table)) table f).fCount =
      (table f).fCount + (l.map fun i => if filp i = some f then 1 else 0).sum := by
  induction l generalizing table with
  | nil => simp
  | cons i l ih =>
    simp only [List.map_cons, List.sum_cons] at hroom ⊢
    rw [List.foldl_cons]
    cases hi : filp i with
    | none =>
      simp only [hi, reduceCtorEq, if_false, Nat.zero_add] at hroom ⊢
      exact ih table hroom
    | some g =>
      by_cases hg : g = f
      · subst hg
        simp only [hi, if_true] at hroom ⊢
        have hone : (incCount table g g).fCount = (table g).fCount + 1 := by
          rw [incCount, setCount, Function.update_self]
          exact Nat.mod_eq_of_lt (by omega)
        have hrec := ih (incCount table g) (by omega)
        refine hrec.trans ?_
        rw [hone]
        omega
      · have hne : some g ≠ some f := fun e => hg (Option.some.inj e)
        simp only [hi, if_neg hne, Nat.zero_add] at hroom ⊢
        have hsame : (incCount table g f).fCount = (table f).fCount := by
          rw [incCount, setCount, Function.update_of_ne (Ne.symm hg)]
        have hrec := ih (incCount table g) (by rw [hsame]; exact hroom)
        rw [hsame] at hrec
        exact hrec

omit [DecidableEq ι] [Fintype ι] in
theorem forkFiles_fCount (d : Descriptors) (table : FileTable) (f : Fin NR_FILE)
    (hroom : (table f).fCount + refs d.filp f < 65536) :
    (forkFiles d table f).fCount = (table f).fCount + refs d.filp f := by
  have hsum : refs d.filp f = ((List.finRange NR_OPEN).map fun i => if d.filp i = some f then 1
    else 0).sum :=
    Fin.sum_univ_def _
  rw [hsum] at hroom ⊢
  exact incCounts_fCount d.filp f (List.finRange NR_OPEN) table hroom

theorem refs_fork {child : ι} (hchild : s.proc child = none) (d : Descriptors) (file : FileTable)
    (f : Fin NR_FILE) :
    refs (pointsAt (s.put child d none file)) f = refs (pointsAt s) f + refs d.filp f := by
  have hrow : ∀ q, (∑ e, if pointsAt (s.put child d none file) (q, e) = some f then 1 else 0) =
      (∑ e, if pointsAt s (q, e) = some f then 1 else 0) + if q = child then refs d.filp f
        else 0 := by
    intro q
    by_cases hq : q = child
    · subst hq
      simp [pointsAt, OpenFiles.put, hchild, refs]
    · simp [pointsAt, OpenFiles.put, hq]
  simp only [refs] at hrow ⊢
  rw [Fintype.sum_prod_type, Fintype.sum_prod_type]
  simp only [hrow, Finset.sum_add_distrib]
  simp

include hfew in
/-- The child has its parent's files, each counted once more for each descriptor. -/
theorem FilesCounted.fork (h : FilesCounted s) (ho : s.opening p = none) (hp : s.proc p = some d)
    {child : ι} (hchild : s.proc child = none) :
    FilesCounted (s.put child d none (forkFiles d s.file)) := by
  have hnone : ∀ e, pointsAt s (child, e) = none := by
    intro e
    simp [pointsAt, hchild]
  have hidle : s.opening child = none := by
    cases hopen : s.opening child with
    | none => rfl
    | some r =>
      have hres := h.reserved child r.1 r.2 hopen
      rw [hnone] at hres
      cases hres
  have hopening : (s.put child d none (forkFiles d s.file)).opening = s.opening := by
    rw [put_opening, ← hidle]
    exact Function.update_eq_self child s.opening
  have hold : ∀ x : ι × Fin NR_OPEN, x.1 ≠ child →
    pointsAt (s.put child d none (forkFiles d s.file)) x =
      pointsAt s x := by
    intro x hx
    simp [pointsAt, OpenFiles.put, hx]
  have hcount : ∀ f, (forkFiles d s.file f).fCount = (s.file f).fCount + refs d.filp f := by
    intro f
    apply forkFiles_fCount
    rw [h.count f, ← refs_fork hchild d (forkFiles d s.file) f]
    exact refs_few hfew _ f
  constructor
  · constructor
    · intro f
      refine (hcount f).trans ?_
      rw [h.count f, ← refs_fork hchild d (forkFiles d s.file) f]
      simp [fileRefs]
    · intro x f hx hxf
      obtain ⟨g, hg⟩ := hx
      rw [hopening] at hg
      have hne : x.1 ≠ child := by
        intro heq
        rw [heq, hidle] at hg
        cases hg
      have hxg := h.reserved x.1 x.2 g hg
      have hsame : pointsAt s x = some f := (hold x hne).symm.trans hxf
      cases hsame.symm.trans hxg
      have hzero : refs d.filp f = 0 := by
        rw [refs_eq_zero]
        intro e he
        exact h.not_reserved ho (by simp [pointsAt, hp, he] : pointsAt s (p, e) = some f) x.1 x.2 hg
      refine (hcount f).trans ?_
      rw [hzero, h.sole hg]
  · intro q e f hq
    rw [hopening] at hq
    have hne : q ≠ child := by
      intro heq
      rw [heq, hidle] at hq
      cases hq
    rw [hold (q, e) hne]
    exact h.reserved q e f hq

theorem lowestFd_free {d : Descriptors} {arg : Nat} {fd : Fin NR_OPEN}
    (h : lowestFd d arg = some fd) :
    d.filp fd = none := by
  have hfound := List.find?_some h
  simp only [decide_eq_true_eq, Option.isNone_iff_eq_none] at hfound
  exact hfound.2

theorem lowestFile_free {table : FileTable} {f : Fin NR_FILE} (h : lowestFile table = some f) :
    (table f).fCount = 0 := by
  simpa using List.find?_some h

theorem FilesCounted.openStart (h : FilesCounted s) (ho : s.opening p = none)
    (hp : s.proc p = some d) :
    FilesCounted (s.put p (openReserve d s.file).2.1 (openReserve d s.file).1
      (openReserve d s.file).2.2) := by
  simp only [openReserve]
  cases hfd : lowestFd d 0 with
  | none => exact h.same ho hp rfl
  | some fd =>
    cases hf : lowestFile s.file with
    | none => exact h.same ho hp rfl
    | some f => exact h.reserve ho hp (lowestFd_free hfd) (lowestFile_free hf)

theorem FilesCounted.openEnd (h : FilesCounted s) (hp : s.proc p = some d) {fd : Fin NR_OPEN}
    {f : Fin NR_FILE} (ho : s.opening p = some (fd, f)) (e : OpenEnd) :
    FilesCounted (s.put p (openFinish fd f e d s.file).2.1 none
      (openFinish fd f e d s.file).2.2) := by
  cases e with
  | failed => exact h.giveBack hp ho
  | noTerminal inode => exact h.giveBack hp ho
  | opened inode iMode flag => exact h.fill hp ho rfl

omit [DecidableEq ι] in
theorem FilesCounted.sysClose (h : FilesCounted s) (hp : s.proc p = some d) (fd : Nat) :
    (∃ d' r, Fs.sysClose fd d s.file = some (r, none, d', s.file) ∧ d'.filp = d.filp ∧
      ∀ f (e : Fin NR_OPEN), e.val = fd → pointsAt s (p, e) ≠ some f) ∨
    (∃ e f, e.val = fd ∧ d.filp e = some f ∧ Fs.sysClose fd d s.file =
      some (0, if (s.file f).fCount = 1 then some (.iput f (s.file f).fInode) else none,
        (d.keepOnExec fd).set e none, setCount s.file f ((s.file f).fCount - 1))) := by
  by_cases hfd : fd < NR_OPEN
  · have hkeep : (d.keepOnExec fd).filp ⟨fd, hfd⟩ = d.filp ⟨fd, hfd⟩ := rfl
    simp only [Fs.sysClose, dif_pos hfd, hkeep]
    cases hf : d.filp ⟨fd, hfd⟩ with
    | none =>
      left
      refine ⟨d.keepOnExec fd, -EINVAL, rfl, rfl, ?_⟩
      intro f e he hpoint
      have hee : e = ⟨fd, hfd⟩ := Fin.ext he
      rw [hee] at hpoint
      simp [pointsAt, hp, hf] at hpoint
    | some f =>
      right
      have hpos : (s.file f).fCount ≠ 0 := by
        have hpoint : (fileRefs s).target (p, ⟨fd, hfd⟩) = some f := by
          simp [fileRefs, pointsAt, hp, hf]
        exact h.valid.count_pos hpoint
      refine ⟨⟨fd, hfd⟩, f, rfl, hf, ?_⟩
      have hself : setCount s.file f ((s.file f).fCount - 1) f =
          { s.file f with fCount := (s.file f).fCount - 1 } := Function.update_self ..
      simp only [if_neg hpos, hself]
      by_cases hone : (s.file f).fCount = 1
      · rw [if_pos hone, if_neg]
        omega
      · rw [if_neg hone, if_pos]
        omega
  · left
    refine ⟨d, -EINVAL, by rw [Fs.sysClose, dif_neg hfd], rfl, ?_⟩
    intro f e he _
    exact hfd (he ▸ e.isLt)

include hfew in
theorem FilesCounted.dupfd (h : FilesCounted s) (ho : s.opening p = none) (hp : s.proc p = some d)
    (fd arg : Nat) :
    FilesCounted (s.put p (Fs.dupfd fd arg d s.file).2.1 none (Fs.dupfd fd arg d s.file).2.2) := by
  simp only [Fs.dupfd]
  by_cases hfd : fd < NR_OPEN
  · rw [dif_pos hfd]
    cases hf : d.filp ⟨fd, hfd⟩ with
    | none => exact h.same ho hp rfl
    | some f =>
      by_cases harg : arg ≥ NR_OPEN
      · simp only [if_pos harg]
        exact h.same ho hp rfl
      · simp only [if_neg harg]
        cases hfree : lowestFd d arg with
        | none => exact h.same ho hp rfl
        | some arg => exact h.dup hfew ho hp hf (lowestFd_free hfree)
  · rw [dif_neg hfd]
    exact h.same ho hp rfl

include hfew in
theorem FilesCounted.step (h : FilesCounted s) {a : FileAct ι} {ev : Option FileEvent}
    {s' : OpenFiles ι} (hstep : fileStep s a = some (ev, s')) : FilesCounted s' := by
  cases a with
  | openStart p =>
    obtain ⟨d, hd, hs⟩ := Option.map_eq_some_iff.mp hstep
    obtain ⟨ho, hp⟩ := caller_some hd
    cases hs
    exact h.openStart ho hp
  | openEnd p e =>
    obtain ⟨d, hp, hs⟩ := Option.bind_eq_some_iff.mp hstep
    obtain ⟨⟨fd, f⟩, ho, hs⟩ := Option.map_eq_some_iff.mp hs
    cases hs
    exact h.openEnd hp ho e
  | close p fd =>
    obtain ⟨d, hd, hs⟩ := Option.bind_eq_some_iff.mp hstep
    obtain ⟨ho, hp⟩ := caller_some hd
    obtain ⟨r, hclose, hs⟩ := Option.map_eq_some_iff.mp hs
    cases h.sysClose hp fd with
    | inl hnone =>
      obtain ⟨d', n, hn, hfilp, -⟩ := hnone
      cases hn.symm.trans hclose
      cases hs
      exact h.same ho hp hfilp
    | inr hsome =>
      obtain ⟨e, f, rfl, hf, hn⟩ := hsome
      cases hn.symm.trans hclose
      cases hs
      exact h.close ho hp hf
  | dup p fildes =>
    obtain ⟨d, hd, hs⟩ := Option.map_eq_some_iff.mp hstep
    obtain ⟨ho, hp⟩ := caller_some hd
    cases hs
    exact h.dupfd hfew ho hp fildes 0
  | fork p child =>
    obtain ⟨d, hd, hs⟩ := Option.bind_eq_some_iff.mp hstep
    obtain ⟨ho, hp⟩ := caller_some hd
    by_cases hchild : s.proc child = none
    · rw [if_pos hchild] at hs
      cases hs
      exact h.fork hfew ho hp hchild
    · rw [if_neg hchild] at hs
      cases hs

def pairs (s : OpenFiles ι) (f : Fin NR_FILE) : Finset (ι × Fin NR_OPEN) :=
  Finset.univ.filter fun x => pointsAt s x = some f

omit [DecidableEq ι] in
theorem mem_pairs {x : ι × Fin NR_OPEN} {f : Fin NR_FILE} :
    x ∈ pairs s f ↔ pointsAt s x = some f := by
  simp [pairs]

omit [DecidableEq ι] in
theorem FilesCounted.card_pairs (h : FilesCounted s) (f : Fin NR_FILE) :
    (s.file f).fCount = (pairs s f).card := by
  rw [h.count f, pairs, Finset.card_filter]
  rfl

omit [DecidableEq ι] in
/-- A pair that points at a file is the last one exactly when the count is 1. -/
theorem FilesCounted.last_iff (h : FilesCounted s) {x : ι × Fin NR_OPEN} {f : Fin NR_FILE}
    (hx : pointsAt s x = some f) :
    (s.file f).fCount = 1 ↔ pairs s f = {x} := by
  rw [h.card_pairs f]
  constructor
  · intro hone
    obtain ⟨y, hy⟩ := Finset.card_eq_one.mp hone
    have hmem := mem_pairs.mpr hx
    rw [hy, Finset.mem_singleton] at hmem
    rw [hy, hmem]
  · intro hsingle
    rw [hsingle]
    exact Finset.card_singleton x

/-- `iput` of the inode of `f` is what the step does exactly when it closes the last pair. -/
theorem FilesCounted.iput_iff (h : FilesCounted s) {a : FileAct ι} {ev : Option FileEvent}
    {s' : OpenFiles ι} (hstep : fileStep s a = some (ev, s')) (f : Fin NR_FILE) :
    ev = some (.iput f (s.file f).fInode) ↔ ∃ p e, a = .close p (e : Fin NR_OPEN).val ∧
    pairs s f = {(p, e)} := by
  have hno : ev = none → (∀ p e, a = .close p (e : Fin NR_OPEN).val → pairs s f ≠ {(p, e)}) →
      (ev = some (.iput f (s.file f).fInode) ↔ ∃ p e, a = .close p (e : Fin NR_OPEN).val ∧
        pairs s f = {(p, e)}) := by
    intro hev hpairs
    apply iff_of_false
    · intro hsome
      rw [hev] at hsome
      cases hsome
    · rintro ⟨p, e, ha, hlast⟩
      exact hpairs p e ha hlast
  cases a with
  | openStart p =>
    obtain ⟨d, hd, hs⟩ := Option.map_eq_some_iff.mp hstep
    cases hs
    exact hno rfl (fun _ _ ha => by cases ha)
  | openEnd p e =>
    obtain ⟨d, hp, hs⟩ := Option.bind_eq_some_iff.mp hstep
    obtain ⟨⟨fd, g⟩, ho, hs⟩ := Option.map_eq_some_iff.mp hs
    cases hs
    cases e with
    | failed => exact hno rfl (fun _ _ ha => by cases ha)
    | noTerminal inode =>
      apply iff_of_false
      · intro hsome
        cases hsome
      · rintro ⟨_, _, ha, _⟩
        cases ha
    | opened inode iMode flag => exact hno rfl (fun _ _ ha => by cases ha)
  | dup p fildes =>
    obtain ⟨d, hd, hs⟩ := Option.map_eq_some_iff.mp hstep
    cases hs
    exact hno rfl (fun _ _ ha => by cases ha)
  | fork p child =>
    obtain ⟨d, hd, hs⟩ := Option.bind_eq_some_iff.mp hstep
    by_cases hchild : s.proc child = none
    · rw [if_pos hchild] at hs
      cases hs
      exact hno rfl (fun _ _ ha => by cases ha)
    · rw [if_neg hchild] at hs
      cases hs
  | close p fd =>
    obtain ⟨d, hd, hs⟩ := Option.bind_eq_some_iff.mp hstep
    obtain ⟨ho, hp⟩ := caller_some hd
    obtain ⟨r, hclose, hs⟩ := Option.map_eq_some_iff.mp hs
    cases h.sysClose hp fd with
    | inl hnone =>
      obtain ⟨d', n, hn, -, hpoint⟩ := hnone
      cases hn.symm.trans hclose
      cases hs
      apply hno rfl
      intro q e ha hlast
      cases ha
      have hmem : (p, e) ∈ pairs s f := by
        rw [hlast]
        exact Finset.mem_singleton_self (p, e)
      exact hpoint f e rfl (mem_pairs.mp hmem)
    | inr hsome =>
      obtain ⟨e, g, rfl, hg, hn⟩ := hsome
      cases hn.symm.trans hclose
      cases hs
      have hpoint : pointsAt s (p, e) = some g := by simp [pointsAt, hp, hg]
      by_cases hgf : g = f
      · subst hgf
        by_cases hone : (s.file g).fCount = 1
        · simp only [if_pos hone, true_iff]
          exact ⟨p, e, rfl, (h.last_iff hpoint).mp hone⟩
        · simp only [if_neg hone, reduceCtorEq, false_iff]
          rintro ⟨q, e', ha, hlast⟩
          have hpair : (p, e) ∈ pairs s g := mem_pairs.mpr hpoint
          rw [hlast, Finset.mem_singleton] at hpair
          rw [← hpair] at hlast
          exact hone ((h.last_iff hpoint).mpr hlast)
      · apply iff_of_false
        · intro hev
          by_cases hone : (s.file g).fCount = 1
          · rw [if_pos hone] at hev
            cases hev
            exact hgf rfl
          · rw [if_neg hone] at hev
            cases hev
        · rintro ⟨q, e', ha, hlast⟩
          have hpair : (q, e') ∈ pairs s f := by
            rw [hlast]
            exact Finset.mem_singleton_self (q, e')
          obtain ⟨rfl, hval⟩ : p = q ∧ e.val = e'.val := by
            injection ha with h₁ h₂
            exact ⟨h₁, h₂⟩
          rw [← Fin.ext hval, mem_pairs, hpoint] at hpair
          exact hgf (Option.some.inj hpair)

structure NoFiles (s : OpenFiles ι) : Prop where
  filp : ∀ p d, s.proc p = some d → ∀ fd, d.filp fd = none
  opening : ∀ p, s.opening p = none
  count : ∀ f, (s.file f).fCount = 0

omit [DecidableEq ι] in
theorem filesCounted_noFiles (h : NoFiles s) : FilesCounted s := by
  have hnone : ∀ x, pointsAt s x = none := by
    intro x
    cases hx : s.proc x.1 with
    | none => simp [pointsAt, hx]
    | some d => simp [pointsAt, hx, h.filp x.1 d hx x.2]
  constructor
  · constructor
    · intro f
      have hzero : refs (pointsAt s) f = 0 := by
        rw [refs_eq_zero]
        intro x hx
        rw [hnone x] at hx
        cases hx
      simp [fileRefs, h.count f, hzero]
    · intro x f hx
      obtain ⟨g, hg⟩ := hx
      rw [h.opening] at hg
      cases hg
  · intro p fd f hopen
    rw [h.opening] at hopen
    cases hopen

structure ExactCounts (s : OpenFiles ι) : Prop where
  count : ∀ f, (s.file f).fCount = (pairs s f).card
  free : ∀ f, (s.file f).fCount = 0 → ∀ x, pointsAt s x ≠ some f
  iput : ∀ a ev s', fileStep s a = some (ev, s') → ∀ f,
    ev = some (.iput f (s.file f).fInode) ↔ ∃ p e, a = .close p (e : Fin NR_OPEN).val ∧
      pairs s f = {(p, e)}
  closes : ∀ p d fd, s.caller p = some d → (sysClose fd d s.file).isSome

theorem FilesCounted.exact (h : FilesCounted s) : ExactCounts s := by
  refine ⟨h.card_pairs, ?_, fun _ _ _ hstep f => h.iput_iff hstep f, ?_⟩
  · intro f hzero x hx
    exact h.valid.count_pos (r := fileRefs s) hx hzero
  · intro p d fd hd
    obtain ⟨ho, hp⟩ := caller_some hd
    cases h.sysClose hp fd with
    | inl hnone =>
      obtain ⟨_, _, hn, -⟩ := hnone
      rw [hn]
      rfl
    | inr hsome =>
      obtain ⟨_, _, -, -, hn⟩ := hsome
      rw [hn]
      rfl

end Steps

theorem file_counts_exact [Fintype ι] (s : OpenFiles ι) (hnone : NoFiles s)
    (hfew : Fintype.card ι * NR_OPEN < 65536) (as : List (FileAct ι)) (evs : List FileEvent)
    (t : OpenFiles ι) (hrun : trace fileStep s as = some (evs, t)) :
    ExactCounts t :=
  (trace_inv (fun _ _ _ _ h hstep => h.step hfew hstep) (filesCounted_noFiles hnone)
    hrun : FilesCounted t).exact

def firstProcess : OpenFiles (Fin 64) :=
  ⟨fun p => if p = 0 then some ⟨fun _ => none, 0⟩ else none, fun _ => none,
    fun _ => ⟨0, 0, 0, .null, 0⟩⟩

theorem noFiles_firstProcess : NoFiles firstProcess := by
  refine ⟨?_, fun _ => rfl, fun _ => rfl⟩
  intro p d hp fd
  by_cases hz : p = 0
  · simp only [firstProcess, if_pos hz] at hp
    cases hp
    rfl
  · simp only [firstProcess, if_neg hz] at hp
    cases hp

/-- A file is opened, copied with `dup`, shared with a child, and closed once. -/
theorem file_counts_exact_shared : ∃ evs t, trace fileStep firstProcess
    [.openStart 0, .openEnd 0 (.opened .null 0 0), .dup 0 0, .fork 0 1, .close 1 0] =
      some (evs, t) ∧ ExactCounts t :=
  ⟨_, _, rfl, file_counts_exact firstProcess noFiles_firstProcess (by decide)
    [.openStart 0, .openEnd 0 (.opened .null 0 0), .dup 0 0, .fork 0 1, .close 1 0] _ _ rfl⟩

end Machine

end Hios.Fs
