import Hios.Fs.Namei
import Hios.Lib.Outcome

/-! `sys_open`, and what it does with the inode of an existing file. -/
namespace Hios.Fs
open Hios.Outcome

def freeFd (fs : FileSystem) : Option (Fin NR_OPEN) :=
  (List.finRange NR_OPEN).find? fun fd => (fs.filp fd).isNone

def freeFile (fs : FileSystem) : Option (Fin NR_FILE) :=
  (List.finRange NR_FILE).find? fun f => (fs.file f).fCount = 0

/-- `current->filp[fd] = NULL; f->f_count = 0`. -/
def dropFile (fd : Fin NR_OPEN) (f : Fin NR_FILE) (fs : FileSystem) : FileSystem :=
  (fs.setFilp fd none).setFile f { fs.file f with fCount := 0 }

/-- `sys_open` behind a successful `open_namei`. -/
def openInode (fd : Fin NR_OPEN) (f : Fin NR_FILE) (i : InodeIx) (flag : Nat) (fs : FileSystem) :
    Except Panic (Int × FileSystem) :=
  let m := fs.inode i
  let file : File := ⟨m.d.iMode, flag % 65536, 1, .entry i, 0⟩
  if S_ISCHR m.d.iMode ∧ MAJOR (m.d.iZone 0) = 4 ∧ fs.leader ∧ fs.tty < 0 then
    let fs := { fs with
      tty := MINOR (m.d.iZone 0)
      ttyPgrp := Function.update fs.ttyPgrp (MINOR (m.d.iZone 0)) fs.pgrp }
    .ok (fd.val, fs.setFile f file)
  else if S_ISCHR m.d.iMode ∧ MAJOR (m.d.iZone 0) = 5 ∧ fs.tty < 0 then do
    let fs ← iput i fs
    return (-EPERM, dropFile fd f fs)
  else .ok (fd.val, fs.setFile f file)

/-- `inode` is the value of the uninitialised local, `uninit` that of the local
`new_inode` returns. `check_disk_change` does nothing. -/
def sysOpen (filename : List Byte) (flag mode : Nat) (inode uninit : InodePtr) (fs : FileSystem) :
    Except Panic (Int × FileSystem) :=
  match freeFd fs with
  | none => .ok (-EINVAL, fs)
  | some fd =>
    let fs := { fs with closeOnExec := fs.closeOnExec &&& ~~~(1#32 <<< fd.val) }
    match freeFile fs with
    | none => .ok (-EINVAL, fs)
    | some f => do
      let fs := (fs.setFilp fd (some f)).setFile f
        { fs.file f with fCount := (fs.file f).fCount + 1 }
      let (r, res, fs) ← openNamei filename flag (mode &&& allowed fs) uninit fs
      if r < 0 then return (r, dropFile fd f fs) else
      match res.getD inode with
      | .null | .wild => throw .wildPointer
      | .entry i => openInode fd f i flag fs

/-- Device and number of the inode that a path names: the directory entry that
`open_namei` finds. -/
def resolve (path : List Byte) (fs : FileSystem) : Except Panic (Option (Nat × Nat)) := do
  let (r, fs) ← dirNamei path fs
  match r with
  | none => return none
  | some (dir, basename) =>
    let (de, dir, fs) ← findEntry dir basename fs
    return de.map fun de => ((fs.inode dir).iDev, de.inode)

def countOf (dev nr : Nat) (fs : FileSystem) : Nat :=
  match findInode fs dev nr with
  | none => 0
  | some i => (fs.inode i).iCount

/-- `open_namei` returns 0 with inode `(dev, nr)` in `*res_inode`, whatever the
variable held before, counted once more and truncated on `O_TRUNC`. -/
def NameiHandsBack (dev nr : Nat) (path : List Byte) (flag mode : Nat) (uninit : InodePtr)
    (fs : FileSystem) : Prop :=
  ∀ before : InodePtr, ∃ res i fs', openNamei path flag mode uninit fs = .ok (0, res, fs') ∧
    res.getD before = .entry i ∧ (fs'.inode i).iDev = dev ∧ (fs'.inode i).iNum = nr ∧
    (fs'.inode i).iCount = countOf dev nr fs + 1 ∧
    (flag &&& O_TRUNC ≠ 0 → (fs'.inode i).d.iSize = 0)

def OpenHandsBack (dev nr : Nat) (path : List Byte) (flag mode : Nat) (uninit : InodePtr)
    (fs : FileSystem) : Prop :=
  ∀ inode : InodePtr, ∃ fd f i fs', sysOpen path flag mode inode uninit fs = .ok (fd.val, fs') ∧
    freeFd fs = some fd ∧ fs'.filp fd = some f ∧ (fs'.file f).fInode = .entry i ∧
    (fs'.inode i).iDev = dev ∧ (fs'.inode i).iNum = nr ∧ (fs'.file f).fCount = 1 ∧
    (fs'.file f).fPos = 0

theorem createEntry_stores_nothing {dir : InodeIx} {basename : List Byte} {flag mode : Nat}
    {uninit : InodePtr} {fs fs' : FileSystem} {r : Int} {res : Option InodePtr}
    (h : createEntry dir basename flag mode uninit fs = .ok (r, res, fs')) : res = none := by
  unfold createEntry at h
  split at h
  · simp only [bind_eq_ok, pure, Except.pure, Except.ok.injEq, Prod.mk.injEq] at h
    obtain ⟨_, -, -, h, -⟩ := h
    exact h.symm
  · split at h
    · simp only [bind_eq_ok, pure, Except.pure, Except.ok.injEq, Prod.mk.injEq] at h
      obtain ⟨_, -, -, h, -⟩ := h
      exact h.symm
    · cases uninit with
      | null =>
        simp only [bind_eq_ok, pure, Except.pure, Except.ok.injEq, Prod.mk.injEq] at h
        obtain ⟨_, -, -, h, -⟩ := h
        exact h.symm
      | wild => simp at h
      | entry i =>
        simp only [addEntry, bind_eq_ok, pure, Except.pure, Except.ok.injEq] at h
        obtain ⟨_, rfl, h⟩ := h
        simp only [bind_eq_ok, Except.ok.injEq, Prod.mk.injEq] at h
        obtain ⟨_, -, _, -, -, h, -⟩ := h
        exact h.symm

theorem openFound_stores_nothing {dir : InodeIx} {de : DirEntry} {flag : Nat}
    {fs fs' : FileSystem} {r : Int} {res : Option InodePtr}
    (h : openFound dir de flag fs = .ok (r, res, fs')) : res = none := by
  simp only [openFound, pure, Except.pure, bind_eq_ok] at h
  obtain ⟨fs₁, -, fs₂, -, h⟩ := h
  split at h
  · exact (Prod.mk.inj (Prod.mk.inj (Except.ok.inj h)).2).1.symm
  · simp only [bind_eq_ok, Prod.exists] at h
    obtain ⟨i, fs₃, -, h⟩ := h
    split at h
    · simp only [bind_eq_ok, Except.ok.injEq, Prod.mk.injEq] at h
      obtain ⟨_, -, -, h, -⟩ := h
      exact h.symm
    · exact (Prod.mk.inj (Prod.mk.inj (Except.ok.inj h)).2).1.symm

theorem openNamei_stores_nothing {path : List Byte} {flag mode : Nat} {uninit : InodePtr}
    {fs fs' : FileSystem} {r : Int} {res : Option InodePtr} (hname : baseName path ≠ [])
    (h : openNamei path flag mode uninit fs = .ok (r, res, fs')) : res = none := by
  simp only [openNamei, dirNamei, bind_eq_ok, pure, Except.pure, Except.ok.injEq, Prod.exists] at h
  obtain ⟨d, fs₁, ⟨dir, fs₂, -, hdir⟩, h⟩ := h
  obtain ⟨rfl, rfl⟩ := Prod.mk.inj hdir
  cases dir with
  | none => exact (Prod.mk.inj (Prod.mk.inj (Except.ok.inj h)).2).1.symm
  | some dir =>
    simp only [Option.map_some, if_neg hname, bind_eq_ok, Prod.exists] at h
    obtain ⟨de, dir, fs₃, -, h⟩ := h
    cases de with
    | none => exact createEntry_stores_nothing h
    | some de => exact openFound_stores_nothing h

theorem not_nameiHandsBack {dev nr : Nat} {path : List Byte} {flag mode : Nat} {uninit : InodePtr}
    {fs : FileSystem} (hname : baseName path ≠ []) :
    ¬ NameiHandsBack dev nr path flag mode uninit fs := by
  intro h
  obtain ⟨res, i, fs', hopen, hres, -⟩ := h .null
  rw [openNamei_stores_nothing hname hopen] at hres
  cases hres

theorem sysOpen_wild {path : List Byte} {flag mode : Nat} {uninit : InodePtr} {fs fs' : FileSystem}
    {r : Int} (hname : baseName path ≠ [])
    (h : sysOpen path flag mode .wild uninit fs = .ok (r, fs')) : r < 0 := by
  unfold sysOpen at h
  split at h
  · obtain ⟨rfl, -⟩ := Prod.mk.inj (Except.ok.inj h)
    decide
  · simp only at h
    split at h
    · obtain ⟨rfl, -⟩ := Prod.mk.inj (Except.ok.inj h)
      decide
    · simp only [bind_eq_ok, Prod.exists] at h
      obtain ⟨r', res, fs₁, hopen, h⟩ := h
      by_cases hr : r' < 0
      · rw [if_pos hr] at h
        obtain ⟨rfl, -⟩ := Prod.mk.inj (Except.ok.inj h)
        exact hr
      · rw [if_neg hr, openNamei_stores_nothing hname hopen] at h
        cases h

/-- Opening an existing file by its name never hands it back. -/
theorem opened_inode_never_handed_back (dev nr : Nat) (path : List Byte) (flag mode : Nat)
    (uninit : InodePtr) (fs : FileSystem) (hname : baseName path ≠ []) :
    ¬ NameiHandsBack dev nr path flag mode uninit fs ∧
      ¬ OpenHandsBack dev nr path flag mode uninit fs := by
  refine ⟨not_nameiHandsBack hname, fun h => ?_⟩
  obtain ⟨fd, f, i, fs', hopen, -⟩ := h .wild
  have hneg := sysOpen_wild hname hopen
  omega

section SmallDisk

/-- Device 1 with one block for each bitmap: inodes in block 4, the root directory
in block 5 with the single entry `f`, which is inode 2, a regular file of mode 644. -/
def smallDisk (dev block : Nat) : Block :=
  let root : DInode := (((DInode.zero.setMode 0o040755).setSize 16).setNlinks 1).setZone 0 5
  let file : DInode := (DInode.zero.setMode 0o100644).setNlinks 1
  if dev = 1 ∧ block = 4 then (Block.setDInode (fun _ => 0) 0 root).setDInode 1 file
  else if dev = 1 ∧ block = 5 then fun j => if j = 0 then 2 else if j = 2 then 102 else 0
  else fun _ => 0

def smallSuper : SuperBlock := ⟨32, 16, 1, 1, 5, fun _ => none, fun _ => none, 1, .null⟩

def smallFs : FileSystem where
  disk := smallDisk
  reads := 0
  readable := fun _ _ _ => true
  buffer := fun _ _ => none
  inode := fun i => if i = 0 then
      ⟨(smallDisk 1 4).dInode 0, 1, 1, 3, false, false, false, false⟩ else .zero
  lastInode := 0
  super := fun k => if k = 0 then smallSuper else { smallSuper with sDev := 0 }
  file := fun _ => ⟨0, 0, 0, .null, 0⟩
  root := .entry 0
  pwd := .entry 0
  euid := 0
  egid := 0
  umask := 0
  filp := fun _ => none
  closeOnExec := 0
  leader := false
  tty := -1
  pgrp := 0
  ttyPgrp := fun _ => 0

/-- `open("f", O_RDONLY)`: the path resolves to inode 2, which ends up in core with
one reference, and 0 is returned with nothing in `*res_inode`. -/
theorem open_existing_loses_inode :
    (resolve [102] smallFs).toOption = some (some (1, 2)) ∧
    ((openNamei [102] 0 0 .null smallFs).toOption.map fun r =>
      (r.1, r.2.1, (findInode r.2.2 1 2).map fun i => (r.2.2.inode i).iCount)) =
        some (0, none, some 1) ∧
    ¬ NameiHandsBack 1 2 [102] 0 0 .null smallFs := by
  refine ⟨by decide +kernel, by decide +kernel, not_nameiHandsBack (by decide)⟩

theorem opened_inode_never_handed_back_small :
    baseName [102] ≠ [] ∧ ¬ NameiHandsBack 1 2 [102] 0 0 .null smallFs ∧
      ¬ OpenHandsBack 1 2 [102] 0 0 .null smallFs :=
  ⟨by decide, opened_inode_never_handed_back 1 2 [102] 0 0 .null smallFs (by decide)⟩

end SmallDisk

end Hios.Fs
