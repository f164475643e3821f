import Hios.Fs.FileTable

/-! `sys_open`, `sys_close` and fork by several processes. A step of a process never
goes past a point where it may sleep, so others may have changed the tables at every
such point of `get_dir`, `iget`, `get_empty_inode` and `iput`. -/
namespace Hios.Fs
open Hios.Run

/-- The fields of a process that these calls use, its descriptors apart. -/
structure Task where
  root : InodePtr
  pwd : InodePtr
  executable : InodePtr
  euid : Nat
  egid : Nat
  leader : Bool
  tty : Int
  pgrp : Int

def FileSystem.seenBy (fs : FileSystem) (t : Task) : FileSystem :=
  { fs with root := t.root, pwd := t.pwd, euid := t.euid, egid := t.egid, leader := t.leader,
            tty := t.tty, pgrp := t.pgrp }

/-- Who has called `iget`: `get_dir` with this path before it, or `open_namei`. -/
inductive Getter where
  | dir (path : List Byte)
  | name

inductive AfterPut where
  /-- `sys_open` fails. -/
  | fail (err : Int)
  | iget (dev nr : Nat) (g : Getter)
  /-- `iget` returns this inode. -/
  | got (i : InodeIx) (g : Getter)
  /-- The directory is put back as well, and `sys_open` fails. -/
  | putDir (dir : InodeIx)
  | closed

/-- Where a process is in `iput`: in `wait_on_inode` at its start; in `sync_dev` or
`write_inode`, or in the `wait_on_inode` behind these; in `truncate`. -/
inductive PutPc where
  | wait
  | again
  | free

/-- Where a process is in `iget`: before `get_empty_inode`; in it with the entry it has
chosen; in `wait_on_inode` for the entry found; in `read_inode`. -/
inductive GetPc where
  | start
  | empty (e : InodeIx)
  | found (e i : InodeIx)
  | reading (e : InodeIx)

inductive CallPc where
  | start (path : List Byte)
  /-- At the top of the loop of `get_dir`. -/
  | dir (path : List Byte) (i : InodeIx)
  /-- In `find_entry`, called by `get_dir` or `open_namei`. -/
  | find (path : List Byte) (i : InodeIx)
  | get (dev nr : Nat) (g : Getter) (pc : GetPc)
  /-- `open_namei` has the inode of the file. -/
  | name (i : InodeIx)
  | put (i : InodeIx) (pc : PutPc) (next : AfterPut)

inductive Onward where
  | at (pc : CallPc)
  | failed (err : Int)
  /-- `sys_open` goes on to fill the file in. -/
  | opened (i : InodeIx)
  | closed

/-- What a stretch of code finds that the model leaves open: the inode number in the
entry that `find_entry` returns, and the values of the uninitialised `inode` of
`sys_open` and of `new_inode`. -/
structure Finds where
  entry : Option Nat
  inode : InodePtr
  uninit : InodePtr

def AfterPut.onward : AfterPut → Onward
  | .fail err => .failed err
  | .iget dev nr g => .at (.get dev nr g .start)
  | .got i (.dir path) => .at (.dir path i)
  | .got i .name => .at (.name i)
  | .putDir dir => .at (.put dir .wait (.fail ENOSPC))
  | .closed => .closed

/-- `iput` from the label `repeat` on. -/
def putRepeat (i : InodeIx) (next : AfterPut) (fs : FileSystem) : FileSystem × Onward :=
  let m := fs.inode i
  if m.iCount > 1 then (fs.setInode i { m with iCount := m.iCount - 1 }, next.onward)
  else if m.d.iNlinks = 0 then (fs, .at (.put i .free next))
  else if m.iDirt then (fs, .at (.put i .again next))
  else (fs.setInode i { m with iCount := (m.iCount + 65535) % 65536 }, next.onward)

/-- `none` is a panic. Of those of `free_inode` about the super block none is here: a
run that passes them is one run more. -/
def putStep (i : InodeIx) (next : AfterPut) (fs : FileSystem) : PutPc → Option (FileSystem × Onward)
  | .wait =>
    let m := fs.inode i
    if m.iLock then some (fs, .at (.put i .wait next))
    else if m.iCount = 0 then none
    else if m.iPipe then
      if m.iCount > 1 then some (fs.setInode i { m with iCount := m.iCount - 1 }, next.onward)
      else some (fs.setInode i { m with iCount := 0, iDirt := false, iPipe := false }, next.onward)
    else if m.iDev = 0 then some (fs.setInode i { m with iCount := m.iCount - 1 }, next.onward)
    else if S_ISBLK m.d.iMode then some (fs, .at (.put i .again next))
    else some (putRepeat i next fs)
  | .again =>
    if (fs.inode i).iLock then some (fs, .at (.put i .again next)) else some (putRepeat i next fs)
  | .free =>
    let m := fs.inode i
    if m.iDev = 0 then some (fs.setInode i .zero, next.onward)
    else if m.iCount > 1 then none
    else if m.d.iNlinks ≠ 0 then none
    else some (fs.setInode i .zero, next.onward)

/-- The `while` loop of `iget`, from the start of the table. -/
def getScan (dev nr : Nat) (g : Getter) (e : InodeIx) (fs : FileSystem) : FileSystem × Onward :=
  match findInode fs dev nr with
  | none =>
    (fs.setInode e { fs.inode e with iDev := dev % 65536, iNum := nr % 65536 }, .at
      (.get dev nr g (.reading e)))
  | some i => (fs, .at (.get dev nr g (.found e i)))

def getStep (dev nr : Nat) (g : Getter) (fs : FileSystem) : GetPc → Option (FileSystem × Onward)
  | .start =>
    if dev = 0 then none
    else
      let (last, found) := scanInodes fs NR_INODE fs.lastInode none
      found.map fun e => ({ fs with lastInode := last }, .at (.get dev nr g (.empty e)))
  | .empty e =>
    -- a dirty entry is written, and waited for again
    if (fs.inode e).iLock ∨ (fs.inode e).iDirt then some (fs, .at (.get dev nr g (.empty e)))
    else some (getScan dev nr g e (fs.setInode e { MInode.zero with iCount := 1 }))
  | .found e i =>
    let m := fs.inode i
    if m.iLock then some (fs, .at (.get dev nr g (.found e i)))
    else if m.iDev ≠ dev ∨ m.iNum ≠ nr then some (getScan dev nr g e fs)
    else if m.iMount then none
    else some (fs.setInode i { m with iCount := (m.iCount + 1) % 65536 }, .at
      (.put e .wait (.got i g)))
  | .reading e => some (fs, (AfterPut.got e g).onward)

/-- `sys_open` behind a successful `open_namei`, with `inode` at entry `i`. -/
def openEntry (i : InodeIx) (fs : FileSystem) : Onward :=
  let m := fs.inode i
  if S_ISCHR m.d.iMode ∧ MAJOR (m.d.iZone 0) = 5 ∧ fs.tty < 0 then .at (.put i .wait (.fail EPERM))
    else .opened i

/-- `get_dir` up to its loop, with `fs` as the process has it. -/
def dirStart (path : List Byte) (fs : FileSystem) : Option (FileSystem × Onward) :=
  if unused fs.root fs ∨ unused fs.pwd fs then none
  else
    let (start, path) := match path with
      | [] => (InodePtr.null, [])
      | c :: cs => if c = slash then (fs.root, cs) else if c = 0 then (.null, [])
        else (fs.pwd, path)
    match start with
    | .null => some (fs, .failed ENOENT)
    | .wild => none
    | .entry i =>
      some (fs.setInode i { fs.inode i with iCount := ((fs.inode i).iCount + 1) % 65536 }, .at
        (.dir path i))

/-- A turn of the loop of `get_dir` up to `find_entry`, or the way from it to the
`find_entry` of `open_namei`. -/
def dirStep (flag : Nat) (path : List Byte) (i : InodeIx) (fs : FileSystem) : Onward :=
  if ¬ S_ISDIR (fs.inode i).d.iMode ∨
    permission i MAY_EXEC fs = false then .at (.put i .wait (.fail ENOENT))
  else if (component path).2 = none ∧ baseName path = [] then
    if nameiFlag flag &&& (O_ACCMODE ||| O_CREAT ||| O_TRUNC) = 0 then openEntry i fs
    else .at (.put i .wait (.fail EISDIR))
  else .at (.find path i)

/-- Behind `find_entry`. -/
def findStep (flag : Nat) (path : List Byte) (i : InodeIx) (c : Finds) (fs : FileSystem) :
    Option (FileSystem × Onward) :=
  let put next := some (fs, Onward.at (.put i .wait next))
  match (component path).2, c.entry with
  | some _, none => put (.fail ENOENT)
  | some rest, some nr => put (.iget (fs.inode i).iDev nr (.dir rest))
  | none, some nr =>
    if nameiFlag flag &&& O_EXCL ≠ 0 then put (.fail EEXIST)
      else put (.iget (fs.inode i).iDev nr .name)
  | none, none =>
    if nameiFlag flag &&& O_CREAT = 0 then put (.fail ENOENT)
    else if permission i MAY_WRITE fs = false then put (.fail EACCES)
    else match c.uninit with
    | .null => put (.fail ENOSPC)
    | .wild => none
    -- `add_entry` returns `NULL`; what is stored in the inode is left to `io`
    | .entry j => some (fs, .at (.put j .wait (.putDir i)))

/-- The checks of `open_namei` on the inode of the file. -/
def refused (flag : Nat) (i : InodeIx) (fs : FileSystem) : Prop :=
  (S_ISDIR (fs.inode i).d.iMode ∧ nameiFlag flag &&& O_ACCMODE ≠ 0) ∨
    permission i (ACC_MODE (nameiFlag flag)) fs = false

instance (flag : Nat) (i : InodeIx) (fs : FileSystem) : Decidable (refused flag i fs) :=
  inferInstanceAs (Decidable (_ ∨ _))

/-- The end of `open_namei`, which stores nothing through `res_inode`. -/
def nameStep (flag : Nat) (i : InodeIx) (c : Finds) (fs : FileSystem) :
    Option (FileSystem × Onward) :=
  if refused flag i fs then some (fs, .at (.put i .wait (.fail EPERM)))
  else match c.inode with
  | .entry j => some (fs, openEntry j fs)
  | _ => none

def callStep (flag : Nat) (c : Finds) (fs : FileSystem) : CallPc → Option (FileSystem × Onward)
  | .start path => dirStart path fs
  | .dir path i => some (fs, dirStep flag path i fs)
  | .find path i => findStep flag path i c fs
  | .get dev nr g pc => getStep dev nr g fs pc
  | .name i => nameStep flag i c fs
  | .put i pc next => putStep i next fs pc

variable {ι : Type*} [DecidableEq ι]

/-- Of `fs` only what the processes share is used. `ret` is what the last call of a
process has returned, if it was `sys_open` or a `sys_close` that came to `iput`. -/
structure OpenSystem (ι : Type*) where
  files : OpenFiles ι
  fs : FileSystem
  task : ι → Task
  call : ι → Option (Nat × CallPc)
  ret : ι → Int

inductive SysAct (ι : Type*) where
  | openStart (p : ι) (path : List Byte) (flag : Nat)
  | close (p : ι) (fd : Nat)
  | dup (p : ι) (fildes : Nat)
  | fork (p child : ι)
  /-- A process inside a call goes on; where it sleeps it may stay. -/
  | go (p : ι) (c : Finds)
  /-- What `read_inode`, `write_inode`, `sync_dev` and `truncate` do to the cache and
  the disk, and to the contents, the locks and the dirty flags of the inode table. -/
  | io (fs : FileSystem)

def SysAct.process : SysAct ι → Option ι
  | .openStart p _ _ | .close p _ | .dup p _ | .fork p _ | .go p _ => some p
  | .io _ => none

/-- `p->i_count++` unless `p` is `NULL`. -/
def countMore (p : InodePtr) (fs : FileSystem) : FileSystem :=
  match p with
  | .entry i => fs.setInode i { fs.inode i with iCount := ((fs.inode i).iCount + 1) % 65536 }
  | _ => fs

def ioEntry (m m' : MInode) : MInode := { m with d := m'.d, iLock := m'.iLock, iDirt := m'.iDirt }

def OpenSystem.finish (s : OpenSystem ι) (p : ι) (e : OpenEnd) (r : Int) : Option (OpenSystem ι) :=
  (fileStep s.files (.openEnd p e)).map fun x =>
    { s with files := x.2, call := Function.update s.call p none, ret := Function.update s.ret p r }

/-- The controlling terminal that `sys_open` may give the process. -/
def getTerminal (m : MInode) (t : Task) (fs : FileSystem) : Task × FileSystem :=
  if S_ISCHR m.d.iMode ∧ MAJOR (m.d.iZone 0) = 4 ∧ t.leader ∧ t.tty < 0 then
    ({ t with tty := MINOR (m.d.iZone 0) },
      { fs with ttyPgrp := Function.update fs.ttyPgrp (MINOR (m.d.iZone 0)) t.pgrp })
  else (t, fs)

def OpenSystem.onward (s : OpenSystem ι) (p : ι) (flag : Nat) : Onward → Option (OpenSystem ι)
  | .at pc => some { s with call := Function.update s.call p (some (flag, pc)) }
  | .failed err => s.finish p .failed (-err)
  | .opened i =>
    let m := s.fs.inode i
    let (t, fs) := getTerminal m (s.task p) s.fs
    let s := { s with task := Function.update s.task p t, fs := fs }
    (s.files.opening p).bind fun r => s.finish p (.opened (.entry i) m.d.iMode flag) r.1.val
  | .closed =>
    some { s with call := Function.update s.call p none, ret := Function.update s.ret p 0 }

/-- `none` where the act is not possible or the code panics or follows a wild pointer. -/
def sysStep (s : OpenSystem ι) : SysAct ι → Option (OpenSystem ι)
  | .openStart p path flag =>
    if (s.call p).isSome then none
    else (fileStep s.files (.openStart p)).map fun x =>
      match x.2.opening p with
      | none => { s with files := x.2, ret := Function.update s.ret p (-EINVAL) }
      | some _ =>
        { s with files := x.2, call := Function.update s.call p (some (flag, .start path)) }
  | .close p fd =>
    if (s.call p).isSome then none
    else (fileStep s.files (.close p fd)).bind fun x =>
      match x.1 with
      | none => some { s with files := x.2 }
      | some (.iput _ (.entry i)) =>
        some { s with files := x.2, call := Function.update s.call p (some
          (0, .put i .wait .closed)) }
      | some _ => none
  | .dup p fildes =>
    if (s.call p).isSome then none
    else (fileStep s.files (.dup p fildes)).map fun x => { s with files := x.2 }
  | .fork p child =>
    if (s.call p).isSome ∨ (s.call child).isSome then none
    else (fileStep s.files (.fork p child)).map fun x =>
      let t := s.task p
      { s with
        files := x.2
        fs := countMore t.executable (countMore t.root (countMore t.pwd s.fs))
        task := Function.update s.task child t }
  | .go p c =>
    (s.call p).bind fun (flag, pc) => (callStep flag c (s.fs.seenBy (s.task p)) pc).bind fun r =>
      { s with fs := r.1 }.onward p flag r.2
  | .io fs =>
    some { s with fs := { s.fs with
      disk := fs.disk, reads := fs.reads, readable := fs.readable, buffer := fs.buffer
      inode := fun i => ioEntry (s.fs.inode i) (fs.inode i) } }

end Hios.Fs
