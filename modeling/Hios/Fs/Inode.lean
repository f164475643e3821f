import Hios.Lib.TableSizes

/-! The data of the file system: blocks and their buffers, the inode table, the
super blocks, open files and the fields of the current process they are reached by. -/
namespace Hios.Fs

abbrev Byte := BitVec 8

abbrev Block := Fin 1024 → Byte

def NR_OPEN : Nat := 20
def NR_INODE : Nat := 32
def NR_FILE : Nat := 64
def NR_SUPER : Nat := 8
def NAME_LEN : Nat := 14
def ROOT_INO : Nat := 1
def INODES_PER_BLOCK : Nat := 32
def DIR_ENTRIES_PER_BLOCK : Nat := 64

instance : NeZero NR_INODE := ⟨by decide⟩
instance : NeZero NR_SUPER := ⟨by decide⟩

abbrev InodeIx := Fin NR_INODE

inductive InodePtr where
  | null
  | entry (i : InodeIx)
  | wild
  deriving DecidableEq

abbrev DInode := Fin 32 → Byte

def DInode.zero : DInode := fun _ => 0

def DInode.short (d : DInode) (k : Fin 31) : Nat :=
  (d k.castSucc).toNat + 256 * (d k.succ).toNat

def DInode.iMode (d : DInode) : Nat := d.short 0
def DInode.iUid (d : DInode) : Nat := d.short 2
def DInode.iSize (d : DInode) : Nat := d.short 4 + 65536 * d.short 6
def DInode.iGid (d : DInode) : Nat := (d 12).toNat
def DInode.iNlinks (d : DInode) : Nat := (d 13).toNat

def DInode.iZone (d : DInode) (k : Fin 9) : Nat := d.short ⟨14 + 2 * k.val, by omega⟩

theorem direct_lt {n : Nat} (h : n < 7) : n < 9 := Nat.lt_add_right 2 h

def DInode.put (d : DInode) (k len v : Nat) : DInode := fun j =>
  if k ≤ j.val ∧ j.val < k + len then BitVec.ofNat 8 (v / 256 ^ (j.val - k)) else d j

def DInode.setMode (d : DInode) (v : Nat) : DInode := d.put 0 2 v
def DInode.setUid (d : DInode) (v : Nat) : DInode := d.put 2 2 v
def DInode.setSize (d : DInode) (v : Nat) : DInode := d.put 4 4 v
def DInode.setNlinks (d : DInode) (v : Nat) : DInode := d.put 13 1 v
def DInode.setZone (d : DInode) (k : Fin 9) (v : Nat) : DInode := d.put (14 + 2 * k.val) 2 v

def S_IFMT : Nat := 0o170000
def S_ISREG (m : Nat) : Prop := m &&& S_IFMT = 0o100000
def S_ISBLK (m : Nat) : Prop := m &&& S_IFMT = 0o060000
def S_ISDIR (m : Nat) : Prop := m &&& S_IFMT = 0o040000
def S_ISCHR (m : Nat) : Prop := m &&& S_IFMT = 0o020000

instance (m : Nat) : Decidable (S_ISREG m) := inferInstanceAs (Decidable (_ = _))
instance (m : Nat) : Decidable (S_ISBLK m) := inferInstanceAs (Decidable (_ = _))
instance (m : Nat) : Decidable (S_ISDIR m) := inferInstanceAs (Decidable (_ = _))
instance (m : Nat) : Decidable (S_ISCHR m) := inferInstanceAs (Decidable (_ = _))

/-- `d` are the fields shared with `struct d_inode`. `iDev`, `iNum` and `iCount`
are `unsigned short`. -/
structure MInode where
  d : DInode
  iDev : Nat
  iNum : Nat
  iCount : Nat
  iLock : Bool
  iDirt : Bool
  iPipe : Bool
  iMount : Bool

/-- What `memset(inode, 0, sizeof(*inode))` leaves. -/
def MInode.zero : MInode := ⟨.zero, 0, 0, 0, false, false, false, false⟩

abbrev BufferName := Nat × Nat

structure Buffer where
  data : Block
  uptodate : Bool
  dirt : Bool
  count : Nat

structure SuperBlock where
  sNinodes : Nat
  sNzones : Nat
  sImapBlocks : Nat
  sZmapBlocks : Nat
  sFirstdatazone : Nat
  sImap : Fin 8 → Option BufferName
  sZmap : Fin 8 → Option BufferName
  sDev : Nat
  sImount : InodePtr

structure File where
  fMode : Nat
  fFlags : Nat
  fCount : Nat
  fInode : InodePtr
  fPos : Nat

inductive Panic where
  /-- The caller sleeps for an event that only another process can bring about. -/
  | asleep
  /-- A loop of the code that never ends. -/
  | neverReturns
  /-- A pointer outside the tables is followed. -/
  | wildPointer
  /-- A store beyond the limit of its segment. -/
  | generalProtection
  /-- "Trying to free free buffer" -/
  | freeFreeBuffer
  /-- "iput: trying to free free inode" -/
  | freeFreeInode
  /-- "No free inodes in mem" -/
  | noFreeInodes
  /-- "iget with dev==0" -/
  | igetNoDevice
  /-- "trying to write inode without device" -/
  | writeNoDevice
  /-- "unable to read i-node block" -/
  | unableToReadBlock
  /-- "trying to free block on nonexistent device" -/
  | freeBlockNoDevice
  /-- "trying to free block not in datazone" -/
  | freeBlockNotInDatazone
  /-- "free_block: bit already cleared" -/
  | bitAlreadyCleared
  /-- "free_inode" -/
  | freeInode
  /-- "trying to free inode with links" -/
  | freeInodeWithLinks
  /-- "trying to free inode on nonexistent device" -/
  | freeInodeNoDevice
  /-- "trying to free inode 0 or nonexistant inode" -/
  | freeInodeZero
  /-- "nonexistent imap in superblock" -/
  | nonexistentImap
  /-- "_bmap: block>big" -/
  | blockTooBig
  /-- "No root indoe" -/
  | noRoot
  /-- "No cwd inode" -/
  | noCwd
  deriving DecidableEq

/-- The devices, their cached blocks, and the kernel's tables, with the fields of
`current` that the file system uses. `reads` is no variable of the code: it numbers
the calls of `bread`, and `readable` says which of them the driver ends well, should
they have to read. Writes always end well. The cache finds room for every block that
is asked for. -/
structure FileSystem where
  disk : Nat → Nat → Block
  reads : Nat
  readable : Nat → Nat → Nat → Bool
  buffer : Nat → Nat → Option Buffer
  inode : InodeIx → MInode
  lastInode : InodeIx
  super : Fin NR_SUPER → SuperBlock
  file : Fin NR_FILE → File
  root : InodePtr
  pwd : InodePtr
  euid : Nat
  egid : Nat
  umask : Nat
  filp : Fin NR_OPEN → Option (Fin NR_FILE)
  closeOnExec : BitVec 32
  leader : Bool
  tty : Int
  pgrp : Int
  ttyPgrp : Nat → Int

def FileSystem.setBuffer (fs : FileSystem) (dev block : Nat) (bh : Option Buffer) : FileSystem :=
  { fs with buffer := Function.update fs.buffer dev (Function.update (fs.buffer dev) block bh) }

def FileSystem.setInode (fs : FileSystem) (i : InodeIx) (m : MInode) : FileSystem :=
  { fs with inode := Function.update fs.inode i m }

def FileSystem.setFilp (fs : FileSystem) (fd : Fin NR_OPEN) (f : Option (Fin NR_FILE)) :
    FileSystem :=
  { fs with filp := Function.update fs.filp fd f }

def FileSystem.setFile (fs : FileSystem) (i : Fin NR_FILE) (f : File) : FileSystem :=
  { fs with file := Function.update fs.file i f }

end Hios.Fs
