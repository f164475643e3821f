import Hios.Fs.Inode

/-! Buffers as one process finds them, and over them `fs/inode.c`,
`fs/bitmap.c` and `fs/truncate.c`. A process that must sleep stops here. -/
namespace Hios.Fs

/-- The head that `getblk` returns, counted once more. The bytes of a new one are
not read before they are replaced. -/
def getblk (dev block : Nat) (fs : FileSystem) : Buffer :=
  match fs.buffer dev block with
  | some bh => { bh with count := (bh.count + 1) % 256 }
  | none => ⟨fun _ => 0, false, false, 1⟩

def brelse (dev block : Nat) (fs : FileSystem) : Except Panic FileSystem :=
  match fs.buffer dev block with
  | none => .error .wildPointer
  | some bh =>
    if bh.count = 0 then .error .freeFreeBuffer
    else .ok (fs.setBuffer dev block (some { bh with count := bh.count - 1 }))

/-- The block's bytes, or `none` for `NULL`. A read that is queued clears `b_dirt`. -/
def bread (dev block : Nat) (fs : FileSystem) : Except Panic (Option Block × FileSystem) :=
  let bh := getblk dev block fs
  let readable := fs.readable fs.reads dev block
  let fs := { fs with reads := fs.reads + 1 }
  if bh.uptodate then .ok (some bh.data, fs.setBuffer dev block (some bh))
  else if readable then
    let bh := { bh with data := fs.disk dev block, uptodate := true, dirt := false }
    .ok (some bh.data, fs.setBuffer dev block (some bh))
  else do
    let fs ← brelse dev block (fs.setBuffer dev block (some { bh with dirt := false }))
    return (none, fs)

def modify (dev block : Nat) (f : Block → Block) (fs : FileSystem) : Except Panic FileSystem :=
  match fs.buffer dev block with
  | none => .error .wildPointer
  | some bh => .ok (fs.setBuffer dev block (some { bh with data := f bh.data, dirt := true }))

/-- The loop of `sync_dev` over the buffers: each dirty one of the device is written. -/
def flush (dev : Nat) (fs : FileSystem) : FileSystem :=
  { fs with
    disk := fun d b =>
      match fs.buffer d b with
      | some bh => if d = dev ∧ bh.dirt then bh.data else fs.disk d b
      | none => fs.disk d b
    buffer := fun d b => (fs.buffer d b).map fun bh => if d = dev then { bh with dirt := false }
      else bh }

/-- `NULL` as `none`. No process holds a super block's lock here. -/
def getSuper (dev : Nat) (fs : FileSystem) : Option SuperBlock :=
  if dev = 0 then none else ((List.finRange NR_SUPER).map fs.super).find? fun s => s.sDev = dev

def waitOnInode (i : InodeIx) (fs : FileSystem) : Except Panic Unit :=
  if (fs.inode i).iLock then .error .asleep else .ok ()

def lockInode (i : InodeIx) (fs : FileSystem) : Except Panic FileSystem := do
  waitOnInode i fs
  return fs.setInode i { fs.inode i with iLock := true }

def unlockInode (i : InodeIx) (fs : FileSystem) : FileSystem :=
  fs.setInode i { fs.inode i with iLock := false }

def inodeBlock (sb : SuperBlock) (num : Nat) : Nat :=
  2 + sb.sImapBlocks + sb.sZmapBlocks + (num - 1) / INODES_PER_BLOCK

def inodeIndex (num : Nat) : Fin 32 := ⟨(num - 1) % INODES_PER_BLOCK, Nat.mod_lt _ (by decide)⟩

def Block.dInode (b : Block) (k : Fin 32) : DInode := fun j => b ⟨32 * k.val + j.val, by omega⟩

def Block.setDInode (b : Block) (k : Fin 32) (d : DInode) : Block := fun j =>
  if j.val / 32 = k.val then d ⟨j.val % 32, by omega⟩ else b j

/-- Inode number 0 would lie before its block. -/
def readInode (i : InodeIx) (fs : FileSystem) : Except Panic FileSystem := do
  let fs ← lockInode i fs
  let dev := (fs.inode i).iDev
  let num := (fs.inode i).iNum
  match getSuper dev fs with
  | none => throw .writeNoDevice
  | some sb =>
    if num = 0 then throw .wildPointer else
    match ← bread dev (inodeBlock sb num) fs with
    | (none, _) => throw .unableToReadBlock
    | (some data, fs) =>
      let fs := fs.setInode i { fs.inode i with d := data.dInode (inodeIndex num) }
      let fs ← brelse dev (inodeBlock sb num) fs
      return unlockInode i fs

def writeInode (i : InodeIx) (fs : FileSystem) : Except Panic FileSystem := do
  let fs ← lockInode i fs
  let dev := (fs.inode i).iDev
  let num := (fs.inode i).iNum
  if (fs.inode i).iDirt = false ∨ dev = 0 then return unlockInode i fs else
  match getSuper dev fs with
  | none => throw .writeNoDevice
  | some sb =>
    if num = 0 then throw .wildPointer else
    match ← bread dev (inodeBlock sb num) fs with
    | (none, _) => throw .unableToReadBlock
    | (some _, fs) =>
      let fs ← modify dev (inodeBlock sb num) (Block.setDInode · (inodeIndex num) (fs.inode i).d) fs
      let fs := fs.setInode i { fs.inode i with iDirt := false }
      let fs ← brelse dev (inodeBlock sb num) fs
      return unlockInode i fs

def syncInodes (fs : FileSystem) : Except Panic FileSystem :=
  (List.finRange NR_INODE).foldlM (fun fs i => do
    waitOnInode i fs
    if (fs.inode i).iDirt ∧ (fs.inode i).iPipe = false then writeInode i fs else return fs) fs

def syncDev (dev : Nat) (fs : FileSystem) : Except Panic FileSystem := do
  let fs ← syncInodes (flush dev fs)
  return flush dev fs

def clearBit (nr : Nat) (data : Block) : Bool × Block :=
  let k := Fin.ofNat 1024 (nr / 8)
  ((data k).getLsbD (nr % 8), Function.update data k (data k &&& ~~~(1#8 <<< (nr % 8))))

def freeBlock (dev block : Nat) (fs : FileSystem) : Except Panic FileSystem := do
  match getSuper dev fs with
  | none => throw .freeBlockNoDevice
  | some sb =>
    if block < sb.sFirstdatazone ∨ sb.sNzones ≤ block then throw .freeBlockNotInDatazone else
    -- get_hash_table
    let bh := (fs.buffer dev block).map fun bh => { bh with count := (bh.count + 1) % 256 }
    let fs := fs.setBuffer dev block bh
    if bh.any (·.count ≠ 1) then return fs else
    let fs := fs.setBuffer dev block
      (bh.map fun bh => { bh with dirt := false, uptodate := false, count := bh.count - 1 })
    let nr := block + 1 - sb.sFirstdatazone
    match sb.sZmap (Fin.ofNat 8 (nr / 8192)) with
    | none => throw .wildPointer
    | some (d, b) =>
      match fs.buffer d b with
      | none => throw .wildPointer
      | some zmap =>
        if (clearBit (nr % 8192) zmap.data).1 = false then throw .bitAlreadyCleared
        else modify d b (fun data => (clearBit (nr % 8192) data).2) fs

def Block.short (b : Block) (k : Nat) : Nat :=
  (b (Fin.ofNat 1024 (2 * k))).toNat + 256 * (b (Fin.ofNat 1024 (2 * k + 1))).toNat

/-- The loop that `free_ind` and `free_dind` share. The buffer is read again at
every entry, as the code reads it through its pointer. -/
def freeEntries (free : Nat → FileSystem → Except Panic FileSystem) (dev block : Nat)
    (fs : FileSystem) : Except Panic FileSystem :=
  (List.range 512).foldlM (fun fs k =>
    match fs.buffer dev block with
    | none => throw .wildPointer
    | some bh => if bh.data.short k ≠ 0 then free (bh.data.short k) fs else return fs) fs

def freeIndirect (free : Nat → FileSystem → Except Panic FileSystem) (dev block : Nat)
    (fs : FileSystem) : Except Panic FileSystem :=
  if block = 0 then .ok fs else do
  match ← bread dev block fs with
  | (none, fs) => freeBlock dev block fs
  | (some _, fs) =>
    let fs ← freeEntries free dev block fs
    let fs ← brelse dev block fs
    freeBlock dev block fs

def freeInd (dev block : Nat) (fs : FileSystem) : Except Panic FileSystem :=
  freeIndirect (freeBlock dev) dev block fs

def freeDind (dev block : Nat) (fs : FileSystem) : Except Panic FileSystem :=
  freeIndirect (freeInd dev) dev block fs

def freeZone (i : InodeIx) (fs : FileSystem) (k : Fin 9) : Except Panic FileSystem :=
  if (fs.inode i).d.iZone k = 0 then .ok fs else do
    let fs ← freeBlock (fs.inode i).iDev ((fs.inode i).d.iZone k) fs
    return fs.setInode i { fs.inode i with d := (fs.inode i).d.setZone k 0 }

def truncate (i : InodeIx) (fs : FileSystem) : Except Panic FileSystem :=
  if ¬ (S_ISREG (fs.inode i).d.iMode ∨ S_ISDIR (fs.inode i).d.iMode) then .ok fs else do
    let fs ← ([0, 1, 2, 3, 4, 5, 6] : List (Fin 9)).foldlM (freeZone i) fs
    let fs ← freeInd (fs.inode i).iDev ((fs.inode i).d.iZone 7) fs
    let fs ← freeDind (fs.inode i).iDev ((fs.inode i).d.iZone 8) fs
    return fs.setInode i { fs.inode i with
      d := (((fs.inode i).d.setZone 8 0).setZone 7 0).setSize 0
      iDirt := true }

def freeInode (i : InodeIx) (fs : FileSystem) : Except Panic FileSystem :=
  let m := fs.inode i
  if m.iDev = 0 then .ok (fs.setInode i .zero)
  else if m.iCount > 1 then .error .freeInode
  else if m.d.iNlinks ≠ 0 then .error .freeInodeWithLinks
  else match getSuper m.iDev fs with
  | none => .error .freeInodeNoDevice
  | some sb =>
    if m.iNum < 1 ∨ sb.sNinodes < m.iNum then .error .freeInodeZero
    else match sb.sImap (Fin.ofNat 8 (m.iNum / 8192)) with
    | none => .error .nonexistentImap
    | some (d, b) => do
      let fs ← modify d b (fun data => (clearBit (m.iNum % 8192) data).2) fs
      return fs.setInode i .zero

/-- `iput` from the label `repeat` on. A written inode is clean, so it comes back
to the label once at most. -/
def iputRepeat : Nat → InodeIx → FileSystem → Except Panic FileSystem
  | 0, _, _ => .error .neverReturns
  | fuel + 1, i, fs =>
    if (fs.inode i).iCount > 1 then
      .ok (fs.setInode i { fs.inode i with iCount := (fs.inode i).iCount - 1 })
    else if (fs.inode i).d.iNlinks = 0 then do
      let fs ← truncate i fs
      freeInode i fs
    else if (fs.inode i).iDirt then do
      let fs ← writeInode i fs
      waitOnInode i fs
      iputRepeat fuel i fs
    else .ok (fs.setInode i { fs.inode i with iCount := (fs.inode i).iCount - 1 })

/-- The page that `iput` frees with a pipe is not part of the file system. -/
def iput (i : InodeIx) (fs : FileSystem) : Except Panic FileSystem := do
  waitOnInode i fs
  if (fs.inode i).iCount = 0 then throw .freeFreeInode
  else if (fs.inode i).iPipe then
    if (fs.inode i).iCount > 1 then
      return fs.setInode i { fs.inode i with iCount := (fs.inode i).iCount - 1 }
    else return fs.setInode i { fs.inode i with iCount := 0, iDirt := false, iPipe := false }
  else if (fs.inode i).iDev = 0 then
    return fs.setInode i { fs.inode i with iCount := (fs.inode i).iCount - 1 }
  else if S_ISBLK (fs.inode i).d.iMode then do
    let fs ← syncDev ((fs.inode i).d.iZone 0) fs
    waitOnInode i fs
    iputRepeat 2 i fs
  else iputRepeat 2 i fs

/-- The `for` loop of `get_empty_inode`: `last_inode` and `inode` at its end. -/
def scanInodes (fs : FileSystem) : Nat → InodeIx → Option InodeIx → InodeIx × Option InodeIx
  | 0, last, found => (last, found)
  | n + 1, last, found =>
    let last := last + 1
    if (fs.inode last).iCount = 0 then
      if (fs.inode last).iDirt = false ∧ (fs.inode last).iLock = false then (last, some last)
      else scanInodes fs n last (some last)
    else scanInodes fs n last found

/-- A free entry, clean and counted once. The word at address 48, where the loop
reads `i_count` when it found no entry, is 0: an unused entry of the page directory. -/
def getEmptyInode (fs : FileSystem) : Except Panic (InodeIx × FileSystem) := do
  let (last, found) := scanInodes fs NR_INODE fs.lastInode none
  let fs := { fs with lastInode := last }
  match found with
  | none => throw .noFreeInodes
  | some i =>
    waitOnInode i fs
    let fs ← if (fs.inode i).iDirt then writeInode i fs else pure fs
    if (fs.inode i).iDirt then throw .neverReturns
    else return (i, fs.setInode i { MInode.zero with iCount := 1 })

def findInode (fs : FileSystem) (dev nr : Nat) : Option InodeIx :=
  (List.finRange NR_INODE).find? fun i => (fs.inode i).iDev = dev ∧ (fs.inode i).iNum = nr

/-- The `while` loop of `iget`. It starts again at each mount point it crosses;
after more turns than there are super blocks it goes round for ever. -/
def igetScan (empty : InodeIx) : Nat → Nat → Nat → FileSystem → Except Panic (InodeIx × FileSystem)
  | 0, _, _, _ => .error .neverReturns
  | fuel + 1, dev, nr, fs =>
    match findInode fs dev nr with
    | none => do
      let fs := fs.setInode empty
        { fs.inode empty with iDev := dev % 65536, iNum := nr % 65536 }
      return (empty, ← readInode empty fs)
    | some i => do
      waitOnInode i fs
      let fs := fs.setInode i { fs.inode i with iCount := ((fs.inode i).iCount + 1) % 65536 }
      if (fs.inode i).iMount then
        match ((List.finRange NR_SUPER).map fs.super).find? fun s => s.sImount = .entry i with
        | none => return (empty, ← iput empty fs)
        | some sb =>
          let fs ← iput i fs
          igetScan empty fuel sb.sDev ROOT_INO fs
      else return (i, ← iput empty fs)

def iget (dev nr : Nat) (fs : FileSystem) : Except Panic (InodeIx × FileSystem) :=
  if dev = 0 then .error .igetNoDevice else do
    let (empty, fs) ← getEmptyInode fs
    igetScan empty (NR_SUPER + 2) dev nr fs

end Hios.Fs
