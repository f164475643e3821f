import Hios.Fs.InodeTable

/-! `fs/namei.c` and `sys_open`. A path is the list of its bytes in user space;
it ends with the list or at a zero byte. -/
namespace Hios.Fs

def ENOENT : Int := 2
def EPERM : Int := 1
def EACCES : Int := 13
def EEXIST : Int := 17
def EISDIR : Int := 21
def EINVAL : Int := 22
def ENOSPC : Int := 28

def O_ACCMODE : Nat := 0o3
def O_WRONLY : Nat := 0o1
def O_CREAT : Nat := 0o100
def O_EXCL : Nat := 0o200
def O_TRUNC : Nat := 0o1000

def I_REGULAR : Nat := 0o100000

def MAY_EXEC : Nat := 1
def MAY_WRITE : Nat := 2

def ACC_MODE (x : Nat) : Nat :=
  match x &&& O_ACCMODE with
  | 0 => 0o4
  | 1 => 0o2
  | 2 => 0o6
  | _ => 2 ^ 32 - 1

def slash : Byte := 47
def dot : Byte := 46

def MAJOR (a : Nat) : Nat := a / 256
def MINOR (a : Nat) : Nat := a % 256

def suser (fs : FileSystem) : Prop := fs.euid = 0

instance (fs : FileSystem) : Decidable (suser fs) := inferInstanceAs (Decidable (_ = _))

def permission (i : InodeIx) (mask : Nat) (fs : FileSystem) : Bool :=
  let m := fs.inode i
  if m.iDev ≠ 0 ∧ m.d.iNlinks = 0 then false
  else
    let mode :=
      if fs.euid = m.d.iUid then m.d.iMode >>> 6
      else if fs.egid = m.d.iGid then m.d.iMode >>> 3
      else m.d.iMode
    mode &&& mask &&& 0o7 = mask ∨ suser fs

/-- Block `block` of a file, 0 if it has none: `_bmap` with `create` 0. -/
def bmap (i : InodeIx) (block : Nat) (fs : FileSystem) : Except Panic (Nat × FileSystem) :=
  let m := fs.inode i
  if 7 + 512 + 512 * 512 ≤ block then .error .blockTooBig
  else if h : block < 7 then .ok (m.d.iZone ⟨block, direct_lt h⟩, fs)
  else if block - 7 < 512 then
    if m.d.iZone 7 = 0 then .ok (0, fs) else do
    match ← bread m.iDev (m.d.iZone 7) fs with
    | (none, fs) => return (0, fs)
    | (some data, fs) =>
      let fs ← brelse m.iDev (m.d.iZone 7) fs
      return (data.short (block - 7), fs)
  else
    let block := block - 7 - 512
    if m.d.iZone 8 = 0 then .ok (0, fs) else do
    match ← bread m.iDev (m.d.iZone 8) fs with
    | (none, fs) => return (0, fs)
    | (some data, fs) =>
      let fs ← brelse m.iDev (m.d.iZone 8) fs
      let ind := data.short (block / 512)
      if ind = 0 then return (0, fs) else
      match ← bread m.iDev ind fs with
      | (none, fs) => return (0, fs)
      | (some data, fs) =>
        let fs ← brelse m.iDev ind fs
        return (data.short (block % 512), fs)

def Block.dirInode (b : Block) (k : Fin 64) : Nat := b.short (8 * k.val)

def Block.setDirInode (b : Block) (k : Fin 64) (v : Nat) : Block := fun j =>
  if j.val = 16 * k.val then BitVec.ofNat 8 v
  else if j.val = 16 * k.val + 1 then BitVec.ofNat 8 (v / 256) else b j

def Block.dirName (b : Block) (k : Fin 64) (j : Fin 14) : Byte :=
  b ⟨16 * k.val + 2 + j.val, by omega⟩

def matchEntry (name : List Byte) (b : Block) (k : Fin 64) : Bool :=
  let len := name.length
  if b.dirInode k = 0 ∨ len > NAME_LEN then false
  else if len < NAME_LEN ∧ b.dirName k (Fin.ofNat 14 len) ≠ 0 then false
  else name.zipIdx.all fun c => c.1 = b.dirName k (Fin.ofNat 14 c.2)

/-- A directory entry that was found: its buffer, its index there, and the inode
number in it. -/
structure DirEntry where
  bh : BufferName
  index : Fin 64
  inode : Nat

/-- Block `k` of a directory, `none` where it has none or the read fails. -/
def readDirBlock (dir : InodeIx) (k : Nat) (fs : FileSystem) :
    Except Panic (Option (BufferName × Block) × FileSystem) := do
  let (block, fs) ← bmap dir k fs
  if block = 0 then return (none, fs) else
  let dev := (fs.inode dir).iDev
  let (data, fs) ← bread dev block fs
  return (data.map fun data => ((dev, block), data), fs)

/-- `brelse` of a pointer that may be `NULL`. -/
def brelseDir (bh : Option (BufferName × Block)) (fs : FileSystem) : Except Panic FileSystem :=
  match bh with
  | none => .ok fs
  | some (bh, _) => brelse bh.1 bh.2 fs

/-- The loop of `find_entry` at entry `i`: `bh` is the buffer and its bytes, `de`
the index of the entry in it. Where `bh` is `NULL` the code compares `de` with the
word at address 0, which is below every buffer: the block counts as searched. -/
def findLoop (dir : InodeIx) (name : List Byte) (entries : Nat) :
    Nat → Nat → Nat → Option (BufferName × Block) → FileSystem →
      Except Panic (Option DirEntry × FileSystem)
  | 0, _, _, bh, fs => do return (none, ← brelseDir bh fs)
  | fuel + 1, i, de, bh, fs =>
    if entries ≤ i then do return (none, ← brelseDir bh fs) else do
    let (bh, de, fs) ←
      if bh.isSome ∧ de < DIR_ENTRIES_PER_BLOCK then pure (bh, de, fs) else do
        let fs ← brelseDir bh fs
        let (bh, fs) ← readDirBlock dir (i / DIR_ENTRIES_PER_BLOCK) fs
        pure (bh, 0, fs)
    match bh with
    | none => findLoop dir name entries fuel (i + DIR_ENTRIES_PER_BLOCK) de none fs
    | some (bh, data) =>
      if matchEntry name data (Fin.ofNat 64 de) then
        return (some ⟨bh, Fin.ofNat 64 de, data.dirInode (Fin.ofNat 64 de)⟩, fs)
      else findLoop dir name entries fuel (i + 1) (de + 1) (some (bh, data)) fs

/-- The special case of `..`: the name compared, and the directory it is looked
up in, which changes at the root of a mounted file system. -/
def dotDot (dir : InodeIx) (name : List Byte) (fs : FileSystem) :
    Except Panic (List Byte × InodeIx × FileSystem) :=
  if name = [dot, dot] then
    if fs.root = .entry dir then .ok ([dot], dir, fs)
    else if (fs.inode dir).iNum = ROOT_INO then
      match getSuper (fs.inode dir).iDev fs with
      | none => .error .wildPointer
      | some sb =>
        match sb.sImount with
        | .null => .ok (name, dir, fs)
        | .wild => .error .wildPointer
        | .entry i => do
          let fs ← iput dir fs
          return (name, i, fs.setInode i
            { fs.inode i with iCount := ((fs.inode i).iCount + 1) % 65536 })
    else .ok (name, dir, fs)
  else .ok (name, dir, fs)

/-- The entry, `none` for `NULL`, and the directory as `*dir` is left. `name` has
`namelen` bytes. -/
def findEntry (dir : InodeIx) (name : List Byte) (fs : FileSystem) :
    Except Panic (Option DirEntry × InodeIx × FileSystem) :=
  let name := name.take NAME_LEN
  let entries := (fs.inode dir).d.iSize / 16
  if name = [] then .ok (none, dir, fs) else do
  let (name, dir, fs) ← dotDot dir name fs
  let block := (fs.inode dir).d.iZone 0
  if block = 0 then return (none, dir, fs) else
  match ← bread (fs.inode dir).iDev block fs with
  | (none, fs) => return (none, dir, fs)
  | (some data, fs) =>
    let dev := (fs.inode dir).iDev
    let (de, fs) ← findLoop dir name entries entries 0 0 (some ((dev, block), data)) fs
    return (de, dir, fs)

/-- The stub of `fs/namei.c`: no entry is ever added. -/
def addEntry (_dir : InodeIx) (_name : List Byte) (fs : FileSystem) :
    Except Panic (Option DirEntry × FileSystem) := .ok (none, fs)

def component : List Byte → List Byte × Option (List Byte)
  | [] => ([], none)
  | c :: cs =>
    if c = 0 then ([], none)
    else if c = slash then ([], some cs)
    else (c :: (component cs).1, (component cs).2)

/-- The loop of `get_dir`. Each turn takes a slash off the path. -/
def getDirLoop : Nat → List Byte → InodeIx → FileSystem → Except Panic (Option InodeIx × FileSystem)
  | 0, _, _, _ => .error .neverReturns
  | fuel + 1, path, i, fs =>
    if ¬ S_ISDIR (fs.inode i).d.iMode ∨ permission i MAY_EXEC fs = false then do
      return (none, ← iput i fs)
    else
      let (name, rest) := component path
      match rest with
      | none => .ok (some i, fs)
      | some rest => do
        let (de, i, fs) ← findEntry i name fs
        match de with
        | none => return (none, ← iput i fs)
        | some de =>
          let idev := (fs.inode i).iDev
          let fs ← brelse de.bh.1 de.bh.2 fs
          let fs ← iput i fs
          let (i, fs) ← iget idev de.inode fs
          getDirLoop fuel rest i fs

/-- `!p || !p->i_count` -/
def unused (p : InodePtr) (fs : FileSystem) : Bool :=
  match p with
  | .null => true
  | .entry i => (fs.inode i).iCount = 0
  | .wild => false

def getDir (path : List Byte) (fs : FileSystem) : Except Panic (Option InodeIx × FileSystem) :=
  if unused fs.root fs then .error .noRoot
  else if unused fs.pwd fs then .error .noCwd
  else
    let (start, path) := match path with
      | [] => (InodePtr.null, [])
      | c :: cs => if c = slash then (fs.root, cs) else if c = 0 then (.null, [])
        else (fs.pwd, path)
    match start with
    | .null => .ok (none, fs)
    | .wild => .error .wildPointer
    | .entry i =>
      getDirLoop (path.length + 1) path i
        (fs.setInode i { fs.inode i with iCount := ((fs.inode i).iCount + 1) % 65536 })

/-- The loop of `dir_namei` over the path: `basename` at its end. -/
def baseLoop : List Byte → List Byte → List Byte
  | [], basename => basename
  | c :: path, basename =>
    if c = 0 then basename else if c = slash then baseLoop path path else baseLoop path basename

def baseName (path : List Byte) : List Byte := (baseLoop path path).takeWhile (· ≠ 0)

def dirNamei (path : List Byte) (fs : FileSystem) :
    Except Panic (Option (InodeIx × List Byte) × FileSystem) := do
  let (dir, fs) ← getDir path fs
  return (dir.map fun dir => (dir, baseName path), fs)

/-- `0777 & ~current->umask` -/
def allowed (fs : FileSystem) : Nat := 0o777 ^^^ (fs.umask &&& 0o777)

/-- `open_namei` where the name has no entry. `uninit` is the value of the
uninitialised local that `new_inode` returns. -/
def createEntry (dir : InodeIx) (basename : List Byte) (flag mode : Nat) (uninit : InodePtr)
    (fs : FileSystem) : Except Panic (Int × Option InodePtr × FileSystem) :=
  if flag &&& O_CREAT = 0 then do return (-ENOENT, none, ← iput dir fs)
  else if permission dir MAY_WRITE fs = false then do return (-EACCES, none, ← iput dir fs)
  else match uninit with
  | .null => do return (-ENOSPC, none, ← iput dir fs)
  | .wild => .error .wildPointer
  | .entry i => do
    let m := fs.inode i
    let fs := fs.setInode i { m with d := (m.d.setUid fs.euid).setMode mode, iDirt := true }
    let (de, fs) ← addEntry dir basename fs
    match de with
    | none =>
      let m := fs.inode i
      let fs := fs.setInode i { m with d := m.d.setNlinks ((m.d.iNlinks + 255) % 256) }
      let fs ← iput i fs
      return (-ENOSPC, none, ← iput dir fs)
    | some de =>
      let fs ← modify de.bh.1 de.bh.2 (Block.setDirInode · de.index (fs.inode i).iNum) fs
      let fs ← brelse de.bh.1 de.bh.2 fs
      return (0, some (.entry i), ← iput dir fs)

/-- `open_namei` behind the entry it found. -/
def openFound (dir : InodeIx) (de : DirEntry) (flag : Nat) (fs : FileSystem) :
    Except Panic (Int × Option InodePtr × FileSystem) := do
  let dev := (fs.inode dir).iDev
  let fs ← brelse de.bh.1 de.bh.2 fs
  let fs ← iput dir fs
  if flag &&& O_EXCL ≠ 0 then return (-EEXIST, none, fs) else
  let (i, fs) ← iget dev de.inode fs
  if (S_ISDIR (fs.inode i).d.iMode ∧ flag &&& O_ACCMODE ≠ 0) ∨
      permission i (ACC_MODE flag) fs = false then
    return (-EPERM, none, ← iput i fs)
  else return (0, none, fs)

def nameiFlag (flag : Nat) : Nat :=
  if flag &&& O_TRUNC ≠ 0 ∧ flag &&& O_ACCMODE = 0 then flag ||| O_WRONLY else flag

/-- The result, what is stored through `res_inode` (`none` if nothing is), and the
state. -/
def openNamei (path : List Byte) (flag mode : Nat) (uninit : InodePtr) (fs : FileSystem) :
    Except Panic (Int × Option InodePtr × FileSystem) := do
  let flag := nameiFlag flag
  let mode := (mode &&& allowed fs) ||| I_REGULAR
  let (r, fs) ← dirNamei path fs
  match r with
  | none => return (-ENOENT, none, fs)
  | some (dir, basename) =>
    if basename = [] then
      if flag &&& (O_ACCMODE ||| O_CREAT ||| O_TRUNC) = 0 then return (0, some (.entry dir), fs)
      else return (-EISDIR, none, ← iput dir fs)
    else
      let (de, dir, fs) ← findEntry dir basename fs
      match de with
      | none => createEntry dir basename flag mode uninit fs
      | some de => openFound dir de flag fs

end Hios.Fs
