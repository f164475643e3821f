import Hios.Fs.Open

/-! `file_read`, `sys_read` and `sys_dup`. The bytes that `put_fs_byte` stores in
user space are a list. -/
namespace Hios.Fs

def EBADF : Int := 9
def EMFILE : Int := 24
def ERROR : Int := 99
def BLOCK_SIZE : Nat := 1024

def Block.bytes (b : Block) (nr chars : Nat) : List Byte :=
  (List.range chars).map fun k => b (Fin.ofNat 1024 (nr + k))

/-- The loop of `file_read`: the bytes so far and the file position. Each turn reads a
byte at least, so as many turns as there are bytes are enough. -/
def fileReadLoop (i : InodeIx) : Nat → Nat → Nat → List Byte → FileSystem →
    Except Panic (List Byte × Nat × FileSystem)
  | 0, _, pos, out, fs => .ok (out, pos, fs)
  | fuel + 1, left, pos, out, fs =>
    if left = 0 then .ok (out, pos, fs) else do
    let (nr, fs) ← bmap i (pos / BLOCK_SIZE) fs
    let chars := min (BLOCK_SIZE - pos % BLOCK_SIZE) left
    if nr = 0 then
      fileReadLoop i fuel (left - chars) (pos + chars) (out ++ List.replicate chars 0) fs
    else
      let dev := (fs.inode i).iDev
      match ← bread dev nr fs with
      | (none, fs) => return (out, pos, fs)
      | (some data, fs) =>
        let fs ← brelse dev nr fs
        fileReadLoop i fuel (left - chars) (pos + chars)
          (out ++ data.bytes (pos % BLOCK_SIZE) chars) fs

/-- The result and the bytes, where the user's buffer is large enough. -/
def fileRead (i : InodeIx) (filp : Fin NR_FILE) (count : Int) (fs : FileSystem) :
    Except Panic (Int × List Byte × FileSystem) :=
  if count ≤ 0 then .ok (0, [], fs) else do
  let (out, pos, fs) ← fileReadLoop i count.toNat count.toNat (fs.file filp).fPos [] fs
  let fs := fs.setFile filp { fs.file filp with fPos := pos }
  return (if out.length = 0 then -ERROR else out.length, out, fs)

/-- The bytes of the segment that `put_fs_byte` stores into: `ldt[2]` in `INIT_TASK`. -/
def SEGMENT_SIZE : Nat := 0xa0000

/-- `fileReadLoop` with its stores, `room` of which stay within the segment. The next one
traps, and `die` never comes back. -/
def fileReadLoopTo (room : Nat) (i : InodeIx) : Nat → Nat → Nat → List Byte → FileSystem →
    Except Panic (List Byte × Nat × FileSystem)
  | 0, _, pos, out, fs => .ok (out, pos, fs)
  | fuel + 1, left, pos, out, fs =>
    if left = 0 then .ok (out, pos, fs) else do
    let (nr, fs) ← bmap i (pos / BLOCK_SIZE) fs
    let chars := min (BLOCK_SIZE - pos % BLOCK_SIZE) left
    if nr = 0 then
      if room < out.length + chars then throw .generalProtection else
      fileReadLoopTo room i fuel (left - chars) (pos + chars) (out ++ List.replicate chars 0) fs
    else
      let dev := (fs.inode i).iDev
      match ← bread dev nr fs with
      | (none, fs) => return (out, pos, fs)
      | (some data, fs) =>
        if room < out.length + chars then throw .generalProtection else
        let fs ← brelse dev nr fs
        fileReadLoopTo room i fuel (left - chars) (pos + chars)
          (out ++ data.bytes (pos % BLOCK_SIZE) chars) fs

/-- `file_read` to the user's address `buf`. -/
def fileReadTo (buf : Nat) (i : InodeIx) (filp : Fin NR_FILE) (count : Int) (fs : FileSystem) :
    Except Panic (Int × List Byte × FileSystem) :=
  if count ≤ 0 then .ok (0, [], fs) else do
  let (out, pos, fs) ←
    fileReadLoopTo (SEGMENT_SIZE - buf) i count.toNat count.toNat (fs.file filp).fPos [] fs
  let fs := fs.setFile filp { fs.file filp with fPos := pos }
  return (if out.length = 0 then -ERROR else out.length, out, fs)

def toInt32 (x : Nat) : Int :=
  if x % 2 ^ 32 < 2 ^ 31 then (x % 2 ^ 32 : Nat) else (x % 2 ^ 32 : Nat) - 2 ^ 32

/-- `sys_read`, with `file_read` as `read`. -/
def sysReadWith
    (read : InodeIx → Fin NR_FILE → Int → FileSystem → Except Panic (Int × List Byte × FileSystem))
    (fd : Nat) (count : Int) (fs : FileSystem) : Except Panic (Int × List Byte × FileSystem) :=
  if h : fd < NR_OPEN ∧ 0 ≤ count then
    match fs.filp ⟨fd, h.1⟩ with
    | none => .ok (-EINVAL, [], fs)
    | some filp =>
      match (fs.file filp).fInode with
      | .null | .wild => .error .wildPointer
      | .entry i =>
        let mode := (fs.inode i).d.iMode
        let size := (fs.inode i).d.iSize
        let pos := (fs.file filp).fPos
        if S_ISDIR mode ∨ S_ISREG mode then
          let count := if size < (size + pos) % 2 ^ 32 then toInt32 (size + 2 ^ 32 - pos % 2 ^ 32)
            else toInt32 size
          if count ≤ 0 then .ok (0, [], fs) else read i filp count fs
        else .ok (-EINVAL, [], fs)
  else .ok (-EINVAL, [], fs)

def sysRead : Nat → Int → FileSystem → Except Panic (Int × List Byte × FileSystem) :=
  sysReadWith fileRead

/-- `sys_read` to the user's address `buf`. -/
def sysReadTo (buf : Nat) : Nat → Int → FileSystem → Except Panic (Int × List Byte × FileSystem) :=
  sysReadWith (fileReadTo buf)

def sysDup (fildes : Nat) (fs : FileSystem) : Int × FileSystem :=
  if h : fildes < NR_OPEN then
    match fs.filp ⟨fildes, h⟩ with
    | none => (-EBADF, fs)
    | some filp =>
      match freeFd fs with
      | none => (-EMFILE, fs)
      | some arg =>
        let fs := { fs with closeOnExec := fs.closeOnExec &&& ~~~(1#32 <<< arg.val) }
        (arg.val, (fs.setFilp arg (some filp)).setFile filp
          { fs.file filp with fCount := ((fs.file filp).fCount + 1) % 65536 })
  else (-EBADF, fs)

end Hios.Fs
