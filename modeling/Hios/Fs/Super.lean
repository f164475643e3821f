import Hios.Fs.Buffers

/-! `read_super` of `fs/super.c`, and the counts of free zones and inodes that
`mount_root` takes from the bitmaps. -/
namespace Hios.Fs
open Hios.Outcome

def SUPER_MAGIC : Nat := 0x137F
def MAP_SLOTS : Nat := 8

structure Mounts where
  fs : FileSystem
  sLock : Fin NR_SUPER → Bool

def Mounts.setSuper (s : Mounts) (k : Fin NR_SUPER) (sb : SuperBlock) : Mounts :=
  { s with fs := { s.fs with super := Function.update s.fs.super k sb } }

def Mounts.setLock (s : Mounts) (k : Fin NR_SUPER) (lock : Bool) : Mounts :=
  { s with sLock := Function.update s.sLock k lock }

/-- `s_imap[i]` or `s_zmap[i]`; `none` for `NULL`, and behind the array. -/
def mapAt (map : Fin 8 → Option BufferName) (i : Nat) : Option BufferName :=
  if h : i < MAP_SLOTS then map ⟨i, h⟩ else none

/-- The loop that fills `s_imap` or `s_zmap` from index `i` on, with `n` turns left.
Index 8 is outside the array. -/
def readMap (dev : Nat) : Nat → Nat → Nat → (Fin 8 → Option BufferName) → FileSystem →
    Except Panic ((Fin 8 → Option BufferName) × Nat × FileSystem)
  | 0, _, block, map, fs => .ok (map, block, fs)
  | n + 1, i, block, map, fs => do
    let (data, fs) ← bread dev block fs
    if h : i < MAP_SLOTS then
      match data with
      | none => return (Function.update map ⟨i, h⟩ none, block, fs)
      | some _ =>
        readMap dev n (i + 1) (block + 1) (Function.update map ⟨i, h⟩ (some (dev, block))) fs
    else throw .wildPointer

/-- `brelse`, which returns at once for `NULL`. -/
def brelsePtr (fs : FileSystem) : Option BufferName → Except Panic FileSystem
  | none => .ok fs
  | some (d, b) => brelse d b fs

/-- `for(i = 0; i < I_MAP_SLOTS; i++) brelse(s->s_imap[i])` -/
def brelseMap (map : Fin 8 → Option BufferName) (fs : FileSystem) : Except Panic FileSystem :=
  ((List.range MAP_SLOTS).map (mapAt map)).foldlM brelsePtr fs

/-- `s->s_imap[0]->b_data[0] |= 1` -/
def markFirst (map : Fin 8 → Option BufferName) (fs : FileSystem) : Except Panic FileSystem :=
  match map 0 with
  | none => .error .wildPointer
  | some (d, b) =>
    match fs.buffer d b with
    | none => .error .wildPointer
    | some bh =>
      .ok (fs.setBuffer d b
        (some { bh with data := Function.update bh.data 0 (bh.data 0 ||| 1#8) }))

/-- `s->s_dev = 0; free_super(s); return NULL` -/
def giveUp (k : Fin NR_SUPER) (s : Mounts) : Option (Fin NR_SUPER) × Mounts :=
  (none, (s.setSuper k { s.fs.super k with sDev := 0 }).setLock k false)

/-- `read_super` behind the magic number: slot `k` holds the sizes. -/
def readBitmaps (dev : Nat) (k : Fin NR_SUPER) (s : Mounts) :
    Except Panic (Option (Fin NR_SUPER) × Mounts) := do
  let sb := s.fs.super k
  let (imap, block, fs) ← readMap dev sb.sImapBlocks 0 2 (fun _ => none) s.fs
  let (zmap, block, fs) ← readMap dev sb.sZmapBlocks 0 block (fun _ => none) fs
  let s := { s with fs := fs }.setSuper k { sb with sImap := imap, sZmap := zmap }
  if block ≠ 2 + sb.sImapBlocks + sb.sZmapBlocks then
    let fs ← brelseMap imap s.fs
    let fs ← brelseMap zmap fs
    return giveUp k { s with fs := fs }
  else
    let fs ← markFirst imap s.fs
    let fs ← markFirst zmap fs
    return (some k, { s with fs := fs }.setLock k false)

/-- `read_super` from the slot on that it has found. -/
def readIntoSlot (dev : Nat) (k : Fin NR_SUPER) (s : Mounts) :
    Except Panic (Option (Fin NR_SUPER) × Mounts) :=
  if s.sLock k then .error .asleep else do
  let s := (s.setSuper k { s.fs.super k with sDev := dev % 65536, sImount := .null }).setLock k true
  match ← bread dev 1 s.fs with
  | (none, fs) => return giveUp k { s with fs := fs }
  | (some data, fs) =>
    let fs ← brelse dev 1 fs
    let s := { s with fs := fs }.setSuper k
      { s.fs.super k with
        sNinodes := data.short 0
        sNzones := data.short 1
        sImapBlocks := data.short 2
        sZmapBlocks := data.short 3
        sFirstdatazone := data.short 4 }
    if data.short 8 ≠ SUPER_MAGIC then return giveUp k s else readBitmaps dev k s

def findSuper (dev : Nat) (fs : FileSystem) : Option (Fin NR_SUPER) :=
  (List.finRange NR_SUPER).find? fun k => (fs.super k).sDev = dev

/-- The slot, `none` for `NULL`. `check_disk_change` does nothing. -/
def readSuper (dev : Nat) (s : Mounts) : Except Panic (Option (Fin NR_SUPER) × Mounts) :=
  if dev = 0 then .ok (none, s) else
  match findSuper dev s.fs with
  | some k => if s.sLock k then .error .asleep else .ok (some k, s)
  | none =>
    match findSuper 0 s.fs with
    | none => .ok (none, s)
    | some k => readIntoSlot dev k s

/-- `set_bit`, which only tests the bit. -/
def setBit (nr : Nat) (data : Block) : Bool := (data (Fin.ofNat 1024 (nr / 8))).getLsbD (nr % 8)

/-- The loop of `mount_root` that counts the free ones of `n` bits from the last on. -/
def countFree (map : Fin 8 → Option BufferName) (n : Nat) (fs : FileSystem) : Except Panic Nat :=
  (List.range n).reverse.foldlM (fun free i =>
    match mapAt map (i / 8192) with
    | none => .error .wildPointer
    | some (d, b) =>
      match fs.buffer d b with
      | none => .error .wildPointer
      | some bh => .ok (if setBit (i % 8192) bh.data then free else free + 1)) 0

def Held (fs : FileSystem) (p : Option BufferName) : Prop :=
  ∃ d b, p = some (d, b) ∧ bufferCount fs d b ≠ 0

structure Covers (fs : FileSystem) (sb : SuperBlock) : Prop where
  imap : ∀ i ≤ sb.sNinodes, Held fs (mapAt sb.sImap (i / 8192))
  zmap : ∀ i < sb.sNzones, Held fs (mapAt sb.sZmap (i / 8192))

/-- What is asked of `read_super`: it leaves nothing behind, or a super block that is
covered and whose free zones and inodes can be counted for as long as it is held. -/
def ReadSuperOk (dev : Nat) (s : Mounts) : Prop :=
  Ends (· = .asleep) (fun r => match r.1 with
    | none => (∀ k, findSuper 0 s.fs = some k → (r.2.fs.super k).sDev = 0 ∧ r.2.sLock k = false) ∧
        ∀ d b, bufferCount r.2.fs d b = bufferCount s.fs d b
    | some k => Covers r.2.fs (r.2.fs.super k) ∧
        ∀ fs, (∀ d b, bufferCount r.2.fs d b ≠ 0 → fs.buffer d b ≠ none) →
          Returns (fun _ => True) (countFree (r.2.fs.super k).sZmap (r.2.fs.super k).sNzones fs) ∧
          Returns (fun _ => True)
            (countFree (r.2.fs.super k).sImap ((r.2.fs.super k).sNinodes + 1) fs))
    (readSuper dev s)

/-- How many of the `n` reads of consecutive blocks go well before the first that does
not, the first being the call with number `call`. -/
def goodReads (fs : FileSystem) (dev : Nat) : Nat → Nat → Nat → Nat
  | _, _, 0 => 0
  | call, block, n + 1 =>
    if available fs dev call block then goodReads fs dev (call + 1) (block + 1) n + 1 else 0

/-- The sizes in block 1 fit the arrays as far as the reads of the bitmaps go well, and
cover the inodes and zones if all of them do. -/
def SizesFit (fs : FileSystem) (dev : Nat) : Prop :=
  let head := content fs dev 1
  let i := goodReads fs dev 1 2 (head.short 2)
  let z := goodReads fs dev (1 + min (i + 1) (head.short 2)) (2 + i) (head.short 3)
  ¬ (8 < head.short 2 ∧ 8 ≤ i) ∧ ¬ (8 < head.short 3 ∧ 8 ≤ z) ∧
    (i = head.short 2 → z = head.short 3 →
      head.short 0 < 8192 * head.short 2 ∧ head.short 1 ≤ 8192 * head.short 3 ∧ 0 < head.short 3)

instance (fs : FileSystem) (dev : Nat) : Decidable (SizesFit fs dev) :=
  inferInstanceAs (Decidable (¬ (_ ∧ _) ∧ ¬ (_ ∧ _) ∧ (_ → _ → _ ∧ _ ∧ _)))

end Hios.Fs
