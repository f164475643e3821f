import Hios.BlkDrv.HardDisk
import Hios.Fs.BufferQueues

/-! The buffer cache over its disks: `buffer.c` with `make_request` and the block drivers. One
process calls; before each wait of it, and while it sleeps, interrupts let the drivers go on.
`none` is a panic or a sleep that nobody ends. -/
namespace Hios.Fs
open Hios.BlkDrv
variable {β δ : Type}

def BufferHead.core (h : BufferHead β δ) : CacheHead :=
  ⟨h.bDev, h.bBlocknr, h.bUptodate, h.bDirt, h.bCount, h.bLock⟩

/-- The heads with the request table, the lists of the heads and the disks, a block by its
device and first sector. `moved` says that the block of a major's first request has been
transferred, `clock` counts the times that drivers may go on. -/
structure BlockCache (β δ : Type) where
  io : Io β δ
  buffers : List β
  chain : Nat → List β
  free : List β
  disk : Int → Nat → δ
  moved : Nat → Bool
  clock : Nat

/-- When the drivers go on: the majors, in their order, at each time of the clock. -/
abbrev Pace := Nat → List Nat

namespace BlockCache

/-- What the functions over the lists see; none of them looks at an inode. -/
def caches (s : BlockCache β δ) : Caches β where
  buffers := s.buffers
  head := fun b => (s.io.bh b).core
  chain := s.chain
  free := s.free
  inode := fun _ => ⟨0, 0, false, false, false⟩
  bitmaps := fun _ => none

variable [DecidableEq β]

def setBh (s : BlockCache β δ) (b : β) (h : BufferHead β δ) : BlockCache β δ :=
  { s with io := s.io.setBh b h }

def transfer (s : BlockCache β δ) (c : Slot) : BlockCache β δ :=
  let r := s.io.request c
  match r.bh with
  | none => s
  | some b =>
    if r.cmd = READ then s.setBh b { s.io.bh b with bData := s.disk r.dev r.sector }
    else { s with disk := fun dev n => if dev = r.dev ∧
      n = r.sector then (s.io.bh b).bData else s.disk dev n }

/-- The driver of `major` goes on with its first request: the transfer, then `end_request(1)`. -/
def advance (s : BlockCache β δ) (major : Nat) : BlockCache β δ :=
  match s.io.currentRequest major with
  | none => s
  | some c =>
    if s.moved major then
      match endRequest major true s.io with
      | none => s
      | some io => { s with io := io, moved := Function.update s.moved major false }
    else { s.transfer c with moved := Function.update s.moved major true }

def interrupts (pace : Pace) (s : BlockCache β δ) : BlockCache β δ :=
  { (pace s.clock).foldl advance s with clock := s.clock + 1 }

/-- `schedule()` of a process that sleeps: each driver comes to the end of a request. -/
def sleep (pace : Pace) (s : BlockCache β δ) : BlockCache β δ :=
  (List.range NR_BLK_DEV).foldl (fun s major => (s.advance major).advance major) (s.interrupts pace)

/-- `while (bh->b_lock) sleep_on(&bh->b_wait)`. -/
def sleepOnBuffer (pace : Pace) (b : β) : Nat → BlockCache β δ → Option (BlockCache β δ)
  | 0, _ => none
  | fuel + 1, s => if (s.io.bh b).bLock then sleepOnBuffer pace b fuel (s.sleep pace) else some s

/-- No queue is longer than the table, so its rounds are enough. -/
def waitOnBuffer (pace : Pace) (b : β) (s : BlockCache β δ) : Option (BlockCache β δ) :=
  (s.interrupts pace).sleepOnBuffer pace b (NR_REQUEST + 1)

/-- `make_request` from `repeat` to the slot it finds. -/
def searchSlot (pace : Pace) (rw : Nat) : Nat → BlockCache β δ → Option (Slot × BlockCache β δ)
  | 0, _ => none
  | fuel + 1, s =>
    match findRequest s.io.request rw with
    | some req => some (req, s)
    | none => searchSlot pace rw fuel (s.sleep pace)

def makeRequest (pace : Pace) (major rw : Nat) (b : β) (s : BlockCache β δ) :
    Option (BlockCache β δ) :=
  do
  let s ← s.waitOnBuffer pace b
  let s := s.setBh b { s.io.bh b with bLock := true }
  if needless rw (s.io.bh b) then return s.setBh b { s.io.bh b with bLock := false } else
  let (req, s) ← (s.interrupts pace).searchSlot pace rw (NR_REQUEST + 1)
  let io ← addRequest major req
    (fillRequest req (s.io.bh b).bDev rw (s.io.bh b).bBlocknr (some b) s.io)
  return { s with io := io }

/-- Without a driver there is only the message. -/
def llRwBlock (pace : Pace) (rw : Nat) (b : β) (s : BlockCache β δ) : Option (BlockCache β δ) :=
  let major := majorOf (s.io.bh b).bDev
  if NR_BLK_DEV ≤ major ∨ ¬ s.io.requestFn major then some s else s.makeRequest pace major rw b

/-- One turn of the loops of `sync_dev`. -/
def syncBuffer (pace : Pace) (dev : Nat) (s : BlockCache β δ) (b : β) : Option (BlockCache β δ) :=
  if (s.io.bh b).bDev ≠ dev then some s else do
  let s ← s.waitOnBuffer pace b
  if (s.io.bh b).bDev = dev ∧ (s.io.bh b).bDirt then s.llRwBlock pace WRITE b else return s

/-- Between its two loops `sync_dev` writes the inodes that are dirty, and none is. -/
def syncDev (pace : Pace) (dev : Nat) (s : BlockCache β δ) : Option (BlockCache β δ) := do
  let s ← s.buffers.foldlM (syncBuffer pace dev) s
  s.buffers.foldlM (syncBuffer pace dev) s

def addCount (s : BlockCache β δ) (b : β) (n : Nat) : BlockCache β δ :=
  s.setBh b { s.io.bh b with bCount := ((s.io.bh b).bCount + n) % 256 }

def getHashTable (pace : Pace) (dev block : Nat) :
    Nat → BlockCache β δ → Option (Option β × BlockCache β δ)
  | 0, _ => none
  | fuel + 1, s =>
    match findBuffer s.caches dev block with
    | none => some (none, s)
    | some b => do
      let s ← (s.addCount b 1).waitOnBuffer pace b
      if (s.io.bh b).bDev = dev % 65536 ∧ (s.io.bh b).bBlocknr = block then return (some b, s)
      else (s.addCount b 255).getHashTable pace dev block fuel

/-- The `while` loop of `getblk`; `true` if it jumps back to `repeat`. -/
def writeOut (pace : Pace) (b : β) : Nat → BlockCache β δ → Option (Bool × BlockCache β δ)
  | 0, _ => none
  | fuel + 1, s =>
    if (s.io.bh b).bDirt then do
      let s ← s.syncDev pace (s.io.bh b).bDev
      let s ← s.waitOnBuffer pace b
      if (s.io.bh b).bCount ≠ 0 then return (true, s) else s.writeOut pace b fuel
    else some (false, s)

/-- The end of `getblk`. -/
def take (s : BlockCache β δ) (dev block : Nat) (b : β) : BlockCache β δ :=
  { s.setBh b { s.io.bh b with
    bCount := 1, bDirt := false, bUptodate := false, bDev := dev % 65536, bBlocknr := block } with
    chain := (takeBuffer s.caches dev block b).chain
    free := (takeBuffer s.caches dev block b).free }

def getblk (pace : Pace) (dev block : Nat) : Nat → BlockCache β δ → Option (β × BlockCache β δ)
  | 0, _ => none
  | fuel + 1, s => do
    let (found, s) ← s.getHashTable pace dev block fuel
    match found with
    | some b => return (b, s)
    | none =>
      -- if every buffer is held the process sleeps, and nobody is there to release one
      let b ← scanFree s.caches.head s.free none
      let s ← s.waitOnBuffer pace b
      if (s.io.bh b).bCount ≠ 0 then s.getblk pace dev block fuel else
      let (again, s) ← s.writeOut pace b fuel
      if again then s.getblk pace dev block fuel
      else if (findBuffer s.caches dev block).isSome then s.getblk pace dev block fuel
      else return (b, s.take dev block b)

def brelse (pace : Pace) (b : β) (s : BlockCache β δ) : Option (BlockCache β δ) := do
  let s ← s.waitOnBuffer pace b
  if (s.io.bh b).bCount = 0 then none else return s.addCount b 255

/-- The buffer, or `none` for `NULL`. -/
def bread (pace : Pace) (dev block fuel : Nat) (s : BlockCache β δ) :
    Option (Option β × BlockCache β δ) :=
  do
  let (b, s) ← s.getblk pace dev block fuel
  if (s.io.bh b).bUptodate then return (some b, s) else
  let s ← s.llRwBlock pace READ b
  let s ← s.waitOnBuffer pace b
  if (s.io.bh b).bUptodate then return (some b, s) else
  let s ← s.brelse pace b
  return (none, s)

def modify (b : β) (f : δ → δ) (s : BlockCache β δ) : BlockCache β δ :=
  s.setBh b { s.io.bh b with bData := f (s.io.bh b).bData, bDirt := true }

end BlockCache

/-- A call of the cache. A holder names its buffer by its place among those that are held. -/
inductive CacheCall (δ : Type) where
  | bread (dev block : Nat)
  | getblk (dev block : Nat)
  | modify (i : Nat) (f : δ → δ)
  | brelse (i : Nat)
  | syncDev (dev : Nat)

structure CacheUse (β δ : Type) where
  cache : BlockCache β δ
  held : List β

variable [DecidableEq β]

def TURNS : Nat := 3

/-- A call, with the contents of the buffer that `bread` returns. `none` is also its `NULL`. -/
def cacheStep (pace : Pace) (s : CacheUse β δ) : CacheCall δ → Option (Option δ × CacheUse β δ)
  | .bread dev block => do
    let (b, c) ← (s.cache.interrupts pace).bread pace dev block TURNS
    let b ← b
    return (some (c.io.bh b).bData, ⟨c, b :: s.held⟩)
  | .getblk dev block => do
    let (b, c) ← (s.cache.interrupts pace).getblk pace dev block TURNS
    return (none, ⟨c, b :: s.held⟩)
  | .modify i f => do
    let b ← s.held[i]?
    return (none, ⟨(s.cache.interrupts pace).modify b f, s.held⟩)
  | .brelse i => do
    let b ← s.held[i]?
    let c ← (s.cache.interrupts pace).brelse pace b
    return (none, ⟨c, s.held.eraseIdx i⟩)
  | .syncDev dev => do
    let c ← (s.cache.interrupts pace).syncDev pace dev
    return (none, ⟨c, s.held⟩)

def initCache (buffers : List β) (bh : β → BufferHead β δ) (request : Slot → Request β)
  (requestFn : Nat → Bool)
    (disk : Int → Nat → δ) : BlockCache β δ where
  io := blkDevInit ⟨fun b =>
    { bh b with bDev := 0, bDirt := false, bCount := 0, bLock := false, bUptodate := false },
    request, fun _ => none, requestFn⟩
  buffers := buffers
  chain := fun _ => []
  free := buffers
  disk := disk
  moved := fun _ => false
  clock := 0

end Hios.Fs
