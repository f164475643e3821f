import Mathlib
import Hios.Fs.BufferHead
import Hios.Lib.LinkedList

/-! The request table and the device queues of `kernel/blk_drv`. -/
namespace Hios.BlkDrv
open Hios.Fs Hios.LinkedList
variable {β δ : Type} [DecidableEq β]

def NR_REQUEST : Nat := 32

instance : NeZero NR_REQUEST := ⟨by decide⟩

abbrev Slot := Fin NR_REQUEST

def READ : Nat := 0
def WRITE : Nat := 1
def READA : Nat := 2
def WRITEA : Nat := 3

structure Request (β : Type) where
  /-- -1 if no request. -/
  dev : Int
  cmd : Nat
  errors : Nat
  sector : Nat
  nrSectors : Nat
  /-- Offset of `buffer` in the data of `bh`. -/
  buffer : Nat
  bh : Option β
  next : Option Slot

def inOrder (s₁ s₂ : Request β) : Prop :=
  s₁.cmd < s₂.cmd ∨ (s₁.cmd = s₂.cmd ∧
    (s₁.dev < s₂.dev ∨ (s₁.dev = s₂.dev ∧ s₁.sector < s₂.sector)))

instance (s₁ s₂ : Request β) : Decidable (inOrder s₁ s₂) :=
  inferInstanceAs (Decidable (_ ∨ _))

/-- The buffer heads together with the request table; `currentRequest` and
`requestFn` are the fields of `blk_dev[major]`, the latter as "not `NULL`". -/
structure Io (β δ : Type) where
  bh : β → BufferHead β δ
  request : Slot → Request β
  currentRequest : Nat → Option Slot
  requestFn : Nat → Bool

def Io.next (io : Io β δ) (i : Slot) : Option Slot := (io.request i).next

def Io.setBh (io : Io β δ) (b : β) (h : BufferHead β δ) : Io β δ :=
  { io with bh := Function.update io.bh b h }

def Io.setRequest (io : Io β δ) (i : Slot) (r : Request β) : Io β δ :=
  { io with request := Function.update io.request i r }

def Io.setCurrent (io : Io β δ) (major : Nat) (c : Option Slot) : Io β δ :=
  { io with currentRequest := Function.update io.currentRequest major c }

def blkDevInit (io : Io β δ) : Io β δ :=
  { io with request := fun i => { io.request i with dev := -1, next := none } }

/-- The `for` loop of `add_request`: the request to insert behind. -/
def findPlace (request : Slot → Request β) (req : Slot) : Nat → Slot → Option Slot
  | 0, _ => none
  | fuel + 1, tmp =>
    match (request tmp).next with
    | none => some tmp
    | some n =>
      if (inOrder (request tmp) (request req) ∨ ¬ inOrder (request tmp) (request n)) ∧
          inOrder (request req) (request n) then some tmp
      else findPlace request req fuel n

def Io.cleanBh (io : Io β δ) (b : Option β) : Io β δ :=
  match b with
  | none => io
  | some b => io.setBh b { io.bh b with bDirt := false }

def Io.linkAfter (io : Io β δ) (tmp req : Slot) : Io β δ :=
  let io := io.setRequest req { io.request req with next := (io.request tmp).next }
  io.setRequest tmp { io.request tmp with next := some req }

/-- `add_request` without the call of `request_fn`, whose effects on the queue
are the driver's own steps. No queue is longer than the table, so `NR_REQUEST`
rounds of the loop are enough. -/
def addRequest (major : Nat) (req : Slot) (io : Io β δ) : Option (Io β δ) :=
  let io := io.setRequest req { io.request req with next := none }
  let io := io.cleanBh (io.request req).bh
  match io.currentRequest major with
  | none => some (io.setCurrent major (some req))
  | some tmp => (findPlace io.request req NR_REQUEST tmp).map fun tmp => io.linkAfter tmp req

/-- The part of `make_request` that fills the slot it has found. -/
def fillRequest (req : Slot) (dev rw blocknr : Nat) (b : Option β) (io : Io β δ) : Io β δ :=
  io.setRequest req
    { dev := dev, cmd := rw, errors := 0, sector := blocknr * 2 % 2 ^ 32, nrSectors := 2
      buffer := 0, bh := b, next := none }

def unlockBuffer (b : β) (io : Io β δ) : Io β δ :=
  io.setBh b { io.bh b with bLock := false }

/-- `if (CURRENT->bh)`: mark the buffer and unlock it. -/
def Io.finishBh (io : Io β δ) (b : Option β) (uptodate : Bool) : Io β δ :=
  match b with
  | none => io
  | some b => unlockBuffer b (io.setBh b { io.bh b with bUptodate := uptodate })

/-- `none` where the code follows a null `CURRENT`. -/
def endRequest (major : Nat) (uptodate : Bool) (io : Io β δ) : Option (Io β δ) := do
  let c ← io.currentRequest major
  let io := io.finishBh (io.request c).bh uptodate
  let io := io.setRequest c { io.request c with dev := -1 }
  return io.setCurrent major (io.request c).next

def Request.advance (r : Request β) : Request β :=
  { r with
    errors := 0, buffer := r.buffer + 512, sector := (r.sector + 1) % 2 ^ 32
    nrSectors := (r.nrSectors + (2 ^ 32 - 1)) % 2 ^ 32 }

/-- `read_intr` after a good sector: the head advances by one sector, and ends
with its last one. The sector's bytes go to the buffer, not to the queue. -/
def readIntrAdvance (major : Nat) (io : Io β δ) : Option (Io β δ) := do
  let c ← io.currentRequest major
  let io := io.setRequest c (io.request c).advance
  if (io.request c).nrSectors ≠ 0 then return io
  else endRequest major true io

end Hios.BlkDrv
