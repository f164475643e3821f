import Hios.BlkDrv.Request

/-! `kernel/blk_drv/hd.c`, and `ll_rw_block` as steps between which a process may
sleep or the disk may interrupt. -/
namespace Hios.BlkDrv
open Hios.Fs
variable {β δ π : Type} [DecidableEq β]

def MAJOR_NR : Nat := 3
def MAX_ERRORS : Nat := 7
def NR_BLK_DEV : Nat := 7

def majorOf (dev : Int) : Nat := (dev % 2 ^ 32).toNat / 256

def minorOf (dev : Int) : Nat := (dev % 256).toNat

structure Disk where
  nrHd : Nat
  head : Nat → Nat
  sect : Nat → Nat
  startSect : Nat → Nat
  nrSects : Nat → Nat

inductive Fault where
  /-- A null `CURRENT` is followed. -/
  | nullRequest
  /-- "harddisk: request list destroyed" -/
  | listDestroyed
  /-- "harddisk: block not locked" -/
  | notLocked
  /-- "unknown hd-command" -/
  | unknownCommand
  /-- "buffer not locked" and "free buffer being unlocked", which are warnings. -/
  | unlocked
  /-- "Bad block dev command, must be R/W/RA/WA" -/
  | badCommand
  /-- "Trying to write bad sector" -/
  | badSector
  /-- "HD controller not ready" -/
  | notReady
  | divideError
  /-- The loop of `do_hd_request` has not ended. -/
  | looping
  deriving DecidableEq

/-- What the driver works on; `doHd` is whether `do_hd` points at `read_intr`. -/
structure Hd (β δ : Type) where
  io : Io β δ
  doHd : Bool
  reset : Bool

def Hd.current (s : Hd β δ) : Option Slot := s.io.currentRequest MAJOR_NR

/-- `unlock_buffer`, with its warning. -/
def unlockChecked (b : β) (io : Io β δ) : Except Fault (Io β δ) :=
  if (io.bh b).bLock then .ok (unlockBuffer b io) else .error .unlocked

/-- `end_request` of `blk.h` for the hard disk. -/
def hdEndRequest (uptodate : Bool) (s : Hd β δ) : Except Fault (Hd β δ) :=
  match s.current with
  | none => .error .nullRequest
  | some c =>
    if (s.io.request c).bh.any fun b => ¬ (s.io.bh b).bLock then .error .unlocked
    else
      match endRequest MAJOR_NR uptodate s.io with
      | none => .error .nullRequest
      | some io => .ok { s with io := io }

def hdOut (drive head : Nat) (ready : Bool) (s : Hd β δ) : Except Fault (Hd β δ) :=
  if 1 < drive ∨ 15 < head then .error .badSector
  else if ¬ ready then .error .notReady
  else .ok { s with doHd := true }

/-- `do_hd_request`. What it would do to write, reset or recalibrate is still to be
written in the source. `ready` is what `controller_ready()` finds. -/
def doHdRequest (disk : Disk) (ready : Bool) : Nat → Hd β δ → Except Fault (Hd β δ)
  | 0, _ => .error .looping
  | fuel + 1, s =>
    match s.current with
    | none => .ok s
    | some c =>
      if majorOf (s.io.request c).dev ≠ MAJOR_NR then .error .listDestroyed
      else if (s.io.request c).bh.any fun b => ¬ (s.io.bh b).bLock then .error .notLocked
      else
        let dev := minorOf (s.io.request c).dev
        let block := (s.io.request c).sector
        if 5 * disk.nrHd ≤ dev ∨ disk.nrSects dev < (block + 2) % 2 ^ 32 then do
          let s ← hdEndRequest false s
          doHdRequest disk ready fuel s
        else
          let block := (block + disk.startSect dev) % 2 ^ 32
          let drive := dev / 5
          if disk.sect drive = 0 ∨ disk.head drive = 0 then .error .divideError
          else if (s.io.request c).cmd = WRITE then .ok s
          else if (s.io.request c).cmd = READ then
            hdOut drive (block / disk.sect drive % disk.head drive) ready s
          else .error .unknownCommand

def badRwInter (s : Hd β δ) : Except Fault (Hd β δ) :=
  match s.current with
  | none => .error .nullRequest
  | some c => do
    let r := { s.io.request c with errors := (s.io.request c).errors + 1 }
    let s := { s with io := s.io.setRequest c r }
    let s ← if MAX_ERRORS ≤ r.errors then hdEndRequest false s else .ok s
    match s.current with
    | none => .error .nullRequest
    | some c => .ok { s with reset := s.reset || decide (MAX_ERRORS / 2 < (s.io.request c).errors) }

def readIntr (disk : Disk) (bad ready : Bool) (s : Hd β δ) : Except Fault (Hd β δ) :=
  if bad then do
    let s ← badRwInter s
    doHdRequest disk ready (NR_REQUEST + 1) s
  else
    match s.current with
    | none => .error .nullRequest
    | some c => do
      let r := (s.io.request c).advance
      let s := { s with io := s.io.setRequest c r }
      if r.nrSectors ≠ 0 then .ok { s with doHd := true }
      else
        let s ← hdEndRequest true s
        doHdRequest disk ready (NR_REQUEST + 1) s

/-- Where a process is inside `ll_rw_block`: before `lock_buffer` has got the lock,
after it, searching the table, or with a slot filled and not yet added. -/
inductive Pc (β : Type) where
  | outside
  | locking (rw : Nat) (ahead : Bool) (b : β)
  | locked (rw : Nat) (ahead : Bool) (b : β)
  | searching (rw : Nat) (ahead : Bool) (b : β)
  | filled (req : Slot) (b : β)

def Pc.isOutside : Pc β → Bool
  | .outside => true
  | _ => false

def Pc.buffer : Pc β → Option β
  | .outside => none
  | .locking _ _ _ => none
  | .locked _ _ b => some b
  | .searching _ _ b => some b
  | .filled _ b => some b

def Pc.slot : Pc β → Option Slot
  | .filled req _ => some req
  | _ => none

structure Blk (π β δ : Type) where
  hd : Hd β δ
  pc : π → Pc β

variable [DecidableEq π]

def Blk.setPc (s : Blk π β δ) (p : π) (pc : Pc β) : Blk π β δ :=
  { s with pc := Function.update s.pc p pc }

def Blk.setIo (s : Blk π β δ) (io : Io β δ) : Blk π β δ := { s with hd := { s.hd with io := io } }

def llRwBlock (p : π) (rw : Nat) (b : β) (s : Blk π β δ) : Except Fault (Blk π β δ) :=
  let major := majorOf (s.hd.io.bh b).bDev
  if NR_BLK_DEV ≤ major ∨ ¬ s.hd.io.requestFn major then .ok s
  else
    let ahead := decide (rw = READA ∨ rw = WRITEA)
    if ahead ∧ (s.hd.io.bh b).bLock then .ok s
    else
      let rw := if ahead then (if rw = READA then READ else WRITE) else rw
      if rw ≠ READ ∧ rw ≠ WRITE then .error .badCommand
      else .ok (s.setPc p (.locking rw ahead b))

def lockBuffer (p : π) (rw : Nat) (ahead : Bool) (b : β) (s : Blk π β δ) : Blk π β δ :=
  if (s.hd.io.bh b).bLock then s
  else (s.setIo (s.hd.io.setBh b { s.hd.io.bh b with bLock := true })).setPc p (.locked rw ahead b)

def needless (rw : Nat) (h : BufferHead β δ) : Prop :=
  (rw = WRITE ∧ ¬ h.bDirt) ∨ (rw = READ ∧ h.bUptodate)

instance (rw : Nat) (h : BufferHead β δ) : Decidable (needless rw h) :=
  inferInstanceAs (Decidable (_ ∨ _))

def checkBuffer (p : π) (rw : Nat) (ahead : Bool) (b : β) (s : Blk π β δ) :
    Except Fault (Blk π β δ) :=
  if needless rw (s.hd.io.bh b) then do
    let io ← unlockChecked b s.hd.io
    return (s.setIo io).setPc p .outside
  else .ok (s.setPc p (.searching rw ahead b))

def searchEnd (rw : Nat) : Nat := if rw = READ then NR_REQUEST else NR_REQUEST * 2 / 3

/-- `while (--req >= request) if (req->dev < 0) break`. -/
def findRequest (request : Slot → Request β) (rw : Nat) : Option Slot :=
  (List.finRange NR_REQUEST).reverse.find? fun i => i.val < searchEnd rw ∧ (request i).dev < 0

/-- From `repeat` on: a slot is found and filled, or the process gives up or sleeps. -/
def searchRequest (p : π) (rw : Nat) (ahead : Bool) (b : β) (s : Blk π β δ) :
    Except Fault (Blk π β δ) :=
  match findRequest s.hd.io.request rw with
  | some req =>
    .ok ((s.setIo (fillRequest req (s.hd.io.bh b).bDev rw (s.hd.io.bh b).bBlocknr
      (some b) s.hd.io)).setPc p
      (.filled req b))
  | none =>
    if ahead then do
      let io ← unlockChecked b s.hd.io
      return (s.setIo io).setPc p .outside
    else .ok s

/-- `add_request`, which starts the driver when the queue was empty. -/
def addAndStart (disk : Disk) (ready : Bool) (req : Slot) (hd : Hd β δ) : Except Fault (Hd β δ) :=
  match addRequest MAJOR_NR req hd.io with
  | none => .error .looping
  | some io =>
    if hd.current = none then doHdRequest disk ready (NR_REQUEST + 1) { hd with io := io }
    else .ok { hd with io := io }

inductive BlkAct (π β δ : Type) where
  | call (p : π) (rw : Nat) (b : β)
  /-- The process goes on from where it is. -/
  | go (p : π) (ready : Bool)
  | interrupt (bad ready : Bool)
  /-- Other code of the kernel changes a buffer head, but not its lock. -/
  | touch (b : β) (h : BufferHead β δ)

/-- One step of process `p` inside `ll_rw_block`. -/
def goOn (disk : Disk) (p : π) (ready : Bool) (s : Blk π β δ) : Except Fault (Blk π β δ) :=
  match s.pc p with
  | .outside => .ok s
  | .locking rw ahead b => .ok (lockBuffer p rw ahead b s)
  | .locked rw ahead b => checkBuffer p rw ahead b s
  | .searching rw ahead b => searchRequest p rw ahead b s
  | .filled req _ => do
    let hd ← addAndStart disk ready req s.hd
    return { s with hd := hd }.setPc p .outside

/-- Calls come from processes outside, name one of the four commands and a buffer of
the hard disk; interrupts come while a command is outstanding. -/
def blkEnabled (s : Blk π β δ) : BlkAct π β δ → Prop
  | .call p rw b => (s.pc p).isOutside ∧ rw ≤ WRITEA ∧ majorOf (s.hd.io.bh b).bDev = MAJOR_NR
  | .go _ _ => True
  | .interrupt _ _ => s.hd.doHd
  | .touch b h => h.bLock = (s.hd.io.bh b).bLock ∧ majorOf h.bDev = MAJOR_NR

instance (s : Blk π β δ) : DecidablePred (blkEnabled s)
  | .call p rw b => inferInstanceAs
      (Decidable ((s.pc p).isOutside ∧ rw ≤ WRITEA ∧ majorOf (s.hd.io.bh b).bDev = MAJOR_NR))
  | .go _ _ => inferInstanceAs (Decidable True)
  | .interrupt _ _ => inferInstanceAs (Decidable (s.hd.doHd = true))
  | .touch b h =>
    inferInstanceAs (Decidable (h.bLock = (s.hd.io.bh b).bLock ∧ majorOf h.bDev = MAJOR_NR))

def blkPerform (disk : Disk) (s : Blk π β δ) : BlkAct π β δ → Except Fault (Blk π β δ)
  | .call p rw b => llRwBlock p rw b s
  | .go p ready => goOn disk p ready s
  | .interrupt bad ready =>
    (readIntr disk bad ready { s.hd with doHd := false }).map fun hd => { s with hd := hd }
  | .touch b h => .ok (s.setIo (s.hd.io.setBh b h))

def blkStep (disk : Disk) (s : Blk π β δ) (a : BlkAct π β δ) : Option (Blk π β δ) :=
  if blkEnabled s a then (blkPerform disk s a).toOption else none

def initBlk (bh : β → BufferHead β δ) (request : Slot → Request β) : Blk π β δ :=
  { hd := { io := blkDevInit ⟨fun b => { bh b with bLock := false }, request, fun _ => none,
    fun m => m == MAJOR_NR⟩
            doHd := false, reset := false }
    pc := fun _ => .outside }

end Hios.BlkDrv
