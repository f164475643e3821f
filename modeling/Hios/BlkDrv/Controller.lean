import Hios.BlkDrv.HardDisk
import Hios.Lib.Outcome
import Mathlib.Data.Nat.Bits

/-! `kernel/blk_drv/hd.c` together with the disk controller it programs: what
`hd_out` writes to the registers, the sectors the controller hands over one
interrupt at a time, and where `read_intr` puts them. -/
namespace Hios.BlkDrv
open Hios.Fs Hios.Outcome
variable {β : Type} [DecidableEq β]

abbrev Sector := Nat → BitVec 8

abbrev Block := Nat → BitVec 8

/-- `hd_info[]` and `hd[]` of `sys_setup`, which reads heads and sectors from bytes
and cylinders from 16-bit words, with every partition inside its drive. -/
structure Geometry extends Disk where
  cyl : Nat → Nat
  nrHd_le : nrHd ≤ 2
  head_lt : ∀ drive, head drive < 2 ^ 8
  sect_lt : ∀ drive, sect drive < 2 ^ 8
  cyl_lt : ∀ drive, cyl drive < 2 ^ 16
  inside : ∀ dev, dev < 5 * nrHd →
    startSect dev + nrSects dev ≤ cyl (dev / 5) * head (dev / 5) * sect (dev / 5)

/-- The registers of the controller from the sector count on, a byte each. -/
structure Registers where
  nsect : Nat
  sector : Nat
  lcyl : Nat
  hcyl : Nat
  current : Nat
  deriving DecidableEq

/-- The `outb_p` calls of `hd_out`. -/
def hdRegisters (drive nsect sect head cyl : Nat) : Registers :=
  { nsect := nsect % 256, sector := sect % 256, lcyl := cyl % 256, hcyl := cyl / 256 % 256
    current := (0xA0 ||| drive <<< 4 ||| head) % 256 }

/-- A READ command the controller is working on: the drive, its next sector counted
from the start of the drive, and how many are left. -/
structure Command where
  drive : Nat
  next : Nat
  left : Nat
  deriving DecidableEq

def Registers.command (disk : Disk) (r : Registers) : Command :=
  let drive := r.current / 16 % 2
  let head := r.current % 16
  let cyl := r.lcyl + 256 * r.hcyl
  { drive := drive, next := (cyl * disk.head drive + head) * disk.sect drive + (r.sector - 1)
    left := if r.nsect = 0 then 256 else r.nsect }

/-- A request that `end_request` has ended, with its buffer head just before. -/
structure Ended (β : Type) where
  request : Request β
  head : Option (BufferHead β Block)
  uptodate : Bool

/-- The driver, the controller's command, and the requests ended so far. -/
structure Drive (β : Type) where
  hd : Hd β Block
  command : Option Command
  ended : List (Ended β)

def Io.ended (io : Io β Block) (uptodate : Bool) (i : Slot) : Ended β :=
  ⟨io.request i, (io.request i).bh.map io.bh, uptodate⟩

def Drive.setIo (s : Drive β) (io : Io β Block) : Drive β := { s with hd := { s.hd with io := io } }

def Drive.endRequest (uptodate : Bool) (s : Drive β) : Except Fault (Drive β) := do
  let hd ← hdEndRequest uptodate s.hd
  return { s with
    hd := hd
    ended := s.ended ++ (s.hd.current.map (s.hd.io.ended uptodate)).toList }

def Drive.hdOut (disk : Disk) (drive nsect sect head cyl : Nat) (s : Drive β) :
    Except Fault (Drive β) :=
  do
  let hd ← BlkDrv.hdOut drive head true s.hd
  return { s with hd := hd, command := some ((hdRegisters drive nsect sect head cyl).command disk) }

def Drive.doHdRequest (disk : Disk) : Nat → Drive β → Except Fault (Drive β)
  | 0, _ => .error .looping
  | fuel + 1, s =>
    match s.hd.current with
    | none => .ok s
    | some c =>
      if majorOf (s.hd.io.request c).dev ≠ MAJOR_NR then .error .listDestroyed
      else if (s.hd.io.request c).bh.any fun b => ¬ (s.hd.io.bh b).bLock then .error .notLocked
      else
        let dev := minorOf (s.hd.io.request c).dev
        let block := (s.hd.io.request c).sector
        if 5 * disk.nrHd ≤ dev ∨ disk.nrSects dev < (block + 2) % 2 ^ 32 then do
          let s ← s.endRequest false
          Drive.doHdRequest disk fuel s
        else
          let block := (block + disk.startSect dev) % 2 ^ 32
          let drive := dev / 5
          if disk.sect drive = 0 ∨ disk.head drive = 0 then .error .divideError
          else
            let sec := block % disk.sect drive + 1
            let track := block / disk.sect drive
            let head := track % disk.head drive
            let cyl := track / disk.head drive
            if (s.hd.io.request c).cmd = WRITE then .ok s
            else if (s.hd.io.request c).cmd = READ then
              s.hdOut disk drive (s.hd.io.request c).nrSectors sec head cyl
            else .error .unknownCommand

/-- `bad_rw_inter`. When it has ended the last request of the queue, its second
comparison reads from the null `CURRENT` whatever lies there. -/
def Drive.badRwInter (nullErrors : Nat) (s : Drive β) : Except Fault (Drive β) :=
  match s.hd.current with
  | none => .error .nullRequest
  | some c => do
    let r := { s.hd.io.request c with errors := (s.hd.io.request c).errors + 1 }
    let s := s.setIo (s.hd.io.setRequest c r)
    let s ← if MAX_ERRORS ≤ r.errors then s.endRequest false else .ok s
    let errors := match s.hd.current with
      | none => nullErrors
      | some c => (s.hd.io.request c).errors
    return { s with hd := { s.hd with reset := s.hd.reset || decide (MAX_ERRORS / 2 < errors) } }

def Io.portRead (io : Io β Block) (c : Slot) (sector : Sector) : Io β Block :=
  match (io.request c).bh with
  | none => io
  | some b =>
    let at' := (io.request c).buffer
    io.setBh b { io.bh b with
      bData := fun k => if at' ≤ k ∧ k < at' + 512 then sector (k - at') else (io.bh b).bData k }

/-- `read_intr`: `none` is an error that `win_result()` finds, otherwise the sector
is at `HD_DATA`. -/
def Drive.readIntr (disk : Disk) (nullErrors : Nat) (result : Option Sector) (s : Drive β) :
    Except Fault (Drive β) :=
  match result with
  | none => do
    let s ← s.badRwInter nullErrors
    s.doHdRequest disk (NR_REQUEST + 1)
  | some sector =>
    match s.hd.current with
    | none => .error .nullRequest
    | some c => do
      let s := s.setIo (s.hd.io.portRead c sector)
      let r := (s.hd.io.request c).advance
      let s := s.setIo (s.hd.io.setRequest c r)
      if r.nrSectors ≠ 0 then .ok { s with hd := { s.hd with doHd := true } }
      else
        let s ← s.endRequest true
        s.doHdRequest disk (NR_REQUEST + 1)

def Command.after (c : Command) (good : Bool) : Option Command :=
  if good ∧ 1 < c.left then some { c with next := c.next + 1, left := c.left - 1 } else none

/-- An interrupt for the command `cmd`. `hd_interrupt` takes `do_hd` and clears it. -/
def Drive.interrupt (disk : Disk) (sectors : Nat → Nat → Sector) (nullErrors : Nat) (good : Bool)
    (cmd : Command) (s : Drive β) : Except Fault (Drive β) :=
  let t := { s with command := cmd.after good, hd := { s.hd with doHd := false } }
  if s.hd.doHd then t.readIntr disk nullErrors
    (if good then some (sectors cmd.drive cmd.next) else none)
  else .ok t

def Drive.makeRequest (disk : Disk) (req : Slot) (b : β) (s : Drive β) : Except Fault (Drive β) :=
  let io := s.hd.io.setBh b { s.hd.io.bh b with bLock := true }
  let io := fillRequest req (io.bh b).bDev READ (io.bh b).bBlocknr (some b) io
  match addRequest MAJOR_NR req io with
  | none => .error .looping
  | some io =>
    if s.hd.current = none then (s.setIo io).doHdRequest disk (NR_REQUEST + 1) else .ok (s.setIo io)

inductive DriveAct (β : Type) where
  | read (req : Slot) (b : β)
  | interrupt (good : Bool)
  /-- Other code of the kernel works on a buffer that is not locked. -/
  | touch (b : β) (h : BufferHead β Block)

/-- Reads are for unlocked buffers of the hard disk that are not up to date, with a free
slot; interrupts come while the controller works. -/
def driveEnabled (s : Drive β) : DriveAct β → Prop
  | .read req b => findRequest s.hd.io.request READ = some req ∧ (s.hd.io.bh b).bLock = false ∧
      (s.hd.io.bh b).bUptodate = false ∧ majorOf (s.hd.io.bh b).bDev = MAJOR_NR ∧
      (s.hd.io.bh b).bBlocknr + 1 < 2 ^ 30
  | .interrupt _ => s.command.isSome
  | .touch b h => (s.hd.io.bh b).bLock = false ∧ h.bLock = false

instance (s : Drive β) : DecidablePred (driveEnabled s)
  | .read req b => inferInstanceAs (Decidable (findRequest s.hd.io.request READ = some req ∧
      (s.hd.io.bh b).bLock = false ∧ (s.hd.io.bh b).bUptodate = false ∧
      majorOf (s.hd.io.bh b).bDev = MAJOR_NR ∧ (s.hd.io.bh b).bBlocknr + 1 < 2 ^ 30))
  | .interrupt _ => inferInstanceAs (Decidable (s.command.isSome = true))
  | .touch b h => inferInstanceAs (Decidable ((s.hd.io.bh b).bLock = false ∧ h.bLock = false))

def drivePerform (disk : Disk) (sectors : Nat → Nat → Sector) (nullErrors : Nat) (s : Drive β) :
    DriveAct β → Except Fault (Drive β)
  | .read req b => s.makeRequest disk req b
  | .interrupt good => match s.command with
    | none => .ok s
    | some cmd => s.interrupt disk sectors nullErrors good cmd
  | .touch b h => .ok (s.setIo (s.hd.io.setBh b h))

/-- A panic ends the run. -/
def driveStep (disk : Disk) (sectors : Nat → Nat → Sector) (nullErrors : Nat) (s : Drive β)
    (a : DriveAct β) : Option (Drive β) :=
  if driveEnabled s a then (drivePerform disk sectors nullErrors s a).toOption else none

def initDrive (bh : β → BufferHead β Block) (request : Slot → Request β) : Drive β :=
  { hd := (initBlk (π := Unit) bh request).hd, command := none, ended := [] }

theorem Drive.endRequest_hd (uptodate : Bool) (s : Drive β) :
    (s.endRequest uptodate).map Drive.hd = hdEndRequest uptodate s.hd := by
  unfold Drive.endRequest
  cases hdEndRequest uptodate s.hd with
  | error e => rfl
  | ok hd => rfl

omit [DecidableEq β] in
theorem Drive.hdOut_hd (disk : Disk) (drive nsect sect head cyl : Nat) (s : Drive β) :
    (s.hdOut disk drive nsect sect head cyl).map Drive.hd = BlkDrv.hdOut drive head true s.hd := by
  unfold Drive.hdOut
  cases BlkDrv.hdOut drive head true s.hd with
  | error e => rfl
  | ok hd => rfl

theorem Drive.doHdRequest_hd (disk : Disk) (fuel : Nat) (s : Drive β) :
    (s.doHdRequest disk fuel).map Drive.hd = BlkDrv.doHdRequest disk true fuel s.hd := by
  induction fuel generalizing s with
  | zero => rfl
  | succ fuel ih =>
    unfold Drive.doHdRequest BlkDrv.doHdRequest
    cases hc : s.hd.current with
    | none => rfl
    | some c =>
      dsimp only
      split
      · rfl
      split
      · rfl
      split
      · rw [← Drive.endRequest_hd]
        cases s.endRequest false with
        | error e => rfl
        | ok t => exact ih t
      split
      · rfl
      split
      · rfl
      split
      · exact Drive.hdOut_hd ..
      · rfl

end Hios.BlkDrv
