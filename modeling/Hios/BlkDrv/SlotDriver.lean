import Hios.BlkDrv.SlotWait
import Hios.BlkDrv.Transfer
import Hios.Lib.Outcome

/-! The wait for a slot with the driver itself: `add_request` starts it, and `read_intr`
ends one request after the other. -/
namespace Hios.BlkDrv
open Hios.Fs Hios.Run Hios.Outcome
variable {τ β δ : Type} [DecidableEq τ] [DecidableEq β]

structure SlotDisk (τ β δ : Type) where
  slot : SlotWait τ β δ
  doHd : Bool
  reset : Bool

def SlotDisk.hd (s : SlotDisk τ β δ) : Hd β δ := ⟨s.slot.io, s.doHd, s.reset⟩

/-- What the driver leaves. `end_request` has called `wake_up(&wait_for_request)` if it was called
at all. -/
def SlotDisk.after (s : SlotDisk τ β δ) (ended : Bool) (hd : Hd β δ) : SlotDisk τ β δ :=
  ⟨{ s.slot with io := hd.io, wait := if ended then WaitQueue.wakeUp s.slot.wait else s.slot.wait },
    hd.doHd, hd.reset⟩

/-- `do_hd_request` refuses the current request. -/
def refuses (disk : Disk) (io : Io β δ) : Bool :=
  (io.currentRequest MAJOR_NR).any fun c =>
    5 * disk.nrHd ≤ minorOf (io.request c).dev ∨
      disk.nrSects (minorOf (io.request c).dev) < ((io.request c).sector + 2) % 2 ^ 32

inductive DiskAct (τ β : Type) where
  | call (t : τ) (rw : Nat) (b : β)
  | test (t : τ)
  | sleep (t : τ)
  | resume (t : τ)
  | fill (t : τ)
  /-- The disk has read a sector without an error. -/
  | interrupt

def SlotDisk.process (s : SlotDisk τ β δ) (slot : Option (SlotWait τ β δ)) :
    Option (SlotDisk τ β δ) :=
  slot.map fun slot => { s with slot := slot }

/-- `add_request` calls `do_hd_request` if the queue was empty. -/
def fillAndStart (disk : Disk) (t : τ) (s : SlotDisk τ β δ) : Option (SlotDisk τ β δ) := do
  let s' ← s.process (fillSlot t s.slot)
  if s.slot.io.currentRequest MAJOR_NR = none then
    let hd ← (doHdRequest disk true (NR_REQUEST + 1) s'.hd).toOption
    return s'.after (refuses disk s'.slot.io) hd
  else return s'

/-- `hd_interrupt`, with `do_hd` at `read_intr`. -/
def diskInterrupt (disk : Disk) (s : SlotDisk τ β δ) : Option (SlotDisk τ β δ) :=
  if s.doHd then do
    let c ← s.slot.io.currentRequest MAJOR_NR
    let hd ← (readIntr disk false true { s.hd with doHd := false }).toOption
    return s.after ((s.slot.io.request c).advance.nrSectors = 0) hd
  else none

def diskStep (disk : Disk) (initTask : τ) (s : SlotDisk τ β δ) :
    DiskAct τ β → Option (SlotDisk τ β δ)
  | .call t rw b => s.process (callMake t rw b s.slot)
  | .test t => s.process (testSlot t s.slot)
  | .sleep t => s.process (sleepForSlot initTask t s.slot)
  | .resume t => s.process (resumeScan t s.slot)
  | .fill t => fillAndStart disk t s
  | .interrupt => diskInterrupt disk s

def initSlotDisk (bh : β → BufferHead β δ) (request : Slot → Request β)
    (state : τ → WaitQueue.TaskState) : SlotDisk τ β δ :=
  ⟨initSlotWait bh request (fun m => m == MAJOR_NR) state, false, false⟩

section Refines
variable {disk : Disk} {initTask : τ} {s t : SlotDisk τ β δ}

omit [DecidableEq β] in
theorem wakeUp_wakeUp (q : WaitQueue.Queue τ) :
    WaitQueue.wakeUp (WaitQueue.wakeUp q) = WaitQueue.wakeUp q :=
  rfl

theorem endRequest_act {uptodate : Bool} {hd hd' : Hd β δ}
    (h : hdEndRequest uptodate hd = .ok hd') (r : SlotWait τ β δ) (hr : r.io = hd.io) :
    slotStep initTask r (.endRequest MAJOR_NR uptodate) =
      some { r with io := hd'.io, wait := WaitQueue.wakeUp r.wait } := by
  simp only [hdEndRequest] at h
  split at h
  · cases h
  · split at h
    · cases h
    · split at h
      · cases h
      · rename_i io hio
        obtain rfl := Except.ok.inj h
        have hmajor : MAJOR_NR < NR_BLK_DEV := by decide
        simp [slotStep, interruptEnds, hr, hio, hmajor]

theorem doHdRequest_acts (initTask : τ) {ready : Bool} {fuel : Nat} {hd hd' : Hd β δ}
    (h : doHdRequest disk ready fuel hd = .ok hd') (r : SlotWait τ β δ) (hr : r.io = hd.io) :
    ∃ as, run (slotStep initTask) r as = some { r with
      io := hd'.io, wait := if refuses disk hd.io then WaitQueue.wakeUp r.wait else r.wait } := by
  induction fuel generalizing hd r with
  | zero => simp [doHdRequest] at h
  | succ fuel ih =>
    rw [doHdRequest] at h
    cases hc : hd.current with
    | none =>
      rw [hc] at h
      obtain rfl := Except.ok.inj h
      have hnone : refuses disk hd.io = false := by
        simp [refuses, show hd.io.currentRequest MAJOR_NR = none from hc]
      exact ⟨[], by rw [run, hnone, ← hr]; rfl⟩
    | some c =>
      have hcur : hd.io.currentRequest MAJOR_NR = some c := hc
      rw [hc] at h
      simp only at h
      split_ifs at h with hmajor hlock hrefuse hdivide hwrite hread
      · obtain ⟨mid, hend, hrest⟩ := bind_eq_ok.mp h
        have hyes : refuses disk hd.io = true := by simpa [refuses, hcur] using hrefuse
        obtain ⟨as, has⟩ := ih hrest { r with io := mid.io, wait := WaitQueue.wakeUp r.wait } rfl
        refine ⟨.endRequest MAJOR_NR false :: as,
          run_cons_some.mpr ⟨_, endRequest_act hend r hr, has.trans ?_⟩⟩
        simp [hyes, wakeUp_wakeUp]
      · have hno : refuses disk hd.io = false := by simpa [refuses, hcur] using hrefuse
        obtain rfl := Except.ok.inj h
        exact ⟨[], by rw [run, hno, ← hr]; rfl⟩
      · have hno : refuses disk hd.io = false := by simpa [refuses, hcur] using hrefuse
        have hio : hd'.io = hd.io := by
          simp only [hdOut] at h
          split_ifs at h
          exact (Except.ok.inj h) ▸ rfl
        exact ⟨[], by rw [run, hno, hio, ← hr]; rfl⟩

theorem fillAndStart_acts {p : τ} (h : fillAndStart disk p s = some t) :
    ∃ as, run (slotStep initTask) s.slot as = some t.slot := by
  obtain ⟨s', hs', h⟩ := Option.bind_eq_some_iff.mp h
  obtain ⟨slot, hslot, rfl⟩ := Option.map_eq_some_iff.mp hs'
  have hfill : slotStep initTask s.slot (.fill p) = some slot := hslot
  split at h
  · obtain ⟨hd, hhd, h⟩ := Option.bind_eq_some_iff.mp h
    obtain rfl := Option.some.inj h
    obtain ⟨as, has⟩ := doHdRequest_acts initTask (toOption_eq_some.mp hhd) slot rfl
    exact ⟨.fill p :: as, run_cons_some.mpr ⟨slot, hfill, has⟩⟩
  · obtain rfl := Option.some.inj h
    exact ⟨[.fill p], run_cons_some.mpr ⟨slot, hfill, rfl⟩⟩

theorem diskInterrupt_acts (h : diskInterrupt disk s = some t) :
    ∃ as, run (slotStep initTask) s.slot as = some t.slot := by
  simp only [diskInterrupt] at h
  split at h
  · obtain ⟨c, hc, h⟩ := Option.bind_eq_some_iff.mp h
    obtain ⟨hd, hhd, h⟩ := Option.bind_eq_some_iff.mp h
    obtain rfl := Option.some.inj h
    have hread := toOption_eq_some.mp hhd
    let io := s.slot.io.setRequest c (s.slot.io.request c).advance
    have hsector : slotStep initTask s.slot (.sector MAJOR_NR) = some { s.slot with io := io } := by
      rw [slotStep, advanceCurrent, hc]
      rfl
    have hcur : Hd.current { s.hd with doHd := false } = some c := hc
    have hrequest : io.request c = (s.slot.io.request c).advance := by simp [io, Io.setRequest]
    simp only [readIntr, Bool.false_eq_true, if_false, hcur] at hread
    split_ifs at hread with hmore
    · have hleft : (s.slot.io.request c).advance.nrSectors ≠ 0 := hmore
      obtain rfl := Except.ok.inj hread
      refine ⟨[.sector MAJOR_NR], run_cons_some.mpr ⟨_, hsector, ?_⟩⟩
      simp [run, SlotDisk.after, hleft, io, SlotDisk.hd]
    · have hlast : (s.slot.io.request c).advance.nrSectors = 0 := not_not.mp hmore
      obtain ⟨mid, hend, hrest⟩ := bind_eq_ok.mp hread
      let r : SlotWait τ β δ := { s.slot with io := mid.io, wait := WaitQueue.wakeUp s.slot.wait }
      have hended : slotStep initTask { s.slot with io := io } (.endRequest MAJOR_NR true) =
        some r := endRequest_act hend _ rfl
      obtain ⟨as, has⟩ := doHdRequest_acts initTask hrest r rfl
      refine ⟨.sector MAJOR_NR :: .endRequest MAJOR_NR true :: as,
        run_cons_some.mpr ⟨_, hsector, run_cons_some.mpr ⟨r, hended, has.trans ?_⟩⟩⟩
      simp [r, SlotDisk.after, hlast, wakeUp_wakeUp]
  · cases h

/-- The driver takes no step that the interrupts of `slotStep` do not allow. -/
theorem diskStep_acts {a : DiskAct τ β} (h : diskStep disk initTask s a = some t) :
    ∃ as, run (slotStep initTask) s.slot as = some t.slot := by
  have hone : ∀ (b : SlotAct τ β), s.process (slotStep initTask s.slot b) = some t →
      ∃ as, run (slotStep initTask) s.slot as = some t.slot := by
    intro b hb
    obtain ⟨slot, hslot, rfl⟩ := Option.map_eq_some_iff.mp hb
    exact ⟨[b], run_cons_some.mpr ⟨slot, hslot, rfl⟩⟩
  cases a with
  | call p rw b => exact hone (.call p rw b) h
  | test p => exact hone (.test p) h
  | sleep p => exact hone (.sleep p) h
  | resume p => exact hone (.resume p) h
  | fill p => exact fillAndStart_acts h
  | interrupt => exact diskInterrupt_acts h

theorem disk_run_acts {as : List (DiskAct τ β)} (h : run (diskStep disk initTask) s as = some t) :
    ∃ bs, run (slotStep initTask) s.slot bs = some t.slot := by
  refine run_inv (P := fun u => ∃ bs, run (slotStep initTask) s.slot bs = some u.slot)
    ?_ ⟨[], rfl⟩ h
  rintro u a v ⟨bs, hbs⟩ hv
  obtain ⟨cs, hcs⟩ := diskStep_acts hv
  exact ⟨bs ++ cs, by rw [run_append, hbs]; exact hcs⟩

end Refines

def readBlock (k : Fin 32) : List (DiskAct (Fin 34) Nat) :=
  .call k.succ.castSucc READ k :: List.replicate (k + 1) (.test k.succ.castSucc) ++
    [.fill k.succ.castSucc]

/-- Process 33 finds every slot busy. Before it sleeps, the disk has read the 32 blocks. -/
def lateSleep : List (DiskAct (Fin 34) Nat) :=
  (List.finRange 32).flatMap readBlock ++ .call 33 READ 32 :: List.replicate 33 (.test 33) ++
    List.replicate 64 .interrupt ++ [.sleep 33]

def unreadHead (b : Nat) : BufferHead Nat Unit :=
  ⟨(), b, 0x301, false, false, 1, false, none, none, none, none⟩

def freeRequest (_ : Slot) : Request Nat := ⟨0, 0, 0, 0, 0, 0, none, none⟩

/-- A process sleeps for a slot, all slots are free, and nothing is in flight. -/
theorem wake_up_lost :
    ∃ s, run (diskStep oneDrive.toDisk 0) (initSlotDisk unreadHead freeRequest fun _ => .running)
      lateSleep = some s ∧
      AllFree s.slot.io ∧ WaitQueue.Asleep s.slot.wait 33 ∧
      ∃ as, run (slotStep 0) (initSlotWait unreadHead freeRequest (fun m => m == MAJOR_NR) fun _ =>
        .running) as = some s.slot := by
  have hrun : (run (diskStep oneDrive.toDisk 0)
    (initSlotDisk unreadHead freeRequest fun _ => .running) lateSleep).any
      (fun s => AllFree s.slot.io ∧ WaitQueue.Asleep s.slot.wait 33) := by decide +kernel
  obtain ⟨s, hs, hstuck⟩ := (Option.any_eq_true _ _).mp hrun
  obtain ⟨hfree, hasleep⟩ := of_decide_eq_true hstuck
  exact ⟨s, hs, hfree, hasleep, disk_run_acts hs⟩

end Hios.BlkDrv
