import Hios.BlkDrv.HardDisk
import Hios.BlkDrv.QueueShape
import Hios.Kernel.WaitQueue
import Hios.Lib.Run

/-! Waiting for a slot of the request table: the scan of `make_request` slot by
slot, its `sleep_on(&wait_for_request)`, and the interrupts in between. The
kernel is not preempted, so only interrupts come between two steps of a process
that does not sleep. -/
namespace Hios.BlkDrv
open Hios.Fs Hios.Run
variable {τ β δ : Type} [DecidableEq τ] [DecidableEq β]

inductive ScanAt where
  /-- With the slots still to be tested. -/
  | test (left : List Slot)
  /-- `req < request`, and not `rw_ahead`. -/
  | full
  | asleep
  | found (req : Slot)
  deriving DecidableEq

structure MakeCall (β : Type) where
  major : Nat
  rw : Nat
  ahead : Bool
  bh : β
  pos : ScanAt

/-- `wait` is `wait_for_request` with the states of the tasks, `current` the process
inside `make_request` that is running. -/
structure SlotWait (τ β δ : Type) where
  io : Io β δ
  wait : WaitQueue.Queue τ
  current : Option τ
  call : τ → Option (MakeCall β)

inductive SlotAct (τ β : Type) where
  | call (t : τ) (rw : Nat) (b : β)
  | test (t : τ)
  | sleep (t : τ)
  | resume (t : τ)
  | fill (t : τ)
  /-- The driver for `major` has read a sector, and more are to come or `end_request` is next. -/
  | sector (major : Nat)
  | endRequest (major : Nat) (uptodate : Bool)

def scanSlots (rw : Nat) : List Slot :=
  ((List.finRange NR_REQUEST).filter fun i => i.val < searchEnd rw).reverse

def SlotWait.move (s : SlotWait τ β δ) (t : τ) (c : MakeCall β) (pos : ScanAt) : SlotWait τ β δ :=
  { s with call := Function.update s.call t (some { c with pos := pos }) }

def SlotWait.leave (s : SlotWait τ β δ) (t : τ) (io : Io β δ) : SlotWait τ β δ :=
  { s with io := io, current := none, call := Function.update s.call t none }

def plainCommand (rw : Nat) : Nat :=
  if rw = READA ∨ rw = WRITEA then (if rw = READA then READ else WRITE) else rw

/-- `ll_rw_block` and `make_request` up to `repeat`. A process that waits in
`lock_buffer` has not called yet. -/
def callMake (t : τ) (rw : Nat) (b : β) (s : SlotWait τ β δ) : Option (SlotWait τ β δ) :=
  if s.current = none ∧ s.call t = none ∧ s.wait.state t = .running then
    let major := majorOf (s.io.bh b).bDev
    if NR_BLK_DEV ≤ major ∨ ¬ s.io.requestFn major then some s
    else
      let ahead := decide (rw = READA ∨ rw = WRITEA)
      let rw := plainCommand rw
      if ahead ∧ (s.io.bh b).bLock then some s
      else if rw ≠ READ ∧ rw ≠ WRITE then none
      else if (s.io.bh b).bLock then none
      else if needless rw (s.io.bh b) then some s
      else
        some ({ s with
          io := s.io.setBh b { s.io.bh b with bLock := true }
          current := some t }.move t ⟨major, rw, ahead, b, .full⟩ (.test (scanSlots rw)))
  else none

/-- One turn of `while (--req >= request)`. -/
def testSlot (t : τ) (s : SlotWait τ β δ) : Option (SlotWait τ β δ) := do
  let c ← s.call t
  if s.current = some t then
    match c.pos with
    | .test [] =>
      if c.ahead then some (s.leave t (unlockBuffer c.bh s.io)) else some (s.move t c .full)
    | .test (req :: left) =>
      if (s.io.request req).dev < 0 then some (s.move t c (.found req))
        else some (s.move t c (.test left))
    | _ => none
  else none

/-- `sleep_on(&wait_for_request)` up to `schedule()`. -/
def sleepForSlot (initTask t : τ) (s : SlotWait τ β δ) : Option (SlotWait τ β δ) := do
  let c ← s.call t
  if s.current = some t ∧ c.pos = .full then
    let wait ← WaitQueue.enter initTask .sleepOn t s.wait
    return { s with wait := wait, current := none }.move t c .asleep
  else none

/-- The rest of `sleep_on`, and `goto repeat`. -/
def resumeScan (t : τ) (s : SlotWait τ β δ) : Option (SlotWait τ β δ) := do
  let c ← s.call t
  if s.current = none ∧ c.pos = .asleep then
    let wait ← WaitQueue.resume t s.wait
    return { s with wait := wait, current := some t }.move t c (.test (scanSlots c.rw))
  else none

def fillSlot (t : τ) (s : SlotWait τ β δ) : Option (SlotWait τ β δ) := do
  let c ← s.call t
  match c.pos with
  | .found req =>
    if s.current = some t then
      let h := s.io.bh c.bh
      let io ← addRequest c.major req (fillRequest req h.bDev c.rw h.bBlocknr (some c.bh) s.io)
      return s.leave t io
    else none
  | _ => none

/-- `end_request` of the driver for `major`, with its `wake_up(&wait_for_request)`. -/
def interruptEnds (major : Nat) (uptodate : Bool) (s : SlotWait τ β δ) : Option (SlotWait τ β δ) :=
  if major < NR_BLK_DEV then
    (endRequest major uptodate s.io).map fun io =>
      { s with io := io, wait := WaitQueue.wakeUp s.wait }
  else none

/-- What `read_intr` writes into the request that it serves. -/
def advanceCurrent (major : Nat) (s : SlotWait τ β δ) : Option (SlotWait τ β δ) :=
  (s.io.currentRequest major).map fun c =>
    { s with io := s.io.setRequest c (s.io.request c).advance }

def slotStep (initTask : τ) (s : SlotWait τ β δ) : SlotAct τ β → Option (SlotWait τ β δ)
  | .call t rw b => callMake t rw b s
  | .test t => testSlot t s
  | .sleep t => sleepForSlot initTask t s
  | .resume t => resumeScan t s
  | .fill t => fillSlot t s
  | .sector major => advanceCurrent major s
  | .endRequest major uptodate => interruptEnds major uptodate s

/-- After `blk_dev_init`, with nobody inside `make_request`. -/
def initSlotWait (bh : β → BufferHead β δ) (request : Slot → Request β) (requestFn : Nat → Bool)
    (state : τ → WaitQueue.TaskState) : SlotWait τ β δ :=
  { io := blkDevInit ⟨bh, request, fun _ => none, requestFn⟩
    wait := WaitQueue.empty state
    current := none
    call := fun _ => none }

def AllFree (io : Io β δ) : Prop :=
  (∀ i, (io.request i).dev < 0) ∧ ∀ major < NR_BLK_DEV, io.currentRequest major = none

instance (io : Io β δ) : Decidable (AllFree io) := inferInstanceAs (Decidable (_ ∧ _))

/-- Nobody sleeps for a slot while all are free. -/
def NoLostWakeUp (s : SlotWait τ β δ) : Prop := AllFree s.io → ∀ t, ¬ WaitQueue.Asleep s.wait t

def LastInFlight (io : Io β δ) (major : Nat) : Prop :=
  ∀ c ∈ io.currentRequest major, (∀ i, i ≠ c → (io.request i).dev < 0) ∧ io.next c = none ∧
    ∀ m < NR_BLK_DEV, m ≠ major → io.currentRequest m = none

/-- A process goes to sleep only while a request is in flight, and when the last one
ends nobody sleeps but the head of the queue. -/
def KeepsWakeUps (s : SlotWait τ β δ) : SlotAct τ β → Prop
  | .sleep _ => ¬ AllFree s.io
  | .endRequest major _ =>
    LastInFlight s.io major → ∀ t, WaitQueue.Asleep s.wait t → s.wait.p = some t
  | _ => True

def OnlySleepOn (q : WaitQueue.Queue τ) : Prop := ∀ t f, q.frame t = some f → f.kind = .sleepOn

omit [DecidableEq τ] [DecidableEq β] in
theorem NoLostWakeUp.mono {s r : SlotWait τ β δ} (h : NoLostWakeUp s)
    (hio : AllFree r.io → AllFree s.io)
    (hwait : ∀ t, WaitQueue.Asleep r.wait t → WaitQueue.Asleep s.wait t) : NoLostWakeUp r :=
  fun hfree t ht => h (hio hfree) t (hwait t ht)

theorem callMake_keeps {t : τ} {rw : Nat} {b : β} {s r : SlotWait τ β δ}
    (h : callMake t rw b s = some r) :
    r.wait = s.wait ∧ (AllFree r.io → AllFree s.io) := by
  simp only [callMake] at h
  split at h
  · split at h
    · exact Option.some.inj h ▸ ⟨rfl, id⟩
    · split at h
      · exact Option.some.inj h ▸ ⟨rfl, id⟩
      · split at h
        · simp at h
        · split at h
          · simp at h
          · split at h
            · exact Option.some.inj h ▸ ⟨rfl, id⟩
            · exact Option.some.inj h ▸ ⟨rfl, id⟩
  · simp at h

theorem testSlot_keeps {t : τ} {s r : SlotWait τ β δ} (h : testSlot t s = some r) :
    r.wait = s.wait ∧ (AllFree r.io → AllFree s.io) := by
  obtain ⟨c, hc, h⟩ := Option.bind_eq_some_iff.mp h
  split at h
  · split at h
    · split at h
      · exact Option.some.inj h ▸ ⟨rfl, id⟩
      · exact Option.some.inj h ▸ ⟨rfl, id⟩
    · split at h
      · exact Option.some.inj h ▸ ⟨rfl, id⟩
      · exact Option.some.inj h ▸ ⟨rfl, id⟩
    · simp at h
  · simp at h

omit [DecidableEq β] in
theorem sleepForSlot_eq {initTask t : τ} {s r : SlotWait τ β δ}
    (h : sleepForSlot initTask t s = some r) :
    r.wait = WaitQueue.push .sleepOn t s.wait ∧ r.io = s.io := by
  obtain ⟨c, hc, h⟩ := Option.bind_eq_some_iff.mp h
  split at h
  · obtain ⟨wait, hwait, h⟩ := Option.bind_eq_some_iff.mp h
    obtain rfl := Option.some.inj h
    simp only [WaitQueue.enter] at hwait
    split at hwait
    · simp at hwait
    · split at hwait
      · exact ⟨(Option.some.inj hwait).symm, rfl⟩
      · simp at hwait
  · simp at h

omit [DecidableEq β] in
theorem resumeScan_eq {t : τ} {s r : SlotWait τ β δ} (hq : OnlySleepOn s.wait)
    (h : resumeScan t s = some r) :
    ∃ tmp, r.wait = WaitQueue.restore t tmp s.wait ∧ r.io = s.io := by
  obtain ⟨c, hc, h⟩ := Option.bind_eq_some_iff.mp h
  split at h
  · obtain ⟨wait, hwait, h⟩ := Option.bind_eq_some_iff.mp h
    obtain rfl := Option.some.inj h
    cases hf : s.wait.frame t with
    | none => simp [WaitQueue.resume, hf] at hwait
    | some f =>
      have hk : f.kind = .sleepOn := hq t f hf
      simp only [WaitQueue.resume, hf, hk] at hwait
      split at hwait
      · exact ⟨f.tmp, (Option.some.inj hwait).symm, rfl⟩
      · simp at hwait
  · simp at h

omit [DecidableEq τ] in
theorem addRequest_dev {io io' : Io β δ} {major : Nat} {req : Slot}
    (h : addRequest major req io = some io') (i : Slot) :
    (io'.request i).dev = (io.request i).dev := by
  have hset : ∀ (k : Io β δ) (j : Slot) (r : Request β), r.dev = (k.request j).dev →
      ((k.setRequest j r).request i).dev = (k.request i).dev := by
    intro k j r hr
    by_cases hi : i = j
    · simp [Io.setRequest, hi, hr]
    · simp [Io.setRequest, hi]
  simp only [addRequest] at h
  split at h
  · rw [← Option.some.inj h]
    change ((Io.cleanBh _ _).request i).dev = _
    rw [cleanBh_request]
    exact hset _ _ _ rfl
  · obtain ⟨tmp, -, rfl⟩ := Option.map_eq_some_iff.mp h
    have hlink : ∀ k : Io β δ, ((k.linkAfter tmp req).request i).dev = (k.request i).dev := by
      intro k
      refine (hset _ tmp _ ?_).trans (hset k req _ ?_)
      · rfl
      · rfl
    rw [hlink, cleanBh_request]
    exact hset _ _ _ rfl

theorem fillSlot_eq {t : τ} {s r : SlotWait τ β δ} (h : fillSlot t s = some r) :
    r.wait = s.wait ∧ ¬ AllFree r.io := by
  obtain ⟨c, hc, h⟩ := Option.bind_eq_some_iff.mp h
  split at h
  · rename_i req hpos
    split at h
    · obtain ⟨io, hio, h⟩ := Option.bind_eq_some_iff.mp h
      obtain rfl := Option.some.inj h
      refine ⟨rfl, fun hfree => ?_⟩
      have hdev : (io.request req).dev < 0 := hfree.1 req
      rw [addRequest_dev hio] at hdev
      simp only [fillRequest, Io.setRequest, Function.update_self] at hdev
      omega
    · simp at h
  · simp at h

omit [DecidableEq τ] in
/-- The table is free after `end_request` if the request was the last one. -/
theorem allFree_endRequest_iff {io io' : Io β δ} {major : Nat} {uptodate : Bool}
    (hmajor : major < NR_BLK_DEV) (h : endRequest major uptodate io = some io') :
    AllFree io' ↔ LastInFlight io major := by
  cases hc : io.currentRequest major with
  | none => simp [endRequest, hc] at h
  | some c =>
    obtain ⟨k, hk, hreq, hcur⟩ := endRequest_eq uptodate hc
    obtain rfl : k = io' := Option.some.inj (hk.symm.trans h)
    simp only [AllFree, LastInFlight, hc, hreq, hcur, Option.mem_def, Option.some.injEq, forall_eq']
    constructor
    · rintro ⟨hdev, hnone⟩
      refine ⟨fun i hi => by simpa [hi] using hdev i, by simpa using hnone major hmajor,
        fun m hm hne => ?_⟩
      simpa [hne] using hnone m hm
    · rintro ⟨hdev, hnext, hnone⟩
      refine ⟨fun i => ?_, fun m hm => ?_⟩
      · by_cases hi : i = c
        · simp [hi]
        · simpa [hi] using hdev i hi
      · by_cases hne : m = major
        · simpa [hne] using hnext
        · simpa [hne] using hnone m hm hne

omit [DecidableEq β] in
theorem asleep_wakeUp {q : WaitQueue.Queue τ} {t : τ} :
    WaitQueue.Asleep (WaitQueue.wakeUp q) t ↔ WaitQueue.Asleep q t ∧ q.p ≠ some t := by
  simp only [WaitQueue.Asleep, WaitQueue.wakeUp, ne_eq, WaitQueue.setRunning_eq_running, not_or]
  tauto

omit [DecidableEq τ] [DecidableEq β] in
theorem advanceCurrent_keeps {major : Nat} {s r : SlotWait τ β δ}
    (h : advanceCurrent major s = some r) :
    r.wait = s.wait ∧ (AllFree r.io ↔ AllFree s.io) := by
  obtain ⟨c, -, rfl⟩ := Option.map_eq_some_iff.mp h
  refine ⟨rfl, and_congr (forall_congr' fun i => ?_) Iff.rfl⟩
  by_cases hi : i = c
  · simp [Io.setRequest, Request.advance, hi]
  · simp [Io.setRequest, hi]

theorem onlySleepOn_step {initTask : τ} {s r : SlotWait τ β δ} {a : SlotAct τ β}
    (hq : OnlySleepOn s.wait) (h : slotStep initTask s a = some r) : OnlySleepOn r.wait := by
  cases a with
  | call t rw b => exact (callMake_keeps h).1 ▸ hq
  | test t => exact (testSlot_keeps h).1 ▸ hq
  | fill t => exact (fillSlot_eq h).1 ▸ hq
  | sleep t =>
    rw [(sleepForSlot_eq h).1]
    intro u f hf
    by_cases hu : u = t
    · simp [WaitQueue.push, hu] at hf
      rw [← hf]
    · exact hq u f (by simpa [WaitQueue.push, hu] using hf)
  | resume t =>
    obtain ⟨tmp, hr, -⟩ := resumeScan_eq hq h
    rw [hr]
    intro u f hf
    by_cases hu : u = t
    · simp [WaitQueue.restore, hu] at hf
    · exact hq u f (by simpa [WaitQueue.restore, hu] using hf)
  | sector major => exact (advanceCurrent_keeps h).1 ▸ hq
  | endRequest major uptodate =>
    simp only [slotStep, interruptEnds] at h
    split at h
    · obtain ⟨io, -, rfl⟩ := Option.map_eq_some_iff.mp h
      exact hq
    · simp at h

theorem noLostWakeUp_step_iff {initTask : τ} {s r : SlotWait τ β δ} {a : SlotAct τ β}
    (hq : OnlySleepOn s.wait) (hs : NoLostWakeUp s) (h : slotStep initTask s a = some r) :
    NoLostWakeUp r ↔ KeepsWakeUps s a := by
  cases a with
  | call t rw b =>
    obtain ⟨hwait, hio⟩ := callMake_keeps h
    exact iff_of_true (hs.mono hio fun u hu => hwait ▸ hu) trivial
  | test t =>
    obtain ⟨hwait, hio⟩ := testSlot_keeps h
    exact iff_of_true (hs.mono hio fun u hu => hwait ▸ hu) trivial
  | sleep t =>
    obtain ⟨hwait, hio⟩ := sleepForSlot_eq h
    have hasleep : WaitQueue.Asleep r.wait t := by
      simp [hwait, WaitQueue.Asleep, WaitQueue.push, WaitQueue.SleepKind.state]
    simp only [NoLostWakeUp, KeepsWakeUps, hio]
    constructor
    · intro hr hfree
      exact hr hfree t hasleep
    · intro hbusy hfree
      exact absurd hfree hbusy
  | resume t =>
    obtain ⟨tmp, hwait, hio⟩ := resumeScan_eq hq h
    refine iff_of_true (hs.mono (hio ▸ id) fun u hu => ?_) trivial
    rw [hwait] at hu
    exact (WaitQueue.asleep_restore.mp hu).2.2
  | fill t => exact iff_of_true (fun hfree => absurd hfree (fillSlot_eq h).2) trivial
  | sector major =>
    obtain ⟨hwait, hio⟩ := advanceCurrent_keeps h
    exact iff_of_true (hs.mono hio.mp fun u hu => hwait ▸ hu) trivial
  | endRequest major uptodate =>
    simp only [slotStep, interruptEnds] at h
    split at h
    · rename_i hmajor
      obtain ⟨io, hio, rfl⟩ := Option.map_eq_some_iff.mp h
      simp only [NoLostWakeUp, KeepsWakeUps, allFree_endRequest_iff hmajor hio, asleep_wakeUp]
      refine forall₂_congr fun _ t => ?_
      tauto
    · simp at h

/-- A run never leaves a process asleep for a slot of an idle table exactly when
nobody goes to sleep over an idle table, and the interrupt that ends the last request
finds at most the head of the queue asleep. -/
theorem no_lost_wake_up_iff (initTask : τ) (bh : β → BufferHead β δ) (request : Slot → Request β)
    (requestFn : Nat → Bool) (state : τ → WaitQueue.TaskState) (as : List (SlotAct τ β)) :
    Always (slotStep initTask) NoLostWakeUp (initSlotWait bh request requestFn state) as ↔
      StepsMeet (slotStep initTask) KeepsWakeUps (initSlotWait bh request requestFn state) as := by
  refine always_iff_stepsMeet_of_inv (fun _ _ _ hq h => onlySleepOn_step hq h)
    (fun _ _ _ hq hs h => noLostWakeUp_step_iff hq hs h) as ?_ ?_
  · intro t f hf
    simp [initSlotWait, WaitQueue.empty] at hf
  · intro _ t ht
    exact ht.1 rfl

end Hios.BlkDrv
