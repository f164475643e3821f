import Hios.Fs.InodeLock
import Hios.Fs.Coherence
import Hios.BlkDrv.HardDisk

/-! `sync_dev` with the buffer heads it moves: one process runs, and the block driver
ends requests while it waits. `none` is a panic or a sleep that nobody ends. -/
namespace Hios.Fs
open Hios.BlkDrv
variable {β : Type} [DecidableEq β]

/-- What `make_request` has put into a queue, with the bytes of the buffer and its `b_dirt`. -/
structure Queued where
  dev : Nat
  cmd : Nat
  sector : Nat
  nrSectors : Nat
  data : Block
  dirt : Bool

/-- The caches with their bytes. `cmd` is the request under way for a buffer, `queued` lists
all there have been, and `clock` counts the waits. -/
structure SyncState (β : Type) extends Caches β where
  data : β → Block
  dInode : InodeIx → DInode
  cmd : β → Option Nat
  queued : List Queued
  clock : Nat

/-- `requestFn` says which majors have a driver. In the `t`-th wait it ends the requests of the
buffers for which `done t` holds and of the one that is waited for: `uptodate t` says how, and
`read t` what a read has brought. -/
structure Driver (β : Type) where
  requestFn : Nat → Bool
  done : Nat → β → Bool
  uptodate : Nat → β → Bool
  read : Nat → β → Block

/-- The device is one of a driver. Device 0 is the mark of a free buffer. -/
def Driver.Serves (drv : Driver β) (dev : Nat) : Prop :=
  dev ≠ 0 ∧ majorOf dev < NR_BLK_DEV ∧ drv.requestFn (majorOf dev) = true

theorem bDirt_of_BADNESS {h : CacheHead} : h.bDirt = true ↔ 2 ≤ BADNESS h := by
  have hlock := Bool.toNat_le h.bLock
  cases hd : h.bDirt with
  | true => simp [BADNESS, hd]
  | false =>
    simp only [BADNESS, hd, Bool.toNat_false, Bool.false_eq_true, false_iff]
    omega

omit [DecidableEq β] in
/-- A scan of `getblk` that has found a clean buffer, or comes to one, ends with a clean one. -/
theorem scanFree_clean {head : β → CacheHead} {l : List β} {bh : Option β} {b : β}
    (hb : scanFree head l bh = some b)
    (hclean : (∃ c, bh = some c ∧ (head c).bDirt = false) ∨ ∃ c ∈ l, (head c).bCount = 0 ∧
      (head c).bDirt = false) :
    (head b).bDirt = false := by
  induction l generalizing bh with
  | nil =>
    cases hclean with
    | inl h =>
      obtain ⟨c, rfl, hc⟩ := h
      obtain rfl := Option.some.inj hb
      exact hc
    | inr h => simp at h
  | cons tmp l ih =>
    rw [scanFree] at hb
    by_cases hcount : (head tmp).bCount ≠ 0
    · rw [if_pos hcount] at hb
      refine ih hb (hclean.imp_right fun ⟨c, hc, hfree⟩ => ⟨c, ?_, hfree⟩)
      cases hc with
      | head => exact absurd hfree.1 hcount
      | tail _ hc => exact hc
    · rw [if_neg hcount] at hb
      by_cases hless : bh.all fun b => decide (BADNESS (head tmp) < BADNESS (head b))
      · rw [if_pos hless] at hb
        by_cases hzero : BADNESS (head tmp) = 0
        · rw [if_pos hzero] at hb
          obtain rfl := Option.some.inj hb
          by_contra hd
          have htwo := bDirt_of_BADNESS.mp (by simpa using hd)
          omega
        · rw [if_neg hzero] at hb
          -- a clean buffer gives way only to a better one
          refine ih hb ?_
          cases hclean with
          | inl h =>
            obtain ⟨c, rfl, hc⟩ := h
            refine .inl ⟨tmp, rfl, ?_⟩
            have hlt : BADNESS (head tmp) < BADNESS (head c) := by simpa using hless
            have hone := mt bDirt_of_BADNESS.mpr (by simpa using hc)
            by_contra hd
            have htwo := bDirt_of_BADNESS.mp (show (head tmp).bDirt = true by simpa using hd)
            omega
          | inr h =>
            obtain ⟨c, hc, hfree⟩ := h
            cases hc with
            | head => exact .inl ⟨tmp, rfl, hfree.2⟩
            | tail _ hc => exact .inr ⟨c, hc, hfree⟩
      · rw [if_neg hless] at hb
        refine ih hb ?_
        cases hclean with
        | inl h => exact .inl h
        | inr h =>
          obtain ⟨c, hc, hfree⟩ := h
          cases hc with
          | tail _ hc => exact .inr ⟨c, hc, hfree⟩
          | head =>
            cases hbh : bh with
            | none => simp [hbh] at hless
            | some d =>
              refine .inl ⟨d, rfl, ?_⟩
              have hle : BADNESS (head d) ≤ BADNESS (head tmp) := by simpa [hbh] using hless
              have hone := mt bDirt_of_BADNESS.mpr
                (show ¬ (head tmp).bDirt = true by simp [hfree.2])
              by_contra hd
              have htwo := bDirt_of_BADNESS.mp (show (head d).bDirt = true by simpa using hd)
              omega

omit [DecidableEq β] in
theorem scanFree_count {head : β → CacheHead} {l : List β} {bh : Option β} {b : β}
    (hb : scanFree head l bh = some b) (hbh : ∀ c, bh = some c → (head c).bCount = 0) :
    (head b).bCount = 0 := by
  induction l generalizing bh with
  | nil => exact hbh b hb
  | cons tmp l ih =>
    rw [scanFree] at hb
    by_cases hcount : (head tmp).bCount ≠ 0
    · rw [if_pos hcount] at hb
      exact ih hb hbh
    · have htmp : ∀ c, some tmp = some c → (head c).bCount = 0 := by
        intro c hc
        obtain rfl := Option.some.inj hc
        simpa using hcount
      rw [if_neg hcount] at hb
      split at hb
      · split at hb
        · exact htmp b hb
        · exact ih hb htmp
      · exact ih hb hbh

namespace SyncState
variable {drv : Driver β} {s t u : SyncState β} {b c : β} {i j : InodeIx} {dev block : Nat}

def setHead (s : SyncState β) (b : β) (h : CacheHead) : SyncState β :=
  { s with head := Function.update s.head b h }

def setInode (s : SyncState β) (i : InodeIx) (m : CoreInode) : SyncState β :=
  { s with inode := Function.update s.inode i m }

def finish (drv : Driver β) (p : β → Bool) (s : SyncState β) : SyncState β :=
  { s with
    head := fun b =>
      if p b ∧ (s.cmd b).isSome then
        { s.head b with bUptodate := drv.uptodate s.clock b, bLock := false } else s.head b
    data := fun b => if p b ∧ s.cmd b = some READ then drv.read s.clock b else s.data b
    cmd := fun b => if p b then none else s.cmd b
    clock := s.clock + 1 }

/-- Also `lock_buffer`, whose lock stays only on a buffer that is queued. -/
def waitOnBuffer (drv : Driver β) (b : β) (s : SyncState β) : Option (SyncState β) :=
  let s := s.finish drv fun c => decide (c = b) || drv.done s.clock c
  if (s.head b).bLock then none else some s

/-- `make_request` for `READ` and `WRITE`. It may wait for a free slot, which the driver makes. -/
def makeRequest (drv : Driver β) (rw : Nat) (b : β) (s : SyncState β) : Option (SyncState β) := do
  let s ← s.waitOnBuffer drv b
  if (rw = WRITE ∧ (s.head b).bDirt = false) ∨
    (rw = READ ∧ (s.head b).bUptodate = true) then return s else
  let s := s.finish drv (drv.done s.clock)
  let h := s.head b
  let req : Queued := ⟨h.bDev, rw, h.bBlocknr * 2 % 2 ^ 32, 2, s.data b, h.bDirt⟩
  return { s.setHead b { h with bDirt := false, bLock := true } with
    cmd := Function.update s.cmd b (some rw), queued := s.queued ++ [req] }

def llRwBlock (drv : Driver β) (rw : Nat) (b : β) (s : SyncState β) : Option (SyncState β) :=
  let major := majorOf (s.head b).bDev
  if major < NR_BLK_DEV ∧ drv.requestFn major then s.makeRequest drv rw b else some s

/-- Nobody else moves the buffer while this process waits for it. -/
def getHashTable (drv : Driver β) (dev block : Nat) (s : SyncState β) :
    Option (Option β × SyncState β) :=
  match findBuffer s.toCaches dev block with
  | none => some (none, s)
  | some b => do
    let s ← (s.setHead b { s.head b with bCount := ((s.head b).bCount + 1) % 256 }).waitOnBuffer drv
      b
    return (some b, s)

/-- The `while` loop of `getblk`; `true` if it jumps back to `repeat`. -/
def writeOut (drv : Driver β) (sync : Nat → SyncState β → Option (SyncState β)) (b : β) :
    Nat → SyncState β → Option (Bool × SyncState β)
  | 0, _ => none
  | fuel + 1, s =>
    if (s.head b).bDirt then do
      let s ← sync (s.head b).bDev s
      let s ← s.waitOnBuffer drv b
      if (s.head b).bCount ≠ 0 then return (true, s) else s.writeOut drv sync b fuel
    else some (false, s)

def getblk (drv : Driver β) (sync : Nat → SyncState β → Option (SyncState β)) (dev block : Nat) :
    Nat → SyncState β → Option (β × SyncState β)
  | 0, _ => none
  | fuel + 1, s => do
    let (found, s) ← s.getHashTable drv dev block
    match found with
    | some b => return (b, s)
    | none =>
      let b ← scanFree s.head s.free none
      let s ← s.waitOnBuffer drv b
      if (s.head b).bCount ≠ 0 then s.getblk drv sync dev block fuel else
      let (again, s) ← s.writeOut drv sync b fuel
      if again then s.getblk drv sync dev block fuel
      else if (findBuffer s.toCaches dev block).isSome then s.getblk drv sync dev block fuel
      else return (b, { s with toCaches := takeBuffer s.toCaches dev block b })

def brelse (drv : Driver β) (b : β) (s : SyncState β) : Option (SyncState β) := do
  let s ← s.waitOnBuffer drv b
  let caches ← releaseBuffer s.toCaches b
  return { s with toCaches := caches }

/-- The buffer, or `none` for `NULL`. -/
def bread (drv : Driver β) (sync : Nat → SyncState β → Option (SyncState β)) (fuel dev block : Nat)
    (s : SyncState β) : Option (Option β × SyncState β) := do
  let (b, s) ← s.getblk drv sync dev block fuel
  if (s.head b).bUptodate then return (some b, s) else
  let s ← s.llRwBlock drv READ b
  let s ← s.waitOnBuffer drv b
  if (s.head b).bUptodate then return (some b, s) else
  let s ← s.brelse drv b
  return (none, s)

def blockOf (s : SyncState β) (i : InodeIx) : Option Nat :=
  (s.bitmaps (s.inode i).iDev).map fun n => 2 + n + ((s.inode i).iNum - 1) / INODES_PER_BLOCK

/-- Inode number 0 would lie before its block. -/
def writeInode (drv : Driver β) (sync : Nat → SyncState β → Option (SyncState β)) (fuel : Nat)
    (i : InodeIx) (s : SyncState β) : Option (SyncState β) :=
  if (s.inode i).iLock then none else
  let s := s.setInode i { s.inode i with iLock := true }
  if (s.inode i).iDirt = false ∨
    (s.inode i).iDev = 0 then some (s.setInode i { s.inode i with iLock := false }) else do
  let block ← s.blockOf i
  if (s.inode i).iNum = 0 then none else
  let (bh, s) ← s.bread drv sync fuel (s.inode i).iDev block
  let b ← bh
  let data := (s.data b).setDInode (inodeIndex (s.inode i).iNum) (s.dInode i)
  let s := { s.setHead b { s.head b with bDirt := true } with
    data := Function.update s.data b data }
  let s := s.setInode i { s.inode i with iDirt := false }
  let s ← s.brelse drv b
  return s.setInode i { s.inode i with iLock := false }

/-- One turn of the loop of `sync_inodes`. -/
def syncInode (drv : Driver β) (sync : Nat → SyncState β → Option (SyncState β)) (fuel : Nat)
    (s : SyncState β) (i : InodeIx) : Option (SyncState β) :=
  if (s.inode i).iLock then none
  else if (s.inode i).iDirt ∧ (s.inode i).iPipe = false then s.writeInode drv sync fuel i
  else some s

def syncInodes (drv : Driver β) (sync : Nat → SyncState β → Option (SyncState β)) (fuel k : Nat)
    (s : SyncState β) : Option (SyncState β) :=
  ((List.finRange NR_INODE).take k).foldlM (syncInode drv sync fuel) s

/-- One turn of the loops of `sync_dev` over the buffers. -/
def syncBuffer (drv : Driver β) (dev : Nat) (s : SyncState β) (b : β) : Option (SyncState β) :=
  if (s.head b).bDev ≠ dev then some s else do
  let s ← s.waitOnBuffer drv b
  if (s.head b).bDev = dev ∧ (s.head b).bDirt then s.llRwBlock drv WRITE b else return s

def syncBuffers (drv : Driver β) (dev : Nat) (s : SyncState β) : Option (SyncState β) :=
  s.buffers.foldlM (syncBuffer drv dev) s

def syncDev (drv : Driver β) : Nat → Nat → SyncState β → Option (SyncState β)
  | 0, _, _ => none
  | fuel + 1, dev, s => do
    let s ← s.syncBuffers drv dev
    let s ← s.syncInodes drv (syncDev drv fuel) fuel NR_INODE
    s.syncBuffers drv dev

structure Waited (s t : SyncState β) : Prop where
  rest : t = { s with head := t.head, data := t.data, cmd := t.cmd, clock := t.clock }
  head : ∀ c, t.head c =
    { s.head c with bUptodate := (t.head c).bUptodate, bLock := (t.head c).bLock }
  idle : ∀ c, s.cmd c = none → t.head c = s.head c ∧ t.data c = s.data c ∧ t.cmd c = none
  reading : ∀ c, s.cmd c ≠ some READ → t.data c = s.data c ∧ t.cmd c ≠ some READ

omit [DecidableEq β] in
theorem Waited.place (h : Waited s t) (c : β) : (t.head c).bDev = (s.head c).bDev ∧
    (t.head c).bBlocknr = (s.head c).bBlocknr ∧ (t.head c).bDirt = (s.head c).bDirt := by
  rw [h.head c]
  exact ⟨rfl, rfl, rfl⟩

omit [DecidableEq β] in
theorem Waited.trans (h : Waited s t) (h' : Waited t u) : Waited s u := by
  refine ⟨?_, fun c => ?_, fun c hc => ?_, fun c hc => ?_⟩
  · rw [h'.rest, h.rest]
  · rw [h'.head c, h.head c]
  · obtain ⟨hhead, hdata, hcmd⟩ := h.idle c hc
    obtain ⟨hhead', hdata', hcmd'⟩ := h'.idle c hcmd
    exact ⟨hhead'.trans hhead, hdata'.trans hdata, hcmd'⟩
  · obtain ⟨hdata, hcmd⟩ := h.reading c hc
    obtain ⟨hdata', hcmd'⟩ := h'.reading c hcmd
    exact ⟨hdata'.trans hdata, hcmd'⟩

omit [DecidableEq β] in
theorem waited_finish (drv : Driver β) (p : β → Bool) (s : SyncState β) :
    Waited s (s.finish drv p) := by
  refine ⟨rfl, fun c => ?_, fun c hc => ?_, fun c hc => ?_⟩
  · simp only [finish]
    split
    · rfl
    · rfl
  · simp [finish, hc]
  · by_cases hp : p c
    · simp [finish, hp, hc]
    · simp [finish, hp, hc]

theorem waitOnBuffer_waited (h : s.waitOnBuffer drv b = some t) : Waited s t ∧ t.cmd b = none := by
  simp only [waitOnBuffer] at h
  split at h
  · cases h
  · obtain rfl := Option.some.inj h
    exact ⟨waited_finish .., by simp [finish]⟩

/-- `make_request` finds nothing to do, or queues the buffer as it is after the waits. -/
theorem makeRequest_cases {rw : Nat} (h : s.makeRequest drv rw b = some t) :
    ∃ u, Waited s u ∧ u.cmd b = none ∧
      if (rw = WRITE ∧ (u.head b).bDirt = false) ∨
      (rw = READ ∧ (u.head b).bUptodate = true) then t = u
      else t = { u.setHead b { u.head b with bDirt := false, bLock := true } with
        cmd := Function.update u.cmd b (some rw)
        queued := u.queued ++
          [⟨(u.head b).bDev, rw, (u.head b).bBlocknr * 2 % 2 ^ 32, 2, u.data b, (u.head b).bDirt⟩]
            } := by
  obtain ⟨u, hwait, h⟩ := Option.bind_eq_some_iff.mp h
  obtain ⟨hu, hidle⟩ := waitOnBuffer_waited hwait
  split at h
  · rename_i hdone
    obtain rfl := Option.some.inj h
    exact ⟨u, hu, hidle, by rw [if_pos hdone]⟩
  · rename_i hdone
    have hfin := waited_finish drv (drv.done u.clock) u
    obtain ⟨hhead, -, hcmd⟩ := hfin.idle b hidle
    refine ⟨u.finish drv (drv.done u.clock), hu.trans hfin, hcmd, ?_⟩
    rw [hhead, if_neg hdone, ← hhead]
    exact (Option.some.inj h).symm

def ReadsClean (s : SyncState β) : Prop := ∀ b, s.cmd b = some READ → (s.head b).bDirt = false

def writeOf (s : SyncState β) (b : β) : Queued :=
  ⟨(s.head b).bDev, WRITE, (s.head b).bBlocknr * 2 % 2 ^ 32, 2, s.data b, true⟩

/-- `new` writes the dirty buffers of `dev` in `l`, which are clean after it. -/
structure Flushed (dev : Nat) (l : List β) (new : List Queued) (s t : SyncState β) : Prop where
  rest : t = { s with head := t.head, data := t.data, cmd := t.cmd, queued := s.queued ++ new,
                      clock := t.clock }
  place : ∀ c, (t.head c).bDev = (s.head c).bDev ∧ (t.head c).bBlocknr = (s.head c).bBlocknr
  dirt : ∀ c, (t.head c).bDirt = true ↔ (s.head c).bDirt = true ∧ ¬ (c ∈ l ∧ (s.head c).bDev = dev)
  reading : ∀ c, s.cmd c ≠ some READ → t.data c = s.data c ∧ t.cmd c ≠ some READ
  written : ∀ c ∈ l, (s.head c).bDev = dev → (s.head c).bDirt = true → writeOf s c ∈ new
  only : ∀ q ∈ new, ∃ c ∈ l, (s.head c).bDev = dev ∧ (s.head c).bDirt = true ∧ q = writeOf s c

omit [DecidableEq β] in
theorem ReadsClean.not_reading (h : ReadsClean s) (hd : (s.head b).bDirt = true) :
    s.cmd b ≠ some READ := by
  intro hr
  rw [h b hr] at hd
  cases hd

omit [DecidableEq β] in
theorem Flushed.readsClean {l : List β} {new : List Queued} (h : Flushed dev l new s t)
    (hr : ReadsClean s) : ReadsClean t := by
  intro b hb
  by_contra hd
  have hdirt := ((h.dirt b).mp (by simpa using hd)).1
  exact (h.reading b (hr.not_reading hdirt)).2 hb

omit [DecidableEq β] in
theorem Flushed.writeOf_eq {l : List β} {new : List Queued} (h : Flushed dev l new s t)
    (hr : ReadsClean s) (hd : (s.head b).bDirt = true) : writeOf t b = writeOf s b := by
  obtain ⟨hdev, hblock⟩ := h.place b
  simp only [writeOf, hdev, hblock, (h.reading b (hr.not_reading hd)).1]

omit [DecidableEq β] in
theorem Flushed.trans {l l' : List β} {new new' : List Queued} (h : Flushed dev l new s t)
    (hr : ReadsClean s) (h' : Flushed dev l' new' t u) :
    Flushed dev (l ++ l') (new ++ new') s u := by
  have hdirt : ∀ c, (u.head c).bDirt = true ↔
      (s.head c).bDirt = true ∧ ¬ (c ∈ l ++ l' ∧ (s.head c).bDev = dev) := by
    intro c
    rw [h'.dirt, h.dirt, (h.place c).1, List.mem_append]
    tauto
  refine ⟨?_, fun c => ?_, hdirt, fun c hc => ?_, fun c hc hdev hd => ?_, fun q hq => ?_⟩
  · rw [h'.rest, h.rest, List.append_assoc]
  · rw [(h'.place c).1, (h'.place c).2]
    exact h.place c
  · obtain ⟨hdata, hcmd⟩ := h.reading c hc
    obtain ⟨hdata', hcmd'⟩ := h'.reading c hcmd
    exact ⟨hdata'.trans hdata, hcmd'⟩
  · by_cases hl : c ∈ l
    · exact List.mem_append_left _ (h.written c hl hdev hd)
    · have hd' : (t.head c).bDirt = true := (h.dirt c).mpr ⟨hd, fun hin => hl hin.1⟩
      have hl' : c ∈ l' := (List.mem_append.mp hc).resolve_left hl
      have hw := h'.written c hl' ((h.place c).1.trans hdev) hd'
      rw [h.writeOf_eq hr hd] at hw
      exact List.mem_append_right _ hw
  · cases List.mem_append.mp hq with
    | inl hq =>
      obtain ⟨c, hc, hw⟩ := h.only q hq
      exact ⟨c, List.mem_append_left _ hc, hw⟩
    | inr hq =>
      obtain ⟨c, hc, hdev, hd, hw⟩ := h'.only q hq
      have hd' := ((h.dirt c).mp hd).1
      exact ⟨c, List.mem_append_right _ hc, (h.place c).1.symm.trans hdev, hd',
        hw.trans (h.writeOf_eq hr hd')⟩

omit [DecidableEq β] in
theorem Flushed.of_waited (h : Waited s t) (hb : (s.head b).bDev = dev → (s.head b).bDirt = false) :
    Flushed dev [b] [] s t := by
  refine ⟨?_, fun c => ?_, fun c => ?_, h.reading, fun c hc hdev hd => ?_, fun q hq => ?_⟩
  · rw [List.append_nil]
    exact h.rest
  · exact ⟨(h.place c).1, (h.place c).2.1⟩
  · rw [(h.place c).2.2]
    refine ⟨fun hd => ⟨hd, fun hin => ?_⟩, And.left⟩
    obtain rfl := List.mem_singleton.mp hin.1
    rw [hb hin.2] at hd
    cases hd
  · rw [List.mem_singleton.mp hc] at hdev hd
    rw [hb hdev] at hd
    cases hd
  · cases hq

theorem syncBuffer_flushed (hserves : drv.Serves dev) (hr : ReadsClean s)
    (h : s.syncBuffer drv dev b = some t) :
    ∃ new, Flushed dev [b] new s t := by
  by_cases hdev : (s.head b).bDev = dev
  · rw [syncBuffer, if_neg (by simpa using hdev)] at h
    obtain ⟨u, hwait, h⟩ := Option.bind_eq_some_iff.mp h
    obtain ⟨hu, -⟩ := waitOnBuffer_waited hwait
    have hudev : (u.head b).bDev = dev := (hu.place b).1.trans hdev
    have hudirt := (hu.place b).2.2
    by_cases hd : (s.head b).bDirt = true
    · rw [if_pos ⟨hudev, hudirt.trans hd⟩, llRwBlock, hudev, if_pos hserves.2] at h
      obtain ⟨v, hv, -, ht⟩ := makeRequest_cases h
      have hw := hu.trans hv
      obtain ⟨hvdev, hvblock, hvdirt⟩ := hw.place b
      have hvdata := (hw.reading b (hr.not_reading hd)).1
      rw [if_neg (by simp [hvdirt, hd, READ, WRITE])] at ht
      have hnew : (⟨(v.head b).bDev, WRITE, (v.head b).bBlocknr * 2 % 2 ^ 32, 2, v.data b,
        (v.head b).bDirt⟩ : Queued) =
          writeOf s b := by
        rw [writeOf, hvdev, hvblock, hvdirt, hvdata, hd]
      rw [hnew] at ht
      refine ⟨[writeOf s b], ?_, fun c => ?_, fun c => ?_, fun c hc => ?_, fun c hc _ _ => ?_,
        fun q hq => ?_⟩
      · rw [ht, hw.rest]
        rfl
      · by_cases hcb : c = b
        · simp [ht, setHead, hcb, hvdev, hvblock]
        · simp [ht, setHead, hcb, hw.place c]
      · by_cases hcb : c = b
        · simp [ht, setHead, hcb, hdev]
        · simp [ht, setHead, hcb, hw.place c]
      · obtain ⟨hdata, hcmd⟩ := hw.reading c hc
        by_cases hcb : c = b
        · simp [ht, setHead, hcb, hvdata, READ, WRITE]
        · simp [ht, setHead, hcb, hdata, hcmd]
      · rw [List.mem_singleton.mp hc]
        exact List.mem_singleton_self _
      · exact ⟨b, List.mem_singleton_self _, hdev, hd, List.mem_singleton.mp hq⟩
    · rw [if_neg (by rw [hudirt]; exact fun hc => hd hc.2)] at h
      obtain rfl := Option.some.inj h
      exact ⟨[], .of_waited hu fun _ => by simpa using hd⟩
  · rw [syncBuffer, if_pos hdev] at h
    obtain rfl := Option.some.inj h
    refine ⟨[], .of_waited ⟨rfl, fun _ => rfl, fun _ hc => ⟨rfl, rfl, hc⟩,
      fun _ hc => ⟨rfl, hc⟩⟩ fun hc => ?_⟩
    exact absurd hc hdev

theorem foldlM_flushed (hserves : drv.Serves dev) {l : List β} (hr : ReadsClean s)
    (h : l.foldlM (syncBuffer drv dev) s = some t) : ∃ new, Flushed dev l new s t := by
  induction l generalizing s with
  | nil =>
    obtain rfl := Option.some.inj h
    refine ⟨[], ?_, fun _ => ⟨rfl, rfl⟩, fun c => ?_, fun _ hc => ⟨rfl, hc⟩, fun _ hc => ?_,
      fun _ hq => ?_⟩
    · rw [List.append_nil]
    · simp
    · cases hc
    · cases hq
  | cons b l ih =>
    rw [List.foldlM_cons] at h
    obtain ⟨u, hu, h⟩ := Option.bind_eq_some_iff.mp h
    obtain ⟨new, hflush⟩ := syncBuffer_flushed hserves hr hu
    obtain ⟨new', hflush'⟩ := ih (hflush.readsClean hr) h
    exact ⟨new ++ new', hflush.trans hr hflush'⟩

/-- The buffer holds its block as before, and nothing is read into it that was not. -/
structure Kept (s t : SyncState β) (c : β) : Prop where
  place : (t.head c).bDev = (s.head c).bDev ∧ (t.head c).bBlocknr = (s.head c).bBlocknr ∧
    (t.head c).bDirt = (s.head c).bDirt
  idle : s.cmd c = none → t.cmd c = none ∧ (t.head c).bUptodate = (s.head c).bUptodate ∧
    t.data c = s.data c
  reading : s.cmd c ≠ some READ → t.cmd c ≠ some READ

omit [DecidableEq β] in
theorem Kept.trans (h : Kept s t c) (h' : Kept t u c) : Kept s u c := by
  refine ⟨?_, fun hc => ?_, fun hc => h'.reading (h.reading hc)⟩
  · obtain ⟨hdev, hblock, hdirt⟩ := h.place
    obtain ⟨hdev', hblock', hdirt'⟩ := h'.place
    exact ⟨hdev'.trans hdev, hblock'.trans hblock, hdirt'.trans hdirt⟩
  · obtain ⟨hcmd, hup, hdata⟩ := h.idle hc
    obtain ⟨hcmd', hup', hdata'⟩ := h'.idle hcmd
    exact ⟨hcmd', hup'.trans hup, hdata'.trans hdata⟩

omit [DecidableEq β] in
theorem Waited.kept (h : Waited s t) (c : β) : Kept s t c := by
  refine ⟨h.place c, fun hc => ?_, fun hc => (h.reading c hc).2⟩
  obtain ⟨hhead, hdata, hcmd⟩ := h.idle c hc
  exact ⟨hcmd, by rw [hhead], hdata⟩

omit [DecidableEq β] in
theorem kept_of_eq (hhead : t.head c = s.head c) (hdata : t.data c = s.data c)
    (hcmd : t.cmd c = s.cmd c) :
    Kept s t c := by
  refine ⟨?_, fun hc => ⟨hcmd.trans hc, ?_, hdata⟩, fun hc => ?_⟩
  · rw [hhead]
    exact ⟨rfl, rfl, rfl⟩
  · rw [hhead]
  · rwa [hcmd]

/-- The buffer `b` holds the block, and no request of it is under way. Only a clean buffer
has been given a new block. -/
structure Fetched (dev block : Nat) (b : β) (s t : SyncState β) : Prop where
  rest : t = { s with head := t.head, chain := t.chain, free := t.free, data := t.data,
                      cmd := t.cmd, queued := t.queued, clock := t.clock }
  others : ∀ c, c ≠ b → Kept s t c
  place : (t.head b).bDev = dev % 65536 ∧ (t.head b).bBlocknr = block
  idle : t.cmd b = none
  old : (s.head b).bDirt = true → ((s.head b).bDev = dev % 65536 ∧ (s.head b).bBlocknr = block) ∧
    (s.cmd b = none → (s.head b).bUptodate = true → Kept s t b)
  reads : ∃ new, t.queued = s.queued ++ new ∧ ∀ q ∈ new, q.cmd = READ

omit [DecidableEq β] in
theorem Fetched.waited (h : Fetched dev block b s t) (hw : Waited t u) :
    Fetched dev block b s u := by
  obtain ⟨hdev, hblock, -⟩ := hw.place b
  refine ⟨?_, fun c hc => (h.others c hc).trans (hw.kept c),
    ⟨hdev.trans h.place.1, hblock.trans h.place.2⟩,
    ((hw.kept b).idle h.idle).1, fun hd => ?_, ?_⟩
  · rw [hw.rest, h.rest]
  · obtain ⟨hplace, hkept⟩ := h.old hd
    exact ⟨hplace, fun hc hup => (hkept hc hup).trans (hw.kept b)⟩
  · obtain ⟨new, hq, hnew⟩ := h.reads
    refine ⟨new, ?_, hnew⟩
    rw [hw.rest]
    exact hq

def HasClean (s : SyncState β) : Prop :=
  ∃ b ∈ s.free, (s.head b).bCount = 0 ∧ (s.head b).bDirt = false

omit [DecidableEq β] in
theorem findBuffer_some (h : findBuffer s.toCaches dev block = some b) :
    (s.head b).bDev = dev % 65536 ∧ (s.head b).bBlocknr = block := by
  simpa using List.find?_some h

omit [DecidableEq β] in
theorem Waited.findBuffer_eq (h : Waited s t) (dev block : Nat) :
    findBuffer t.toCaches dev block = findBuffer s.toCaches dev block := by
  have hchain : t.chain = s.chain := by rw [h.rest]
  simp only [findBuffer, hchain, h.place]

theorem kept_setHead {h : CacheHead} (hh : h = { s.head b with bCount := h.bCount }) (c : β) :
    Kept s (s.setHead b h) c := by
  have hhead : (s.setHead b h).head c =
      { s.head c with bCount := ((s.setHead b h).head c).bCount } := by
    by_cases hc : c = b
    · subst hc
      simp only [setHead, Function.update_self]
      exact hh
    · simp [setHead, hc]
  refine ⟨?_, fun hc => ⟨hc, ?_, rfl⟩, id⟩
  · rw [hhead]
    exact ⟨rfl, rfl, rfl⟩
  · rw [hhead]

theorem getblk_fetched {sync : Nat → SyncState β → Option (SyncState β)} {fuel : Nat}
    (hroom : findBuffer s.toCaches dev block = none → HasClean s)
    (h : s.getblk drv sync dev block fuel = some (b, t)) : Fetched dev block b s t := by
  cases fuel with
  | zero => cases h
  | succ fuel =>
    cases hfind : findBuffer s.toCaches dev block with
    | some b' =>
      rw [getblk, getHashTable, hfind] at h
      obtain ⟨⟨found, s'⟩, hget, h⟩ := Option.bind_eq_some_iff.mp h
      obtain ⟨u, hwait, hu⟩ := Option.bind_eq_some_iff.mp hget
      obtain ⟨rfl, rfl⟩ := Prod.mk.inj (Option.some.inj hu)
      obtain ⟨rfl, rfl⟩ := Prod.mk.inj (Option.some.inj h)
      obtain ⟨hw, hidle⟩ := waitOnBuffer_waited hwait
      have hplace := findBuffer_some hfind
      have hkept := fun c => (kept_setHead (s := s) (b := b') (c := c) rfl).trans (hw.kept c)
      obtain ⟨hdev, hblock, -⟩ := (hkept b').place
      refine ⟨?_, fun c _ => hkept c, ⟨hdev.trans hplace.1, hblock.trans hplace.2⟩, hidle,
        fun _ => ⟨hplace, fun _ _ => hkept b'⟩, [], ?_, ?_⟩
      · rw [hw.rest]
        rfl
      · rw [hw.rest, List.append_nil]
        rfl
      · simp
    | none =>
      rw [getblk, getHashTable, hfind] at h
      obtain ⟨⟨found, s'⟩, hget, h⟩ := Option.bind_eq_some_iff.mp h
      obtain ⟨rfl, rfl⟩ := Prod.mk.inj (Option.some.inj hget)
      obtain ⟨b', hscan, h⟩ := Option.bind_eq_some_iff.mp h
      obtain ⟨u, hwait, h⟩ := Option.bind_eq_some_iff.mp h
      obtain ⟨hw, hidle⟩ := waitOnBuffer_waited hwait
      obtain ⟨c, hc, hfree⟩ := hroom hfind
      have hdirt := scanFree_clean hscan (.inr ⟨c, hc, hfree⟩)
      have hcount := scanFree_count hscan fun _ e => nomatch e
      have hucount : (u.head b').bCount = 0 := by rw [hw.head b', hcount]
      have hudirt : (u.head b').bDirt = false := by rw [hw.head b', hdirt]
      rw [if_neg (by simp [hucount])] at h
      obtain ⟨⟨again, v⟩, hout, h⟩ := Option.bind_eq_some_iff.mp h
      cases fuel with
      | zero => cases hout
      | succ fuel =>
        rw [writeOut, if_neg (by simp [hudirt])] at hout
        obtain ⟨rfl, rfl⟩ := Prod.mk.inj (Option.some.inj hout)
        have hmissing : (findBuffer u.toCaches dev block).isSome = false := by
          rw [hw.findBuffer_eq, hfind]
          rfl
        simp only [hmissing, Bool.false_eq_true, if_false] at h
        obtain ⟨rfl, rfl⟩ := Prod.mk.inj (Option.some.inj h)
        refine ⟨?_, fun c hc => ?_, ?_, hidle, fun hd => ?_, [], ?_, ?_⟩
        · rw [hw.rest]
          rfl
        · refine (hw.kept c).trans (kept_of_eq ?_ rfl rfl)
          simp [takeBuffer, hc]
        · simp [takeBuffer]
        · rw [hdirt] at hd
          cases hd
        · rw [hw.rest, List.append_nil]
        · simp

theorem Fetched.read (h : Fetched dev block b s t) (hup : (t.head b).bUptodate = false)
    (hll : t.llRwBlock drv READ b = some u) {v : SyncState β}
    (hwait : u.waitOnBuffer drv b = some v) : Fetched dev block b s v := by
  obtain ⟨hw, hidle⟩ := waitOnBuffer_waited hwait
  simp only [llRwBlock] at hll
  split at hll
  · obtain ⟨r, hr, hridle, hu⟩ := makeRequest_cases hll
    obtain ⟨hrhead, -, -⟩ := hr.idle b h.idle
    have hf := h.waited hr
    rw [if_neg (by simp [hrhead, hup, READ, WRITE])] at hu
    have huplace : (u.head b).bDev = (r.head b).bDev ∧
        (u.head b).bBlocknr = (r.head b).bBlocknr := by
      simp [hu, setHead]
    obtain ⟨hdev, hblock, -⟩ := hw.place b
    refine ⟨?_, fun c hc => ?_, ?_, hidle, fun hd => ?_, ?_⟩
    · rw [hw.rest, hu, hf.rest]
      rfl
    · refine (hf.others c hc).trans (.trans (kept_of_eq ?_ ?_ ?_) (hw.kept c))
      · simp [hu, setHead, hc]
      · simp [hu, setHead]
      · simp [hu, hc]
    · exact ⟨hdev.trans (huplace.1.trans hf.place.1), hblock.trans (huplace.2.trans hf.place.2)⟩
    · obtain ⟨hplace, hkept⟩ := hf.old hd
      refine ⟨hplace, fun hc hs => ?_⟩
      have hsame := ((hkept hc hs).idle hc).2.1
      rw [hrhead, hup, hs] at hsame
      cases hsame
    · obtain ⟨new, hq, hnew⟩ := hf.reads
      obtain ⟨req, hreq, hqueued⟩ : ∃ req : Queued, req.cmd = READ ∧ u.queued = r.queued ++ [req] :=
        ⟨_, rfl, by rw [hu]⟩
      refine ⟨new ++ [req], ?_, fun q hq => ?_⟩
      · rw [hw.rest, ← List.append_assoc, ← hq]
        exact hqueued
      · cases List.mem_append.mp hq with
        | inl hq => exact hnew q hq
        | inr hq => rwa [List.mem_singleton.mp hq]
  · obtain rfl := Option.some.inj hll
    exact h.waited hw

theorem bread_fetched {sync : Nat → SyncState β → Option (SyncState β)} {fuel : Nat}
    (hroom : findBuffer s.toCaches dev block = none → HasClean s)
    (h : s.bread drv sync fuel dev block = some (some b, t)) :
    Fetched dev block b s t ∧ (t.head b).bUptodate = true := by
  obtain ⟨⟨b', u⟩, hget, h⟩ := Option.bind_eq_some_iff.mp h
  have hf := getblk_fetched hroom hget
  dsimp only at h
  by_cases hup : (u.head b').bUptodate = true
  · rw [if_pos hup] at h
    obtain ⟨hb, rfl⟩ := Prod.mk.inj (Option.some.inj h)
    obtain rfl := Option.some.inj hb
    exact ⟨hf, hup⟩
  · rw [if_neg hup] at h
    obtain ⟨v, hll, h⟩ := Option.bind_eq_some_iff.mp h
    obtain ⟨w, hwait, h⟩ := Option.bind_eq_some_iff.mp h
    split at h
    · rename_i hup'
      obtain ⟨hb, rfl⟩ := Prod.mk.inj (Option.some.inj h)
      obtain rfl := Option.some.inj hb
      exact ⟨hf.read (by simpa using hup) hll hwait, hup'⟩
    · obtain ⟨x, -, hx⟩ := Option.bind_eq_some_iff.mp h
      cases hx

structure Wrote (i : InodeIx) (block : Nat) (b : β) (s t : SyncState β) : Prop where
  rest : t = { s with head := t.head, chain := t.chain, free := t.free, data := t.data,
                      cmd := t.cmd, queued := t.queued, clock := t.clock, inode := t.inode }
  inode : t.inode = Function.update s.inode i { s.inode i with iDirt := false }
  others : ∀ c, c ≠ b → Kept s t c
  place : (t.head b).bDev = (s.inode i).iDev % 65536 ∧ (t.head b).bBlocknr = block
  idle : t.cmd b = none
  flags : (t.head b).bDirt = true ∧ (t.head b).bUptodate = true
  data : ∃ old : Block, t.data b = old.setDInode (inodeIndex (s.inode i).iNum) (s.dInode i) ∧
    (s.cmd b = none → (s.head b).bDirt = true → (s.head b).bUptodate = true → old = s.data b)
  old : (s.head b).bDirt = true → (s.head b).bDev = (s.inode i).iDev % 65536 ∧
    (s.head b).bBlocknr = block
  reads : ∃ new, t.queued = s.queued ++ new ∧ ∀ q ∈ new, q.cmd = READ

theorem brelse_waited (h : s.brelse drv b = some t) : ∃ u, Waited s u ∧
    t = u.setHead b { u.head b with bCount := (u.head b).bCount - 1 } := by
  obtain ⟨u, hwait, h⟩ := Option.bind_eq_some_iff.mp h
  obtain ⟨caches, hrel, h⟩ := Option.bind_eq_some_iff.mp h
  obtain rfl := Option.some.inj h
  rw [releaseBuffer] at hrel
  split at hrel
  · cases hrel
  · obtain rfl := Option.some.inj hrel
    exact ⟨u, (waitOnBuffer_waited hwait).1, rfl⟩

theorem writeInode_wrote {sync : Nat → SyncState β → Option (SyncState β)} {fuel : Nat}
    (hdirt : (s.inode i).iDirt = true) (hdev : (s.inode i).iDev ≠ 0)
    (hroom : ∀ block, s.blockOf i = some block →
      findBuffer s.toCaches (s.inode i).iDev block = none → HasClean s)
    (h : s.writeInode drv sync fuel i = some t) :
    ∃ block b, s.blockOf i = some block ∧ (s.inode i).iNum ≠ 0 ∧ Wrote i block b s t := by
  rw [writeInode] at h
  split at h
  · cases h
  rename_i hlock
  dsimp only at h
  generalize hs₁ : s.setInode i { s.inode i with iLock := true } = s₁ at h
  have hi : s₁.inode i = { s.inode i with iLock := true } := by simp [← hs₁, setInode]
  rw [if_neg (by simp [hi, hdirt, hdev])] at h
  obtain ⟨block, hblock, h⟩ := Option.bind_eq_some_iff.mp h
  split at h
  · cases h
  rename_i hnum
  obtain ⟨⟨bh, u⟩, hbread, h⟩ := Option.bind_eq_some_iff.mp h
  dsimp only at h
  obtain ⟨b, rfl, hstore⟩ := Option.bind_eq_some_iff.mp h
  obtain ⟨v, hrel, hret⟩ := Option.bind_eq_some_iff.mp hstore
  obtain rfl := Option.some.inj hret
  subst hs₁
  have hblock' : s.blockOf i = some block := by
    rw [← hblock, blockOf, blockOf, hi]
    rfl
  rw [hi] at hnum hbread
  obtain ⟨hf, hup⟩ := bread_fetched
    (show _ → HasClean (s.setInode i { s.inode i with iLock := true }) from hroom block hblock')
    hbread
  have huinode : u.inode = Function.update s.inode i { s.inode i with iLock := true } := by
    rw [hf.rest]
    rfl
  have hdinode : u.dInode = s.dInode := by
    rw [hf.rest]
    rfl
  obtain ⟨w, hw, rfl⟩ := brelse_waited hrel
  obtain ⟨hwhead, hwdata, hwcmd⟩ := hw.idle b hf.idle
  have hwinode : w.inode = Function.update u.inode i { u.inode i with iDirt := false } := by
    rw [hw.rest]
    rfl
  refine ⟨block, b, hblock', hnum, ?_, ?_, fun c hc => ?_, ?_, hwcmd, ?_,
    ⟨u.data b, ?_, fun hc hd hs => ?_⟩,
    fun hd => (hf.old hd).1, ?_⟩
  · rw [hw.rest, hf.rest]
    rfl
  · simp [setInode, setHead, hwinode, huinode, hlock]
  · have hlocked : Kept s (s.setInode i { s.inode i with iLock := true }) c :=
      kept_of_eq rfl rfl rfl
    refine (hlocked.trans (hf.others c hc)).trans (Kept.trans ?_ ((hw.kept c).trans ?_))
    · refine kept_of_eq ?_ ?_ rfl
      · simp [setHead, setInode, hc]
      · simp [setInode, hc]
    · refine (kept_setHead ?_ c).trans (kept_of_eq rfl rfl rfl)
      rfl
  · simp [setInode, setHead, hwhead, hf.place]
  · simp [setInode, setHead, hwhead, hup]
  · simp [setInode, setHead, hwdata, huinode, hdinode]
  · exact ((hf.old hd).2 hc hs).idle hc |>.2.2
  · obtain ⟨new, hq, hnew⟩ := hf.reads
    refine ⟨new, ?_, hnew⟩
    rw [hw.rest]
    exact hq

omit [DecidableEq β] in
theorem Wrote.readsClean (h : Wrote i block b s t) (hr : ReadsClean s) : ReadsClean t := by
  intro c hc
  by_cases hcb : c = b
  · rw [hcb, h.idle] at hc
    cases hc
  · rw [(h.others c hcb).place.2.2]
    refine hr c ?_
    by_contra hno
    exact (h.others c hcb).reading hno hc

def Pending (m : CoreInode) : Prop := m.iDirt = true ∧ m.iPipe = false ∧ m.iDev ≠ 0

instance (m : CoreInode) : Decidable (Pending m) := inferInstanceAs (Decidable (_ ∧ _))

/-- The tables as the kernel keeps them: `start_buffer` and the free list have every head, a pipe
has no device, and an inode has one entry. -/
structure Sound (s : SyncState β) : Prop where
  listed : ∀ b, b ∈ s.buffers
  readsClean : ReadsClean s
  pipe : ∀ i, (s.inode i).iPipe = true → (s.inode i).iDev = 0
  short : ∀ i, (s.inode i).iDev < 65536
  unique : ∀ i j, (s.inode i).iDev ≠ 0 → (s.inode i).iDev = (s.inode j).iDev →
    (s.inode i).iNum = (s.inode j).iNum →
    i = j

omit [DecidableEq β] in
theorem Flushed.sound {l : List β} {new : List Queued} (h : Flushed dev l new s t) (hs : Sound s) :
    Sound t := by
  have hr := h.readsClean hs.readsClean
  obtain ⟨hlisted, -, hpipe, hshort, hunique⟩ := hs
  rw [h.rest] at hr ⊢
  exact ⟨hlisted, hr, hpipe, hshort, hunique⟩

omit [DecidableEq β] in
theorem Flushed.clean {l : List β} {new : List Queued} (h : Flushed dev l new s t) (hl : ∀ b, b ∈ l)
    (hdev : (t.head b).bDev = dev) : (t.head b).bDirt = false := by
  by_contra hd
  refine ((h.dirt b).mp (by simpa using hd)).2 ⟨hl b, ?_⟩
  rw [← (h.place b).1, hdev]

structure Stores (s : SyncState β) (i : InodeIx) (block : Nat) (b : β) (t : SyncState β) :
  Prop where
  place : (t.head b).bDev = (s.inode i).iDev ∧ (t.head b).bBlocknr = block
  flags : (t.head b).bDirt = true ∧ (t.head b).bUptodate = true
  idle : t.cmd b = none
  data : (t.data b).dInode (inodeIndex (s.inode i).iNum) = s.dInode i

omit [DecidableEq β] in
theorem Sound.index_ne (h : Sound s) (hij : i ≠ j) (hdev : (s.inode i).iDev ≠ 0)
    (hsame : (s.inode i).iDev = (s.inode j).iDev) (hi : (s.inode i).iNum ≠ 0)
    (hj : (s.inode j).iNum ≠ 0) (hbi : s.blockOf i = some block) (hbj : s.blockOf j = some block) :
    inodeIndex (s.inode i).iNum ≠ inodeIndex (s.inode j).iNum := by
  intro he
  have hmod := congrArg Fin.val he
  obtain ⟨n, hn, hni⟩ := Option.map_eq_some_iff.mp hbi
  obtain ⟨m, hm, hmj⟩ := Option.map_eq_some_iff.mp hbj
  rw [hsame, hm] at hn
  obtain rfl := Option.some.inj hn
  simp only [inodeIndex, INODES_PER_BLOCK] at hmod hni hmj
  exact hij (h.unique i j hdev hsame (by omega))

omit [DecidableEq β] in
theorem Stores.wrote {block' : Nat} (h : Stores s i block b t) (hw : Wrote j block' c t u)
    (hslot : (t.inode j).iDev % 65536 = (s.inode i).iDev → block' = block →
      inodeIndex (s.inode i).iNum ≠ inodeIndex (t.inode j).iNum) : Stores s i block b u := by
  by_cases hbc : b = c
  · subst hbc
    obtain ⟨hdev, hblock⟩ := hw.old h.flags.1
    obtain ⟨old, hdata, hold⟩ := hw.data
    refine ⟨⟨?_, ?_⟩, hw.flags, hw.idle, ?_⟩
    · rw [hw.place.1, ← hdev, h.place.1]
    · rw [hw.place.2, ← hblock, h.place.2]
    · have hne := hslot (hdev.symm.trans h.place.1) (hblock.symm.trans h.place.2)
      rw [hdata, Block.dInode_setDInode, if_neg hne, hold h.idle h.flags.1 h.flags.2]
      exact h.data
  · have hk := hw.others b hbc
    obtain ⟨hdev, hblock, hdirt⟩ := hk.place
    obtain ⟨hcmd, hup, hdata⟩ := hk.idle h.idle
    refine ⟨⟨hdev.trans h.place.1, hblock.trans h.place.2⟩,
      ⟨hdirt.trans h.flags.1, hup.trans h.flags.2⟩, hcmd, ?_⟩
    rw [hdata]
    exact h.data

/-- `sync_inodes` has come to entry `k`: the dirty entries before it are in dirty buffers, and
no other buffer of `dev` is dirty. -/
structure Pushed (dev k : Nat) (s t : SyncState β) : Prop where
  rest : t.dInode = s.dInode ∧ t.bitmaps = s.bitmaps ∧ t.buffers = s.buffers
  inode : ∀ i, t.inode i = if i.val < k ∧ Pending (s.inode i) then { s.inode i with iDirt := false }
    else s.inode i
  readsClean : ReadsClean t
  reads : ∃ new, t.queued = s.queued ++ new ∧ ∀ q ∈ new, q.cmd = READ
  stored : ∀ i : InodeIx, i.val < k → Pending (s.inode i) → ∃ block b, s.blockOf i = some block ∧
    (s.inode i).iNum ≠ 0 ∧ Stores s i block b t
  clean : ∀ b, (t.head b).bDev = dev → (t.head b).bDirt = true → ∃ i, Pending (s.inode i) ∧
    (s.inode i).iDev = dev ∧ s.blockOf i = some (t.head b).bBlocknr

omit [DecidableEq β] in
theorem Pushed.skip {k : Nat} (h : Pushed dev k s t)
    (hi : ∀ i : InodeIx, i.val = k → ¬ Pending (s.inode i)) :
    Pushed dev (k + 1) s t := by
  have hlt : ∀ i : InodeIx, i.val < k + 1 → Pending (s.inode i) → i.val < k := by
    intro i hk hp
    have hne : i.val ≠ k := fun e => hi i e hp
    omega
  refine ⟨h.rest, fun i => ?_, h.readsClean, h.reads, fun i hk hp => h.stored i (hlt i hk hp) hp,
    h.clean⟩
  rw [h.inode]
  by_cases hp : Pending (s.inode i)
  · have hiff : i.val < k ↔ i.val < k + 1 := ⟨Nat.lt_succ_of_lt, fun hk => hlt i hk hp⟩
    simp only [hiff]
  · simp only [hp, and_false, if_false]

omit [DecidableEq β] in
theorem Pushed.wrote (h : Pushed dev i.val s t) (hs : Sound s) (hp : Pending (s.inode i))
    (hblock : t.blockOf i = some block) (hnum : (t.inode i).iNum ≠ 0) (hw : Wrote i block b t u) :
    Pushed dev (i.val + 1) s u := by
  have hi : t.inode i = s.inode i := by
    rw [h.inode, if_neg fun hc => Nat.lt_irrefl _ hc.1]
  obtain ⟨hdinode, hbitmaps, hbuffers⟩ := h.rest
  have hblock' : s.blockOf i = some block := by rw [← hblock, blockOf, blockOf, hi, hbitmaps]
  have hshort : (t.inode i).iDev % 65536 = (s.inode i).iDev := by
    rw [hi]
    exact Nat.mod_eq_of_lt (hs.short i)
  rw [hi] at hnum
  refine ⟨⟨?_, ?_, ?_⟩, fun j => ?_, hw.readsClean h.readsClean, ?_, fun j hj hpj => ?_,
    fun c hdev hd => ?_⟩
  · rw [hw.rest]
    exact hdinode
  · rw [hw.rest]
    exact hbitmaps
  · rw [hw.rest]
    exact hbuffers
  · by_cases hji : j = i
    · subst hji
      rw [hw.inode, Function.update_self, hi, if_pos ⟨Nat.lt_succ_self _, hp⟩]
    · have hne : j.val ≠ i.val := fun e => hji (Fin.ext e)
      have hiff : j.val < i.val + 1 ↔ j.val < i.val := by omega
      rw [hw.inode, Function.update_of_ne hji, h.inode]
      simp only [hiff]
  · obtain ⟨new, hq, hnew⟩ := h.reads
    obtain ⟨new', hq', hnew'⟩ := hw.reads
    refine ⟨new ++ new', ?_, fun q hmem => (List.mem_append.mp hmem).elim (hnew q) (hnew' q)⟩
    rw [hq', hq, List.append_assoc]
  · by_cases hji : j = i
    · subst hji
      obtain ⟨old, hdata, -⟩ := hw.data
      refine ⟨block, b, hblock', hnum, ⟨hw.place.1.trans hshort, hw.place.2⟩, hw.flags, hw.idle, ?_⟩
      rw [hdata, hi, Block.dInode_setDInode, if_pos rfl, hdinode]
    · have hlt : j.val < i.val := by
        have hne : j.val ≠ i.val := fun e => hji (Fin.ext e)
        omega
      obtain ⟨blockj, bj, hbj, hnumj, hst⟩ := h.stored j hlt hpj
      refine ⟨blockj, bj, hbj, hnumj, hst.wrote hw fun hdev hb => ?_⟩
      rw [hi]
      exact hs.index_ne hji hpj.2.2 (hdev.symm.trans hshort) hnumj hnum hbj (by rw [hblock', hb])
  · by_cases hcb : c = b
    · subst hcb
      rw [hw.place.1, hshort] at hdev
      rw [hw.place.2]
      exact ⟨i, hp, hdev, hblock'⟩
    · obtain ⟨hcdev, hcblock, hcdirt⟩ := (hw.others c hcb).place
      rw [hcdev] at hdev
      rw [hcdirt] at hd
      rw [hcblock]
      exact h.clean c hdev hd

/-- Where `sync_inodes` comes to a dirty entry whose block is not in the cache, some buffer is
clean and not in use. -/
def RoomToRead (drv : Driver β) (fuel dev : Nat) (s : SyncState β) : Prop :=
  ∀ s₁ t : SyncState β, ∀ i : InodeIx, s.syncBuffers drv dev = some s₁ →
    s₁.syncInodes drv (syncDev drv fuel) fuel i.val = some t → Pending (t.inode i) →
    ∀ block, t.blockOf i = some block → findBuffer t.toCaches (t.inode i).iDev block = none →
      HasClean t

omit [DecidableEq β] in
theorem lock_unlock (h : (s.inode i).iLock = false) :
    (s.setInode i { s.inode i with iLock := true }).setInode i
      { (s.setInode i { s.inode i with iLock := true }).inode i with iLock := false } = s := by
  have hsame : ({ s.inode i with iLock := false } : CoreInode) = s.inode i := by rw [← h]
  simp [setInode, hsame]

theorem syncInode_pushed {sync : Nat → SyncState β → Option (SyncState β)} {fuel : Nat}
    (hs : Sound s) (h : Pushed dev i.val s t)
    (hroom : Pending (t.inode i) → ∀ block, t.blockOf i = some block →
      findBuffer t.toCaches (t.inode i).iDev block = none → HasClean t)
    (hstep : t.syncInode drv sync fuel i = some u) : Pushed dev (i.val + 1) s u := by
  have hi : t.inode i = s.inode i := by
    rw [h.inode, if_neg fun hc => Nat.lt_irrefl _ hc.1]
  have hskip : ¬ Pending (t.inode i) → Pushed dev (i.val + 1) s t := by
    intro hno
    refine h.skip fun j hj hp => hno ?_
    rw [hi, ← Fin.ext hj]
    exact hp
  rw [syncInode] at hstep
  split at hstep
  · cases hstep
  rename_i hlock
  split at hstep
  · rename_i hdirt
    by_cases hdev : (t.inode i).iDev = 0
    · rw [writeInode, if_neg hlock] at hstep
      dsimp only at hstep
      rw [if_pos (by simp [setInode, hdev]), lock_unlock (by simpa using hlock)] at hstep
      obtain rfl := Option.some.inj hstep
      exact hskip fun hp => hp.2.2 hdev
    · obtain ⟨block, b, hblock, hnum, hw⟩ :=
        writeInode_wrote hdirt.1 hdev (hroom ⟨hdirt.1, hdirt.2, hdev⟩) hstep
      exact h.wrote hs (hi ▸ ⟨hdirt.1, hdirt.2, hdev⟩) hblock hnum hw
  · rename_i hno
    obtain rfl := Option.some.inj hstep
    exact hskip fun hp => hno ⟨hp.1, hp.2.1⟩

theorem syncInodes_succ {sync : Nat → SyncState β → Option (SyncState β)} {fuel : Nat}
    (i : InodeIx) (s : SyncState β) :
    s.syncInodes drv sync fuel (i.val + 1) =
      (s.syncInodes drv sync fuel i.val).bind fun t => t.syncInode drv sync fuel i := by
  have htake : (List.finRange NR_INODE).take (i.val + 1) = (List.finRange NR_INODE).take i.val ++
      [i] := by
    rw [List.take_add_one]
    simp
  simp only [syncInodes, htake, List.foldlM_append, List.foldlM_cons, List.foldlM_nil, bind_pure]
  rfl

theorem syncInodes_pushed {fuel k : Nat} {s₀ : SyncState β} (hs : Sound s)
    (hfirst : s₀.syncBuffers drv dev = some s)
    (hclean : ∀ b, (s.head b).bDev = dev → (s.head b).bDirt = false)
    (hroom : RoomToRead drv fuel dev s₀) (hk : k ≤ NR_INODE)
    (h : s.syncInodes drv (syncDev drv fuel) fuel k = some t) : Pushed dev k s t := by
  induction k generalizing t with
  | zero =>
    obtain rfl := Option.some.inj h
    refine ⟨⟨rfl, rfl, rfl⟩, fun i => ?_, hs.readsClean, ⟨[], ?_, ?_⟩, fun i hi => ?_,
      fun b hdev hd => ?_⟩
    · simp
    · rw [List.append_nil]
    · simp
    · cases hi
    · rw [hclean b hdev] at hd
      cases hd
  | succ k ih =>
    let i : InodeIx := ⟨k, hk⟩
    obtain ⟨u, hu, hstep⟩ := Option.bind_eq_some_iff.mp ((syncInodes_succ i s).symm.trans h)
    exact syncInode_pushed (i := i) hs (ih (Nat.le_of_lt hk) hu) (hroom s u i hfirst hu) hstep

end SyncState

def Queued.Writes (q : Queued) (dev block : Nat) : Prop :=
  q.cmd = WRITE ∧ q.dev = dev ∧ q.sector = block * 2 % 2 ^ 32 ∧ q.nrSectors = 2

open SyncState in
/-- Every dirty buffer and inode of the device is queued with its contents, and nothing clean;
none of them is dirty afterwards. -/
theorem sync_dev_leaves_nothing {β : Type} [DecidableEq β] {drv : Driver β} {dev n : Nat}
    {s t : SyncState β} (hserves : drv.Serves dev) (hs : s.Sound) (hroom : s.RoomToRead drv n dev)
    (h : s.syncDev drv (n + 1) dev = some t) :
    (∃ new, t.queued = s.queued ++ new ∧
      (∀ b, (s.head b).bDev = dev → (s.head b).bDirt = true →
        ∃ q ∈ new, q.Writes dev (s.head b).bBlocknr ∧ q.data = s.data b) ∧
      (∀ i, (s.inode i).iDev = dev → (s.inode i).iDirt = true → (s.inode i).iPipe = false →
        ∃ block, s.blockOf i = some block ∧
          ∃ q ∈ new, q.Writes dev block ∧
          q.data.dInode (inodeIndex (s.inode i).iNum) = s.dInode i) ∧
      ∀ q ∈ new, q.cmd = WRITE → q.dirt = true ∧
        ((∃ b, (s.head b).bDev = dev ∧ (s.head b).bDirt = true ∧ q.Writes dev (s.head b).bBlocknr) ∨
          ∃ i block, (s.inode i).iDev = dev ∧ (s.inode i).iDirt = true ∧ s.blockOf i = some block ∧
          q.Writes dev block)) ∧
    (∀ b, (t.head b).bDev = dev → (t.head b).bDirt = false) ∧
    ∀ i, (t.inode i).iDev = dev → (t.inode i).iDirt = false := by
  obtain ⟨s₁, hfirst, h⟩ := Option.bind_eq_some_iff.mp h
  obtain ⟨s₂, hinodes, hsecond⟩ := Option.bind_eq_some_iff.mp h
  obtain ⟨new₁, hflush₁⟩ := foldlM_flushed hserves hs.readsClean hfirst
  have hs₁ := hflush₁.sound hs
  have hinode₁ : s₁.inode = s.inode ∧ s₁.dInode = s.dInode ∧ s₁.bitmaps = s.bitmaps := by
    rw [hflush₁.rest]
    exact ⟨rfl, rfl, rfl⟩
  obtain ⟨hinode, hdinode, hbitmaps⟩ := hinode₁
  have hblockOf : ∀ i, s₁.blockOf i = s.blockOf i := fun i => by
    rw [blockOf, blockOf, hinode, hbitmaps]
  have hpushed := syncInodes_pushed hs₁ hfirst (fun b => hflush₁.clean hs.listed) hroom
    (Nat.le_refl _) hinodes
  obtain ⟨new₂, hflush₂⟩ := foldlM_flushed hserves hpushed.readsClean hsecond
  have hlisted : ∀ b, b ∈ s₂.buffers := fun b => by
    rw [hpushed.rest.2.2]
    exact hs₁.listed b
  obtain ⟨reads, hreads, hread⟩ := hpushed.reads
  refine ⟨⟨new₁ ++ reads ++ new₂, ?_, fun b hdev hd => ?_, fun i hdev hd hpipe => ?_,
    fun q hq hw => ?_⟩,
    fun b hdev => hflush₂.clean hlisted hdev, fun i hdev => ?_⟩
  · rw [hflush₂.rest, hreads, hflush₁.rest]
    simp
  · have hq := hflush₁.written b (hs.listed b) hdev hd
    exact ⟨_, List.mem_append_left _ (List.mem_append_left _ hq), ⟨rfl, hdev, rfl, rfl⟩, rfl⟩
  · have hp : Pending (s₁.inode i) := by
      rw [hinode]
      exact ⟨hd, hpipe, hdev ▸ hserves.1⟩
    obtain ⟨block, b, hblock, -, hst⟩ := hpushed.stored i i.isLt hp
    have hbdev : (s₂.head b).bDev = dev := by rw [hst.place.1, hinode, hdev]
    have hq := hflush₂.written b (hlisted b) hbdev hst.flags.1
    refine ⟨block, (hblockOf i).symm.trans hblock, _, List.mem_append_right _ hq,
      ⟨rfl, hbdev, ?_, rfl⟩, ?_⟩
    · rw [← hst.place.2]
      rfl
    · rw [← hinode, ← hdinode]
      exact hst.data
  · cases List.mem_append.mp hq with
    | inl hq =>
      cases List.mem_append.mp hq with
      | inl hq =>
        obtain ⟨b, -, hdev, hd, rfl⟩ := hflush₁.only q hq
        exact ⟨rfl, .inl ⟨b, hdev, hd, rfl, hdev, rfl, rfl⟩⟩
      | inr hq =>
        rw [hread q hq] at hw
        cases hw
    | inr hq =>
      obtain ⟨b, -, hdev, hd, rfl⟩ := hflush₂.only q hq
      obtain ⟨i, hp, hidev, hblock⟩ := hpushed.clean b hdev hd
      rw [hinode] at hp hidev
      exact ⟨rfl, .inr ⟨i, _, hidev, hp.1, (hblockOf i).symm.trans hblock, rfl, hdev, rfl, rfl⟩⟩
  · have hinode₂ : t.inode = s₂.inode := by rw [hflush₂.rest]
    rw [hinode₂, hpushed.inode] at hdev ⊢
    split at hdev
    · rename_i hp
      rw [if_pos hp]
    · rename_i hno
      rw [if_neg hno]
      by_contra hd
      refine hno ⟨i.isLt, by simpa using hd, ?_, hdev ▸ hserves.1⟩
      by_contra hpipe
      exact hserves.1 (hdev.symm.trans (hs₁.pipe i (by simpa using hpipe)))

def zeroDisk : Driver (Fin 2) :=
  { requestFn := (· = 3), done := fun _ _ => false, uptodate := fun _ _ => true,
    read := fun _ _ _ => 0 }

/-- A dirty buffer of block 7, a free buffer, and a dirty inode whose block 4 is not in the cache.
-/
def twoBuffers : SyncState (Fin 2) :=
  { buffers := [0, 1]
    head := fun b => if b = 0 then ⟨0x301, 7, true, true, 0, false⟩
      else ⟨0, 0, false, false, 0, false⟩
    chain := fun k => if k = hashfn 0x301 7 then [0] else []
    free := [0, 1]
    inode := fun i => if i = 0 then ⟨0x301, 1, false, true, false⟩ else ⟨0, 0, false, false, false⟩
    bitmaps := fun _ => some 2
    data := fun _ _ => 1, dInode := fun _ _ => 5, cmd := fun _ => none, queued := [], clock := 0 }

open SyncState in
theorem sync_dev_leaves_nothing_twoBuffers :
    ∃ t new, twoBuffers.syncDev zeroDisk 3 0x301 = some t ∧ t.queued = twoBuffers.queued ++ new ∧
      (∃ q ∈ new, q.Writes 0x301 7 ∧ q.data = fun _ => 1) ∧
      (∃ q ∈ new, q.Writes 0x301 4 ∧ q.data.dInode 0 = fun _ => 5) ∧
      (∀ b, (t.head b).bDev = 0x301 → (t.head b).bDirt = false) ∧
      ∀ i, (t.inode i).iDev = 0x301 → (t.inode i).iDirt = false := by
  have hroom : twoBuffers.RoomToRead zeroDisk 2 0x301 := by
    intro s₁ t i h₁ ht hp block hblock hmiss
    have hall : ∀ i : InodeIx, ((twoBuffers.syncBuffers zeroDisk 0x301).bind fun s₁ =>
        s₁.syncInodes zeroDisk (SyncState.syncDev zeroDisk 2) 2 i.val).all fun t =>
          decide (Pending (t.inode i) → 1 ∈ t.free ∧ (t.head 1).bCount = 0 ∧
            (t.head 1).bDirt = false) := by
      decide +kernel
    have hi := hall i
    rw [Option.bind_eq_some_iff.mpr ⟨s₁, h₁, ht⟩, Option.all_some, decide_eq_true_iff] at hi
    exact ⟨1, hi hp⟩
  have hs : twoBuffers.Sound := by
    refine ⟨?_, fun b hb => ?_, ?_, ?_, ?_⟩
    · decide
    · cases hb
    · decide
    · decide
    · decide
  obtain ⟨t, ht⟩ := Option.isSome_iff_exists.mp
    (show (twoBuffers.syncDev zeroDisk 3 0x301).isSome = true by decide +kernel)
  obtain ⟨⟨new, hnew, hbuffers, hinodes, -⟩, hclean⟩ :=
    sync_dev_leaves_nothing (n := 2) ⟨by decide, by decide, by decide⟩ hs hroom ht
  obtain ⟨block, hblock, hq⟩ := hinodes 0 rfl rfl rfl
  obtain rfl := Option.some.inj hblock
  exact ⟨t, new, ht, hnew, hbuffers 0 rfl rfl, hq, hclean⟩

end Hios.Fs
