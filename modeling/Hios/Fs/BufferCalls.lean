import Hios.Fs.BufferQueues

/-! The calls of `buffer.c` by any number of processes, in the memory that `buffer_init`
leaves. A step takes one process to the next point where it can sleep, in `wait_on_buffer`,
`sleep_on`, `sync_dev` or `ll_rw_block`, and others may run there also if it need not sleep.
Of a head `sync_dev` and `ll_rw_block` change the flags only, and those may change between
any two steps; what `sync_inodes` reads is called from within `sync_dev`. -/
namespace Hios.Fs
open Hios.Run Hios.DoublyLinked

inductive BufferCall where
  | getHashTable (dev block : Nat)
  | getblk (dev block : Nat)
  | bread (dev block : Nat)
  | brelse (buf : Option Nat)

inductive Lookup where
  | getHashTable
  | getblk
  | bread
  deriving DecidableEq

inductive LookupPc where
  /-- In `get_hash_table`, waiting for the buffer it has found. -/
  | found (bh : Nat)
  /-- On `buffer_wait`. -/
  | noBuffer
  /-- In `getblk`, waiting for the free buffer it has chosen. -/
  | chosen (bh : Nat)
  | syncDev (bh : Nat)
  /-- In `bread`, from `ll_rw_block` to the end of the read. -/
  | reading (bh : Nat)

inductive BufferFrame where
  | lookup (caller : Lookup) (dev block : Nat) (pc : LookupPc)
  | brelse (buf : Nat)
  /-- `for(;;);` -/
  | panic

inductive CallResult where
  | sleeps (f : BufferFrame)
  | returns (value : Option Nat)

namespace BufferMem

def countUp (c : BufferMem) (bh : Nat) : BufferMem :=
  c.store (some bh) fun h => { h with bCount := (h.bCount + 1) % 256 }

def countDown (c : BufferMem) (bh : Nat) : BufferMem :=
  c.store (some bh) fun h => { h with bCount := (h.bCount + 255) % 256 }

def search (c : BufferMem) (caller : Lookup) (dev block : Nat) : Option (BufferMem × CallResult) :=
  (c.findBuffer dev block).bind fun
    | some bh => some (c.countUp bh, .sleeps (.lookup caller dev block (.found bh)))
    | none =>
      if caller = .getHashTable then some (c, .returns none) else
      c.scan.map fun bh => (c, .sleeps (.lookup caller dev block (bh.elim .noBuffer .chosen)))

def obtained (c : BufferMem) (caller : Lookup) (dev block bh : Nat) : BufferMem × CallResult :=
  if caller = .bread ∧
    (c.head bh).bUptodate = false then (c, .sleeps (.lookup caller dev block (.reading bh)))
  else (c, .returns (some bh))

/-- `brelse` once the buffer is not locked. -/
def release (c : BufferMem) (buf : Nat) : BufferMem × CallResult :=
  (c.countDown buf, if (c.head buf).bCount = 0 then .sleeps .panic else .returns none)

def lookupStep (c : BufferMem) (caller : Lookup) (dev block : Nat) :
    LookupPc → Option (BufferMem × CallResult)
  | .found bh =>
    if (c.head bh).bLock then some (c, .sleeps (.lookup caller dev block (.found bh)))
    else if (c.head bh).bDev = dev % 65536 ∧
      (c.head bh).bBlocknr = block then some (c.obtained caller dev block bh)
    -- while the process slept the head has been given to another block
    else (c.countDown bh).search caller dev block
  | .noBuffer => c.search caller dev block
  | .chosen bh =>
    if (c.head bh).bLock then some (c, .sleeps (.lookup caller dev block (.chosen bh)))
    else if (c.head bh).bCount ≠ 0 then c.search caller dev block
    else if (c.head bh).bDirt then some (c, .sleeps (.lookup caller dev block (.syncDev bh)))
    else (c.findBuffer dev block).bind fun
      | some _ => c.search caller dev block
      | none => (c.take dev block bh).map fun c => c.obtained caller dev block bh
  | .syncDev bh => some (c, .sleeps (.lookup caller dev block (.chosen bh)))
  | .reading bh =>
    if (c.head bh).bLock then some (c, .sleeps (.lookup caller dev block (.reading bh)))
    else if (c.head bh).bUptodate then some (c, .returns (some bh))
    else some (c.release bh)

def frameStep (c : BufferMem) : BufferFrame → Option (BufferMem × CallResult)
  | .lookup caller dev block pc => c.lookupStep caller dev block pc
  | .brelse buf => if (c.head buf).bLock then some (c, .sleeps (.brelse buf))
    else some (c.release buf)
  | .panic => some (c, .sleeps .panic)

def callStep (c : BufferMem) : BufferCall → Option (BufferMem × CallResult)
  | .getHashTable dev block => c.search .getHashTable dev block
  | .getblk dev block => c.search .getblk dev block
  | .bread dev block => c.search .bread dev block
  | .brelse none => some (c, .returns none)
  | .brelse (some buf) => some (c, .sleeps (.brelse buf))

end BufferMem

/-- The calls a process is in, and what the last one to return has returned. -/
structure BufferProcess where
  stack : List BufferFrame
  value : Option Nat

structure BufferState (π : Type) where
  mem : BufferMem
  process : π → BufferProcess

inductive BufferAct (π : Type) where
  | call (p : π) (f : BufferCall)
  /-- The process is woken, or goes on without having slept. -/
  | go (p : π)
  /-- The holders of a buffer, `ll_rw_block` and the drivers set its flags. -/
  | flags (bh : Nat) (uptodate dirt lock : Bool)

def BufferProcess.resume (s : BufferProcess) (rest : List BufferFrame) : CallResult → BufferProcess
  | .sleeps f => ⟨f :: rest, s.value⟩
  | .returns value => ⟨rest, value⟩

section
variable {π : Type} [DecidableEq π]

def BufferState.resume (s : BufferState π) (p : π) (rest : List BufferFrame)
    (r : BufferMem × CallResult) : BufferState π :=
  ⟨r.1, Function.update s.process p ((s.process p).resume rest r.2)⟩

def bufferStep (s : BufferState π) : BufferAct π → Option (BufferState π)
  | .call p f => (s.mem.callStep f).map fun r => s.resume p (s.process p).stack r
  | .go p =>
    match (s.process p).stack with
    | [] => none
    | f :: rest => (s.mem.frameStep f).map fun r => s.resume p rest r
  | .flags bh uptodate dirt lock =>
    some { s with mem := s.mem.store (some bh) fun h =>
      { h with bUptodate := uptodate, bDirt := dirt, bLock := lock } }

end

def quiet (π : Type) (c : BufferMem) : BufferState π := ⟨c, fun _ => ⟨[], none⟩⟩

def BufferMem.heads (start : Nat) (c : BufferMem) : List Nat :=
  (List.range c.nrBuffers).map (headAt start)

structure InOrder (start : Nat) (c : BufferMem) : Prop where
  /-- The free list is a circle of all the heads. -/
  free : ∃ l : List Nat, l.Perm (c.heads start) ∧ c.freeList = l.head? ∧ Cycle.Chain (Linked c) l
  /-- A hash queue has the heads with a device whose key it is for. -/
  hash : ∀ n : Fin NR_HASH, ∃ l : List Nat, l.Nodup ∧ c.hashTable n = l.head? ∧ c.view.hash.Row l ∧
    ∀ h, h ∈ l ↔ h ∈ c.heads start ∧ (c.head h).bDev ≠ 0 ∧ c.slot h = n
  /-- A head without a device is in none. -/
  loose : ∀ h ∈ c.heads start, (c.head h).bDev = 0 → (c.head h).bNext = none ∧
    (c.head h).bPrev = none
  unique : ∀ h ∈ c.heads start, ∀ h' ∈ c.heads start, (c.head h).bDev ≠ 0 →
    (c.head h).bDev = (c.head h').bDev →
    (c.head h).bBlocknr = (c.head h').bBlocknr → h = h'

/-- A process calls `buffer.c` when it is in none of its functions, and in `sync_dev` through
`sync_inodes`. -/
def Calls : List BufferFrame → Prop
  | [] => True
  | .lookup _ _ _ (.syncDev _) :: _ => True
  | _ => False

def BufferCall.Fits (heads : List Nat) : BufferCall → Prop
  | .getHashTable dev block => dev < 65536 ∧ block < 2 ^ 32
  | .getblk dev block => dev < 65536 ∧ block < 2 ^ 32
  | .bread dev block => dev < 65536 ∧ block < 2 ^ 32
  | .brelse buf => ∀ b, buf = some b → b ∈ heads

def BufferAct.Allowed {π : Type} (heads : List Nat) (s : BufferState π) : BufferAct π → Prop
  | .call p f => Calls (s.process p).stack ∧ f.Fits heads
  | .go p => (s.process p).stack ≠ []
  | .flags _ _ _ _ => True

def LookupPc.buffer : LookupPc → Option Nat
  | .found bh => some bh
  | .noBuffer => none
  | .chosen bh => some bh
  | .syncDev bh => some bh
  | .reading bh => some bh

def BufferFrame.Fits (heads : List Nat) : BufferFrame → Prop
  | .lookup _ dev _ pc => dev < 65536 ∧ ∀ b, pc.buffer = some b → b ∈ heads
  | .brelse buf => buf ∈ heads
  | .panic => True

def CallResult.Fits (heads : List Nat) : CallResult → Prop
  | .sleeps f => f.Fits heads
  | .returns _ => True

def Ordered (heads : List Nat) (c : BufferMem) : Prop :=
  ∃ k : Caches Nat, k.buffers = heads ∧ heads ≠ [] ∧ c.view.Represents k ∧ Filed k

def ReassignsFree (c c' : BufferMem) : Prop :=
  ∀ h, (c'.head h).bDev ≠ (c.head h).bDev ∨ (c'.head h).bBlocknr ≠ (c.head h).bBlocknr →
    (c.head h).bCount = 0 ∧ (c.head h).bLock = false ∧ (c.head h).bDirt = false

def SameKeys (c c' : BufferMem) : Prop :=
  ∀ h, (c'.head h).bDev = (c.head h).bDev ∧ (c'.head h).bBlocknr = (c.head h).bBlocknr

variable {heads : List Nat} {c c' c'' : BufferMem} {caller : Lookup} {dev block bh : Nat}

theorem SameKeys.refl (c : BufferMem) : SameKeys c c := fun _ => ⟨rfl, rfl⟩

theorem SameKeys.trans (h : SameKeys c c') (h' : SameKeys c' c'') : SameKeys c c'' :=
  fun x => ⟨(h' x).1.trans (h x).1, (h' x).2.trans (h x).2⟩

theorem SameKeys.reassignsFree (h : SameKeys c c') : ReassignsFree c c' := by
  rintro x (hdev | hblock)
  · exact absurd (h x).1 hdev
  · exact absurd (h x).2 hblock

structure Waits (heads : List Nat) (c : BufferMem) (r : BufferMem × CallResult) : Prop where
  ordered : Ordered heads r.1
  fits : r.2.Fits heads
  keys : SameKeys c r.1

structure Goes (heads : List Nat) (c : BufferMem) (r : BufferMem × CallResult) : Prop where
  ordered : Ordered heads r.1
  fits : r.2.Fits heads
  free : ReassignsFree c r.1

theorem Waits.goes {r : BufferMem × CallResult} (h : Waits heads c r) : Goes heads c r :=
  ⟨h.ordered, h.fits, h.keys.reassignsFree⟩

theorem sameKeys_store {f : MemHead → MemHead}
    (hkeys : ∀ m, (f m).bDev = m.bDev ∧ (f m).bBlocknr = m.bBlocknr) :
    SameKeys c (c.store (some bh) f) := by
  intro x
  by_cases hx : x = bh
  · subst hx
    simp only [BufferMem.store, BufferMem.setHead, Function.update_self]
    exact hkeys _
  · simp only [BufferMem.store, BufferMem.setHead, Function.update_of_ne hx, and_self]

theorem store_represents {k : Caches Nat} (hrep : c.view.Represents k) (hfiled : Filed k)
    {f : MemHead → MemHead} (hkeys : ∀ m, (f m).bDev = m.bDev ∧ (f m).bBlocknr = m.bBlocknr)
    (hlinks : ∀ m, (f m).bNext = m.bNext ∧ (f m).bPrev = m.bPrev ∧ (f m).bNextFree = m.bNextFree ∧
      (f m).bPrevFree = m.bPrevFree) :
    (c.store (some bh) f).view.Represents (k.setHead bh (f (c.head bh)).core) ∧
      Filed (k.setHead bh (f (c.head bh)).core) := by
  have hhead : k.head bh = (c.head bh).core := (congrFun hrep.core bh).symm
  refine ⟨?_, hfiled.setHead ?_ ?_⟩
  · rw [BufferMem.view_store_core rfl hlinks]
    exact ⟨hrep.count, by rw [BufferMem.View.setCore, hrep.core]; rfl, hrep.free, hrep.hash⟩
  · rw [hhead]
    exact (hkeys _).1
  · rw [hhead]
    exact (hkeys _).2

theorem Ordered.store (h : Ordered heads c) {f : MemHead → MemHead}
    (hkeys : ∀ m, (f m).bDev = m.bDev ∧ (f m).bBlocknr = m.bBlocknr)
    (hlinks : ∀ m, (f m).bNext = m.bNext ∧ (f m).bPrev = m.bPrev ∧ (f m).bNextFree = m.bNextFree ∧
      (f m).bPrevFree = m.bPrevFree) : Ordered heads (c.store (some bh) f) := by
  obtain ⟨k, hk, hpos, hrep, hfiled⟩ := h
  obtain ⟨hrep', hfiled'⟩ := store_represents hrep hfiled hkeys hlinks
  exact ⟨k.setHead bh (f (c.head bh)).core, hk, hpos, hrep', hfiled'⟩

theorem Ordered.findBuffer (h : Ordered heads c) (dev block : Nat) :
    ∃ r, c.findBuffer dev block = some r ∧ ∀ b, r = some b → b ∈ heads := by
  obtain ⟨k, rfl, -, hrep, hfiled⟩ := h
  refine ⟨_, findBuffer_eq hrep hfiled dev block, fun b hb => ?_⟩
  exact ((hfiled.mem _ b).mp (List.mem_of_find?_eq_some hb)).1

theorem scanFree_mem {β : Type} {head : β → CacheHead} {l : List β} {bh : Option β} {b : β}
    (hb : scanFree head l bh = some b) : b ∈ l ∨ bh = some b := by
  induction l generalizing bh with
  | nil => exact .inr hb
  | cons tmp l ih =>
    have hmore : ∀ bh', scanFree head l bh' = some b → b ∈ tmp :: l ∨ bh' = some b := fun _ h =>
      (ih h).imp_left (List.mem_cons_of_mem tmp)
    have htmp : ∀ c, some tmp = some c → c ∈ tmp :: l :=
      fun c hc => Option.some.inj hc ▸ List.mem_cons_self
    rw [scanFree] at hb
    split at hb
    · exact hmore bh hb
    · split at hb
      · split at hb
        · exact .inl (htmp b hb)
        · exact .inl ((hmore _ hb).elim id (htmp b))
      · exact hmore bh hb

theorem Ordered.scan (h : Ordered heads c) :
    ∃ r, c.scan = some r ∧ ∀ b, r = some b → b ∈ heads := by
  obtain ⟨k, rfl, hpos, hrep, hfiled⟩ := h
  refine ⟨_, scan_eq hrep hfiled hpos, fun b hb => ?_⟩
  obtain hin | hnone := scanFree_mem hb
  · exact hfiled.free.mem_iff.mp hin
  · cases hnone

theorem Ordered.take (h : Ordered heads c) (hb : bh ∈ heads)
    (hnone : c.findBuffer dev block = some none) (hdev : dev < 65536) :
    ∃ c', c.take dev block bh = some c' ∧ Ordered heads c' ∧
      ∀ x, x ≠ bh → (c'.head x).bDev = (c.head x).bDev ∧
      (c'.head x).bBlocknr = (c.head x).bBlocknr := by
  obtain ⟨k, rfl, hpos, hrep, hfiled⟩ := h
  obtain ⟨c', htake, hrep'⟩ := take_represents dev block hrep hfiled hb
  rw [findBuffer_eq hrep hfiled] at hnone
  refine ⟨c', htake, ⟨takeBuffer k dev block bh, rfl, hpos, hrep',
    hfiled.take hb (Option.some.inj hnone) hdev⟩, fun x hx => ?_⟩
  have hnew : (c'.head x).core = k.head x :=
    (congrFun hrep'.core x).trans (takeBuffer_head_of_ne hx)
  have hold : (c.head x).core = k.head x := congrFun hrep.core x
  have hsame : (c'.head x).core = (c.head x).core := hnew.trans hold.symm
  exact ⟨congrArg CacheHead.bDev hsame, congrArg CacheHead.bBlocknr hsame⟩

theorem Ordered.countUp (h : Ordered heads c) (bh : Nat) : Ordered heads (c.countUp bh) :=
  h.store (fun _ => ⟨rfl, rfl⟩) fun _ => ⟨rfl, rfl, rfl, rfl⟩

theorem Ordered.countDown (h : Ordered heads c) (bh : Nat) : Ordered heads (c.countDown bh) :=
  h.store (fun _ => ⟨rfl, rfl⟩) fun _ => ⟨rfl, rfl, rfl, rfl⟩

theorem sameKeys_countUp (c : BufferMem) (bh : Nat) : SameKeys c (c.countUp bh) :=
  sameKeys_store fun _ => ⟨rfl, rfl⟩

theorem sameKeys_countDown (c : BufferMem) (bh : Nat) : SameKeys c (c.countDown bh) :=
  sameKeys_store fun _ => ⟨rfl, rfl⟩

theorem Ordered.search (h : Ordered heads c) (caller : Lookup) (hdev : dev < 65536) (block : Nat) :
    ∃ r, c.search caller dev block = some r ∧ Waits heads c r := by
  obtain ⟨found, hfound, hin⟩ := h.findBuffer dev block
  rw [BufferMem.search, hfound, Option.bind_some]
  cases found with
  | some bh => exact ⟨_, rfl, h.countUp bh, ⟨hdev, hin⟩, sameKeys_countUp c bh⟩
  | none =>
    obtain ⟨free, hfree, hin⟩ := h.scan
    by_cases hcaller : caller = .getHashTable
    · exact ⟨_, if_pos hcaller, h, trivial, .refl c⟩
    · refine ⟨_, (if_neg hcaller).trans (congrArg (Option.map _) hfree), h,
        ⟨hdev, fun b hb => ?_⟩, .refl c⟩
      cases free with
      | none => cases hb
      | some bh => exact hin b hb

theorem Ordered.obtained (h : Ordered heads c) (caller : Lookup) (hdev : dev < 65536)
    (block : Nat) (hb : bh ∈ heads) :
    Waits heads c (c.obtained caller dev block bh) := by
  rw [BufferMem.obtained]
  split
  · exact ⟨h, ⟨hdev, fun b e => Option.some.inj e ▸ hb⟩, .refl c⟩
  · exact ⟨h, trivial, .refl c⟩

theorem Ordered.release (h : Ordered heads c) (buf : Nat) : Waits heads c (c.release buf) := by
  refine ⟨h.countDown buf, ?_, sameKeys_countDown c buf⟩
  rw [BufferMem.release]
  split
  · trivial
  · trivial

theorem Ordered.stays (h : Ordered heads c) (f : BufferFrame) (hf : f.Fits heads) :
    Goes heads c (c, .sleeps f) :=
  ⟨h, hf, (SameKeys.refl c).reassignsFree⟩

/-- From the wait to the end of `getblk` nobody else runs, so what it has seen of the buffer still
holds. -/
theorem Ordered.takes (h : Ordered heads c) (caller : Lookup) (hdev : dev < 65536) (block : Nat)
    (hb : bh ∈ heads) (hlock : (c.head bh).bLock = false) (hcount : (c.head bh).bCount = 0)
    (hdirt : (c.head bh).bDirt = false) (hnone : c.findBuffer dev block = some none) :
    ∃ r, (c.take dev block bh).map (fun c => c.obtained caller dev block bh) = some r ∧
    Goes heads c r := by
  obtain ⟨c', htake, hord, hothers⟩ := h.take hb hnone hdev
  have hobtained := hord.obtained caller hdev block hb
  refine ⟨_, congrArg (Option.map _) htake, hobtained.ordered, hobtained.fits, fun x hx => ?_⟩
  by_cases hxb : x = bh
  · subst hxb
    exact ⟨hcount, hlock, hdirt⟩
  · rw [(hobtained.keys x).1, (hobtained.keys x).2] at hx
    obtain hdev | hblock := hx
    · exact absurd (hothers x hxb).1 hdev
    · exact absurd (hothers x hxb).2 hblock

theorem Ordered.lookupStep (h : Ordered heads c) (caller : Lookup) (block : Nat) {pc : LookupPc}
    (hfits : (BufferFrame.lookup caller dev block pc).Fits heads) :
    ∃ r, c.lookupStep caller dev block pc = some r ∧ Goes heads c r := by
  obtain ⟨hdev, hin⟩ := hfits
  have hsearch : ∀ {d : BufferMem}, Ordered heads d → SameKeys c d →
      ∃ r, d.search caller dev block = some r ∧ Goes heads c r := by
    intro d hd hkeys
    obtain ⟨r, hr, hw⟩ := hd.search caller hdev block
    exact ⟨r, hr, hw.ordered, hw.fits, (hkeys.trans hw.keys).reassignsFree⟩
  have hstays : ∀ pc' : LookupPc, pc'.buffer = pc.buffer →
      Goes heads c (c, .sleeps (.lookup caller dev block pc')) := by
    intro pc' hpc
    rw [← hpc] at hin
    exact h.stays _ ⟨hdev, hin⟩
  cases pc with
  | found bh =>
    rw [BufferMem.lookupStep]
    split
    · exact ⟨_, rfl, hstays _ rfl⟩
    · split
      · exact ⟨_, rfl, (h.obtained caller hdev block (hin bh rfl)).goes⟩
      · exact hsearch (h.countDown bh) (sameKeys_countDown c bh)
  | noBuffer => exact hsearch h (.refl c)
  | chosen bh =>
    rw [BufferMem.lookupStep]
    by_cases hlock : (c.head bh).bLock = true
    · exact ⟨_, if_pos hlock, hstays _ rfl⟩
    rw [if_neg hlock]
    by_cases hcount : (c.head bh).bCount ≠ 0
    · rw [if_pos hcount]
      exact hsearch h (.refl c)
    rw [if_neg hcount]
    by_cases hdirt : (c.head bh).bDirt = true
    · exact ⟨_, if_pos hdirt, hstays _ rfl⟩
    rw [if_neg hdirt]
    obtain ⟨found, hfound, -⟩ := h.findBuffer dev block
    rw [hfound, Option.bind_some]
    cases found with
    | some b => exact hsearch h (.refl c)
    | none =>
      exact h.takes caller hdev block (hin bh rfl) (by simpa using hlock) (not_not.mp hcount)
        (by simpa using hdirt) hfound
  | syncDev bh => exact ⟨_, rfl, hstays _ rfl⟩
  | reading bh =>
    rw [BufferMem.lookupStep]
    split
    · exact ⟨_, rfl, hstays _ rfl⟩
    · split
      · exact ⟨_, rfl, h, trivial, (SameKeys.refl c).reassignsFree⟩
      · exact ⟨_, rfl, (h.release bh).goes⟩

theorem Ordered.frameStep (h : Ordered heads c) {f : BufferFrame} (hfits : f.Fits heads) :
    ∃ r, c.frameStep f = some r ∧ Goes heads c r := by
  cases f with
  | lookup caller dev block pc => exact h.lookupStep caller block hfits
  | brelse buf =>
    rw [BufferMem.frameStep]
    split
    · exact ⟨_, rfl, h.stays (.brelse buf) hfits⟩
    · exact ⟨_, rfl, (h.release buf).goes⟩
  | panic => exact ⟨_, rfl, h.stays .panic trivial⟩

theorem Ordered.callStep (h : Ordered heads c) {f : BufferCall} (hfits : f.Fits heads) :
    ∃ r, c.callStep f = some r ∧ Goes heads c r := by
  have hsearch : ∀ caller dev block, dev < 65536 → ∃ r, c.search caller dev block = some r ∧
      Goes heads c r := by
    intro caller dev block hdev
    obtain ⟨r, hr, hw⟩ := h.search caller hdev block
    exact ⟨r, hr, hw.goes⟩
  cases f with
  | getHashTable dev block => exact hsearch _ dev block hfits.1
  | getblk dev block => exact hsearch _ dev block hfits.1
  | bread dev block => exact hsearch _ dev block hfits.1
  | brelse buf =>
    cases buf with
    | none => exact ⟨_, rfl, h, trivial, (SameKeys.refl c).reassignsFree⟩
    | some b => exact ⟨_, rfl, h.stays (.brelse b) (hfits b rfl)⟩

section
variable {π : Type} [DecidableEq π] {s t : BufferState π}

structure BufferState.Inv (heads : List Nat) (s : BufferState π) : Prop where
  ordered : Ordered heads s.mem
  fits : ∀ p, ∀ f ∈ (s.process p).stack, f.Fits heads

theorem BufferState.Inv.resume (h : s.Inv heads) (p : π) {rest : List BufferFrame}
    {r : BufferMem × CallResult} (hrest : ∀ f ∈ rest, f.Fits heads) (hr : Goes heads s.mem r) :
    (s.resume p rest r).Inv heads := by
  refine ⟨hr.ordered, fun q f hf => ?_⟩
  by_cases hq : q = p
  · subst hq
    simp only [BufferState.resume, Function.update_self] at hf
    have hfits := hr.fits
    cases hres : r.2 with
    | sleeps g =>
      rw [hres] at hf hfits
      obtain rfl | hf := List.mem_cons.mp hf
      · exact hfits
      · exact hrest f hf
    | returns value =>
      rw [hres] at hf
      exact hrest f hf
  · simp only [BufferState.resume, Function.update_of_ne hq] at hf
    exact h.fits q f hf

/-- A step that is allowed is taken: no search runs off its list, and `remove_from_queues` finds no
corrupted one. -/
theorem bufferStep_inv (h : s.Inv heads) {a : BufferAct π} (ha : a.Allowed heads s) :
    ∃ t, bufferStep s a = some t ∧ t.Inv heads ∧ ReassignsFree s.mem t.mem := by
  cases a with
  | call p f =>
    obtain ⟨r, hr, hgoes⟩ := h.ordered.callStep ha.2
    exact ⟨_, congrArg (Option.map _) hr, h.resume p (h.fits p) hgoes, hgoes.free⟩
  | go p =>
    cases hstack : (s.process p).stack with
    | nil => exact absurd hstack ha
    | cons f rest =>
      have hfits := h.fits p
      rw [hstack] at hfits
      obtain ⟨r, hr, hgoes⟩ := h.ordered.frameStep (hfits f List.mem_cons_self)
      have hstep : bufferStep s (.go p) = (s.mem.frameStep f).map fun r => s.resume p rest r := by
        simp only [bufferStep, hstack]
      rw [hstep, hr]
      exact ⟨_, rfl, h.resume p (fun g hg => hfits g (List.mem_cons_of_mem f hg)) hgoes, hgoes.free⟩
  | flags bh uptodate dirt lock =>
    have hkeys : ∀ m : MemHead,
      ({ m with bUptodate := uptodate, bDirt := dirt, bLock := lock } : MemHead).bDev = m.bDev ∧
        ({ m with bUptodate := uptodate, bDirt := dirt, bLock := lock } : MemHead).bBlocknr =
          m.bBlocknr :=
      fun _ => ⟨rfl, rfl⟩
    exact ⟨_, rfl, ⟨h.ordered.store hkeys fun _ => ⟨rfl, rfl, rfl, rfl⟩, h.fits⟩,
      (sameKeys_store hkeys).reassignsFree⟩

end

theorem ring_iff_linked (c : BufferMem) (l : List Nat) :
    c.view.free.Ring (l.map some) ↔ Cycle.Chain (Linked c) l := by
  have hjoined : ∀ x y : Nat, c.view.free.Joined (some x) (some y) ↔ Linked c x y := by
    intro x y
    refine ⟨fun h => ⟨h.1 x rfl, h.2 y rfl⟩, fun h => ⟨fun a ha => ?_, fun a ha => ?_⟩⟩
    · exact Option.some.inj ha ▸ h.1
    · exact Option.some.inj ha ▸ h.2
  rw [Links.Ring, ← Cycle.map_coe, Cycle.chain_map]
  simp only [hjoined]

theorem Ordered.inOrder {start : Nat} (h : Ordered heads c)
    (hheads : heads = (List.range heads.length).map (headAt start)) :
    InOrder start c := by
  obtain ⟨k, rfl, hpos, hrep, hfiled⟩ := h
  have hcount : c.nrBuffers = k.buffers.length := hrep.count
  have hall : c.heads start = k.buffers := by
    rw [BufferMem.heads, hcount]
    exact hheads.symm
  have hhead : ∀ x, k.head x = (c.head x).core := fun x => (congrFun hrep.core x).symm
  have hmem : ∀ (n : Fin NR_HASH) (x : Nat), x ∈ k.chain n ↔ x ∈ k.buffers ∧ (c.head x).bDev ≠ 0 ∧
      c.slot x = n := by
    intro n x
    rw [hfiled.mem, hhead, Fin.ext_iff]
    rfl
  refine ⟨⟨k.free, hall ▸ hfiled.free, hrep.free.head, (ring_iff_linked c _).mp hrep.free.ring⟩,
    fun n => ?_, ?_, ?_⟩
  · refine ⟨k.chain n, hfiled.nodup n, hrep.hash.head n, hrep.hash.linked n, fun x => ?_⟩
    rw [hall]
    exact hmem n x
  · intro x hx hzero
    rw [hall] at hx
    exact hrep.hash.loose x hx fun n hn => ((hmem n x).mp hn).2.1 hzero
  · intro x hx y hy
    rw [hall] at hx hy
    have h := hfiled.unique x hx y hy
    rw [hhead, hhead] at h
    exact h

theorem cacheMade_ordered {start bufferEnd n : Nat} (head : Nat → MemHead)
    (harea : BufferArea start bufferEnd) (hpos : 0 < n) (hfit : ∀ j < n, Fits start bufferEnd j) :
    Ordered ((List.range n).map (headAt start)) (cacheMade start bufferEnd n head) := by
  let c := cacheMade start bufferEnd n head
  let k : Caches Nat :=
    ⟨(List.range n).map (headAt start), c.view.core, fun _ => [], (List.range n).map (headAt start),
      fun _ => ⟨0, 0, false, false, false⟩, fun _ => none⟩
  have hlinear := cacheMade_linear head harea hpos hfit
  have hblank : ∀ x ∈ k.buffers, NoBlock (c.head x) := by
    intro x hx
    obtain ⟨i, hi, rfl⟩ := List.mem_map.mp hx
    exact cacheMade_noBlock head (List.mem_range.mp hi)
  have hne : k.buffers ≠ [] := by
    simpa [k] using Nat.pos_iff_ne_zero.mp hpos
  have hnodup : k.buffers.Nodup := List.nodup_range.map fun i j h => headAt_inj h
  have hfirst : c.freeList = k.free.head? := by
    obtain ⟨m, rfl⟩ : ∃ m, n = m + 1 := ⟨n - 1, by omega⟩
    rw [hlinear.first]
    simp [k, List.range_succ_eq_map, headAt]
  have hcircle := hlinear.circle hpos
  rw [hlinear.count] at hcircle
  refine ⟨k, rfl, hne, ⟨?_, rfl, ⟨hfirst, (ring_iff_linked c _).mpr hcircle, hnodup⟩, ?_⟩,
    ⟨.refl _, fun _ => List.nodup_nil, ?_, ?_⟩⟩
  · exact hlinear.count.trans (by simp [k])
  · have hrows : Rows c.view.hash c.view.table fun n : Fin NR_HASH => k.chain n :=
      ⟨fun _ => rfl, fun _ => row_nil _, fun _ => List.nodup_nil,
        fun _ _ _ ha => absurd ha List.not_mem_nil⟩
    exact ⟨hrows, fun x hx _ => ⟨(hblank x hx).next, (hblank x hx).prev⟩⟩
  · exact fun n x => ⟨fun hx => absurd hx List.not_mem_nil,
      fun hx => absurd (hblank x hx.1).dev hx.2.1⟩
  · exact fun x hx _ _ hzero _ _ => absurd (hblank x hx).dev hzero

/-- The queues of the buffer cache are in order in every state that calls of any number of processes
come to after `buffer_init`, and a head that a step gives to another block is free, unlocked and
clean. -/
theorem buffer_queues_in_order (head : Nat → MemHead) (start bufferEnd : Nat)
    (hlow : start < HOLE_START) (hhigh : HOLE_END ≤ bufferEnd) (hword : bufferEnd < 2 ^ 32)
    (hwhole : BLOCK_SIZE ∣ bufferEnd)
    (hone : start + HEAD_SIZE + BLOCK_SIZE ≤ bufferTop bufferEnd) :
    ∃ c, (∀ fuel, bufferEnd / BLOCK_SIZE < fuel →
      bufferInit fuel start bufferEnd (loaded head) = some c) ∧
      ∀ (π : Type) [DecidableEq π] (acts : List (BufferAct π)),
        Serves bufferStep (fun s a => a.Allowed (c.heads start) s) (fun s => InOrder start s.mem ∧
          ∀ a t, a.Allowed (c.heads start) s → bufferStep s a = some t → ReassignsFree s.mem t.mem)
            (quiet π c) acts := by
  have harea : BufferArea start bufferEnd := ⟨hlow, hhigh, hword, hwhole⟩
  obtain ⟨n, hn, hpos, hfit, hstop⟩ := exists_count harea hone
  let c := cacheMade start bufferEnd n head
  have hcount : c.nrBuffers = n := (cacheMade_linear head harea hpos hfit).count
  have hord : Ordered (c.heads start) c := by
    rw [BufferMem.heads, hcount]
    exact cacheMade_ordered head harea hpos hfit
  have hheads : c.heads start = (List.range (c.heads start).length).map (headAt start) := by
    simp [BufferMem.heads]
  refine ⟨c, fun fuel hfuel => bufferInit_eq head harea hpos hfit hstop (by omega),
    fun π _ acts => ?_⟩
  have hinv : (quiet π c).Inv (c.heads start) := ⟨hord, fun p f hf => absurd hf List.not_mem_nil⟩
  refine serves_of_inv (I := fun s => s.Inv (c.heads start)) (fun s a hs ha => ?_)
    (fun s hs => ⟨?_, fun a t ha hst => ?_⟩) hinv acts
  · obtain ⟨t, hst, hinv, -⟩ := bufferStep_inv hs ha
    exact ⟨t, hst, hinv⟩
  · exact hs.ordered.inOrder hheads
  · obtain ⟨u, hsu, -, hfree⟩ := bufferStep_inv hs ha
    exact Option.some.inj (hsu.symm.trans hst) ▸ hfree

/-- The cache that this kernel has, below 640 KB: two processes ask for one block, and a third
releases a buffer that nobody holds. -/
theorem buffer_queues_in_order_1MB :
    ∃ c, (∀ fuel, 0x100000 / BLOCK_SIZE < fuel →
      bufferInit fuel 0x20000 0x100000 (loaded fun _ => blankHead) = some c) ∧
      Serves bufferStep (fun s a => a.Allowed (c.heads 0x20000) s) (fun s => InOrder 0x20000 s.mem ∧
        ∀ a t, a.Allowed (c.heads 0x20000) s → bufferStep s a = some t → ReassignsFree s.mem t.mem)
          (quiet (Fin 3) c)
        [.call 0 (.bread 0x301 1), .call 1 (.getblk 0x301 1), .go 0,
          .flags 0x20000 false false true, .go 1, .go 0,
          .flags 0x20000 true false false, .go 0, .go 1, .go 1, .call 2 (.brelse (some 0x20024)),
            .go 2] := by
  obtain ⟨c, hrun, hserves⟩ := buffer_queues_in_order (fun _ => blankHead) 0x20000 0x100000
    (by decide) (by decide)
    (by decide) (by decide) (by decide)
  exact ⟨c, hrun, hserves (Fin 3) _⟩

end Hios.Fs
