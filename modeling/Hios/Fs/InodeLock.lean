import Hios.Fs.Inode
import Hios.Fs.BufferHead
import Hios.Lib.Run

/-! `read_inode` and `write_inode` call `bread` with their inode locked, and `bread`
may come back to the inode table through `getblk`, `sync_dev` and `sync_inodes`. One
process is the stack of the calls it is in, a step what it does up to the next point
where it may sleep. -/
namespace Hios.Fs
open Hios.Run
variable {β : Type} [DecidableEq β]

structure CacheHead where
  bDev : Nat
  bBlocknr : Nat
  bUptodate : Bool
  bDirt : Bool
  bCount : Nat
  bLock : Bool
  deriving DecidableEq

structure CoreInode where
  iDev : Nat
  iNum : Nat
  iLock : Bool
  iDirt : Bool
  iPipe : Bool
  deriving DecidableEq

/-- The heads in the order of the table, the hash lists and the free list, and the inode
table. `bitmaps` is `s_imap_blocks + s_zmap_blocks` of a device's super block, if
`get_super` finds one. -/
structure Caches (β : Type) where
  buffers : List β
  head : β → CacheHead
  chain : Nat → List β
  free : List β
  inode : InodeIx → CoreInode
  bitmaps : Nat → Option Nat

def Caches.setHead (k : Caches β) (b : β) (h : CacheHead) : Caches β :=
  { k with head := Function.update k.head b h }

def Caches.setInode (k : Caches β) (i : InodeIx) (m : CoreInode) : Caches β :=
  { k with inode := Function.update k.inode i m }

def hashfn (dev block : Nat) : Nat := (dev ^^^ block) % NR_HASH

inductive BreadPc (β : Type) where
  /-- The label `repeat`. -/
  | search
  /-- In `get_hash_table`, waiting for the buffer it has found. -/
  | found (b : β)
  /-- Waiting for the free buffer it has chosen, also after `sync_dev`. -/
  | chosen (b : β)
  /-- Back in `bread`. -/
  | got (b : β)
  /-- The read is under way. -/
  | reading (b : β)
  deriving DecidableEq

inductive InodePc (β : Type) where
  | lock
  | locked
  | calling
  | read (bh : Option β)
  | release (b : β)
  deriving DecidableEq

inductive SyncPc where
  | first (k : Nat)
  | inodes (j : Nat)
  | second (k : Nat)
  deriving DecidableEq

inductive Frame (β : Type) where
  | bread (dev block : Nat) (pc : BreadPc β)
  | inode (write : Bool) (i : InodeIx) (pc : InodePc β)
  | syncDev (dev : Nat) (pc : SyncPc)
  deriving DecidableEq

abbrev Stepped (β : Type) := Option (Caches β × List (Frame β))

def findBuffer (k : Caches β) (dev block : Nat) : Option β :=
  (k.chain (hashfn dev block)).find? fun b => (k.head b).bDev = dev % 65536 ∧
    (k.head b).bBlocknr = block

def BADNESS (h : CacheHead) : Nat := 2 * h.bDirt.toNat + h.bLock.toNat

/-- The `do` loop of `getblk` over the free list. -/
def scanFree (head : β → CacheHead) : List β → Option β → Option β
  | [], bh => bh
  | tmp :: l, bh =>
    if (head tmp).bCount ≠ 0 then scanFree head l bh
    else if bh.all fun b => BADNESS (head tmp) < BADNESS (head b) then
      if BADNESS (head tmp) = 0 then some tmp else scanFree head l (some tmp)
    else scanFree head l bh

/-- The end of `getblk`: the buffer leaves its queues and is put into new ones. -/
def takeBuffer (k : Caches β) (dev block : Nat) (b : β) : Caches β :=
  let old := hashfn (k.head b).bDev (k.head b).bBlocknr
  let chain := Function.update k.chain old ((k.chain old).erase b)
  let dev := dev % 65536
  { k with
    head := Function.update k.head b
      { k.head b with
        bCount := 1, bDirt := false, bUptodate := false, bDev := dev, bBlocknr := block }
    chain := if dev = 0 then chain
      else Function.update chain (hashfn dev block) (b :: chain (hashfn dev block))
    free := k.free.erase b ++ [b] }

/-- `bread` returns to the inode function that has called it. -/
def returnBread (k : Caches β) (bh : Option β) : List (Frame β) → Stepped β
  | .inode write i .calling :: rest => some (k, .inode write i (.read bh) :: rest)
  | _ => none

/-- `brelse` once the buffer is not locked. -/
def releaseBuffer (k : Caches β) (b : β) : Option (Caches β) :=
  if (k.head b).bCount = 0 then none
  else some (k.setHead b { k.head b with bCount := (k.head b).bCount - 1 })

def breadStep (k : Caches β) (dev block : Nat) (rest : List (Frame β)) : BreadPc β → Stepped β
  | .search =>
    match findBuffer k dev block with
    | some b =>
      let k := k.setHead b { k.head b with bCount := ((k.head b).bCount + 1) % 256 }
      some (k, .bread dev block (.found b) :: rest)
    | none =>
      match scanFree k.head k.free none with
      | none => some (k, .bread dev block .search :: rest)
      | some b => some (k, .bread dev block (.chosen b) :: rest)
  | .found b =>
    if (k.head b).bLock then some (k, .bread dev block (.found b) :: rest)
    else if (k.head b).bDev = dev % 65536 ∧
      (k.head b).bBlocknr = block then some (k, .bread dev block (.got b) :: rest)
    else
      let k := k.setHead b { k.head b with bCount := ((k.head b).bCount + 255) % 256 }
      some (k, .bread dev block .search :: rest)
  | .chosen b =>
    if (k.head b).bLock then some (k, .bread dev block (.chosen b) :: rest)
    else if (k.head b).bCount ≠ 0 then some (k, .bread dev block .search :: rest)
    else if (k.head b).bDirt then
      some (k, .syncDev (k.head b).bDev (.first 0) :: .bread dev block (.chosen b) :: rest)
    else if (findBuffer k dev block).isSome then some (k, .bread dev block .search :: rest)
    else some (takeBuffer k dev block b, .bread dev block (.got b) :: rest)
  | .got b =>
    if (k.head b).bUptodate then returnBread k (some b) rest
    -- `ll_rw_block` waits in `lock_buffer`, and the driver unlocks the buffer again
    else if (k.head b).bLock then some (k, .bread dev block (.got b) :: rest)
    else some (k.setHead b { k.head b with bLock := true }, .bread dev block (.reading b) :: rest)
  | .reading b =>
    if (k.head b).bLock then some (k, .bread dev block (.reading b) :: rest)
    else if (k.head b).bUptodate then returnBread k (some b) rest
    else (releaseBuffer k b).bind fun k => returnBread k none rest

def inodeStep (k : Caches β) (write : Bool) (i : InodeIx) (rest : List (Frame β)) :
    InodePc β → Stepped β
  | .lock =>
    if (k.inode i).iLock then some (k, .inode write i .lock :: rest)
    else some (k.setInode i { k.inode i with iLock := true }, .inode write i .locked :: rest)
  | .locked =>
    if write ∧ ((k.inode i).iDirt = false ∨ (k.inode i).iDev = 0) then
      some (k.setInode i { k.inode i with iLock := false }, rest)
    else
      match k.bitmaps (k.inode i).iDev with
      | none => none
      | some n =>
        let block := 2 + n + ((k.inode i).iNum - 1) / INODES_PER_BLOCK
        some (k, .bread (k.inode i).iDev block .search :: .inode write i .calling :: rest)
  | .calling => none
  | .read none => none
  | .read (some b) =>
    let k := if write then
        (k.setHead b { k.head b with bDirt := true }).setInode i { k.inode i with iDirt := false }
      else k
    some (k, .inode write i (.release b) :: rest)
  | .release b =>
    if (k.head b).bLock then some (k, .inode write i (.release b) :: rest)
    else (releaseBuffer k b).map fun k => (k.setInode i { k.inode i with iLock := false }, rest)

/-- One turn of a loop of `sync_dev` over the buffers. A write that is asked for locks
the buffer and clears `b_dirt`. -/
def syncBuffer (k : Caches β) (dev : Nat) (b : β) : Option (Caches β) :=
  if (k.head b).bDev ≠ dev then some k
  else if (k.head b).bLock then none
  else if (k.head b).bDirt then some (k.setHead b { k.head b with bLock := true, bDirt := false })
  else some k

def syncStep (k : Caches β) (dev : Nat) (rest : List (Frame β)) : SyncPc → Stepped β
  | .first n =>
    match k.buffers[n]? with
    | none => some (k, .syncDev dev (.inodes 0) :: rest)
    | some b =>
      match syncBuffer k dev b with
      | none => some (k, .syncDev dev (.first n) :: rest)
      | some k => some (k, .syncDev dev (.first (n + 1)) :: rest)
  | .inodes j =>
    if h : j < NR_INODE then
      if (k.inode ⟨j, h⟩).iLock then some (k, .syncDev dev (.inodes j) :: rest)
      else if (k.inode ⟨j, h⟩).iDirt ∧ (k.inode ⟨j, h⟩).iPipe = false then
        some (k, .inode true ⟨j, h⟩ .lock :: .syncDev dev (.inodes (j + 1)) :: rest)
      else some (k, .syncDev dev (.inodes (j + 1)) :: rest)
    else some (k, .syncDev dev (.second 0) :: rest)
  | .second n =>
    match k.buffers[n]? with
    | none => some (k, rest)
    | some b =>
      match syncBuffer k dev b with
      | none => some (k, .syncDev dev (.second n) :: rest)
      | some k => some (k, .syncDev dev (.second (n + 1)) :: rest)

def stackStep (k : Caches β) : List (Frame β) → Stepped β
  | [] => none
  | .bread dev block pc :: rest => breadStep k dev block rest pc
  | .inode write i pc :: rest => inodeStep k write i rest pc
  | .syncDev dev pc :: rest => syncStep k dev rest pc

structure LockState (β : Type) where
  caches : Caches β
  stack : List (Frame β)

inductive LockAct (β : Type) where
  /-- The process goes on; where it sleeps it stays. -/
  | go
  /-- Other processes and the disk have changed the caches. -/
  | others (k : Caches β)

def InodePc.holds : InodePc β → Bool
  | .lock => false
  | _ => true

def Frame.holds (i : InodeIx) : Frame β → Bool
  | .inode _ j pc => decide (j = i) && pc.holds
  | _ => false

def HoldsInode (stack : List (Frame β)) (i : InodeIx) : Prop := stack.any (Frame.holds i) = true

instance (stack : List (Frame β)) (i : InodeIx) : Decidable (HoldsInode stack i) :=
  inferInstanceAs (Decidable (_ = true))

def WaitsForInode : List (Frame β) → InodeIx → Prop
  | .inode _ j .lock :: _, i => j = i
  | .syncDev _ (.inodes j) :: _, i => j = i.val
  | _, _ => False

/-- Nobody else unlocks an inode that the process has locked. -/
def keepLocked (stack : List (Frame β)) (k : Caches β) : Caches β :=
  { k with inode := fun i => if HoldsInode stack i then { k.inode i with iLock := true }
    else k.inode i }

def lockStep (s : LockState β) : LockAct β → Option (LockState β)
  | .go => (stackStep s.caches s.stack).map fun r => ⟨r.1, r.2⟩
  | .others k => some ⟨keepLocked s.stack k, s.stack⟩

/-- A call of `read_inode` or `write_inode`. -/
def callInode (k : Caches β) (write : Bool) (i : InodeIx) : LockState β :=
  ⟨k, [.inode write i .lock]⟩

/-- When `getblk` has waited for the free buffer it has chosen, that buffer is in use or clean. -/
def ChosenClean (s : LockState β) : LockAct β → Prop
  | .go => ∀ dev block b rest, s.stack = .bread dev block (.chosen b) :: rest →
    (s.caches.head b).bLock = false →
      (s.caches.head b).bCount = 0 → (s.caches.head b).bDirt = false
  | .others _ => True

def WaitsForOwn (s : LockState β) : Prop := ∃ i, HoldsInode s.stack i ∧ WaitsForInode s.stack i

variable {k k' : Caches β} {i j : InodeIx} {write : Bool} {rest stack : List (Frame β)}
  {s t : LockState β}

inductive Direct (write : Bool) (i : InodeIx) : List (Frame β) → Prop where
  | done : Direct write i []
  | inode (pc : InodePc β) : Direct write i [.inode write i pc]
  | bread (dev block : Nat) (pc : BreadPc β) :
    Direct write i [.bread dev block pc, .inode write i .calling]

omit [DecidableEq β] in
theorem Direct.not_waits (h : Direct write i stack) (hj : HoldsInode stack j) :
    ¬ WaitsForInode stack j := by
  cases h with
  | done => exact id
  | bread dev block pc => exact id
  | inode pc =>
    cases pc with
    | lock => simp [HoldsInode, Frame.holds, InodePc.holds] at hj
    | locked => exact id
    | calling => exact id
    | read bh => exact id
    | release b => exact id

/-- A step of `bread` stays in it, or returns, or goes on to `sync_dev` for a dirty buffer. -/
theorem breadStep_cases {dev block : Nat} {pc : BreadPc β} {stack : List (Frame β)}
    (h : breadStep k dev block rest pc = some (k', stack)) :
    (∃ pc', stack = .bread dev block pc' :: rest) ∨
      (∃ write i bh rest', rest = .inode write i .calling :: rest' ∧
        stack = .inode write i (.read bh) :: rest') ∨
      (∃ b, pc = .chosen b ∧ (k.head b).bLock = false ∧ (k.head b).bCount = 0 ∧
        (k.head b).bDirt = true ∧ k' = k ∧
        stack = .syncDev (k.head b).bDev (.first 0) :: .bread dev block (.chosen b) :: rest) := by
  have hreturn : ∀ (k₁ : Caches β) (bh : Option β), returnBread k₁ bh rest = some (k', stack) →
      ∃ write i bh rest', rest = .inode write i .calling :: rest' ∧
        stack = .inode write i (.read bh) :: rest' := by
    intro k₁ bh hret
    unfold returnBread at hret
    split at hret
    · rename_i write i rest'
      exact ⟨write, i, bh, rest', rfl, by simpa using (Prod.mk.inj (Option.some.inj hret)).2.symm⟩
    · cases hret
  cases pc with
  | search =>
    refine .inl ?_
    simp only [breadStep] at h
    split at h
    · exact ⟨_, (Prod.mk.inj (Option.some.inj h)).2.symm⟩
    · split at h
      · exact ⟨_, (Prod.mk.inj (Option.some.inj h)).2.symm⟩
      · exact ⟨_, (Prod.mk.inj (Option.some.inj h)).2.symm⟩
  | found b =>
    refine .inl ?_
    simp only [breadStep] at h
    split at h
    · exact ⟨_, (Prod.mk.inj (Option.some.inj h)).2.symm⟩
    · split at h
      · exact ⟨_, (Prod.mk.inj (Option.some.inj h)).2.symm⟩
      · exact ⟨_, (Prod.mk.inj (Option.some.inj h)).2.symm⟩
  | chosen b =>
    simp only [breadStep] at h
    split at h
    · exact .inl ⟨_, (Prod.mk.inj (Option.some.inj h)).2.symm⟩
    rename_i hlock
    split at h
    · exact .inl ⟨_, (Prod.mk.inj (Option.some.inj h)).2.symm⟩
    rename_i hcount
    split at h
    · rename_i hdirt
      obtain ⟨hk, hstack⟩ := Prod.mk.inj (Option.some.inj h)
      exact .inr (.inr ⟨b, rfl,
        by simpa using hlock, by simpa using hcount, hdirt, hk.symm, hstack.symm⟩)
    · split at h
      · exact .inl ⟨_, (Prod.mk.inj (Option.some.inj h)).2.symm⟩
      · exact .inl ⟨_, (Prod.mk.inj (Option.some.inj h)).2.symm⟩
  | got b =>
    simp only [breadStep] at h
    split at h
    · exact .inr (.inl (hreturn _ _ h))
    · split at h
      · exact .inl ⟨_, (Prod.mk.inj (Option.some.inj h)).2.symm⟩
      · exact .inl ⟨_, (Prod.mk.inj (Option.some.inj h)).2.symm⟩
  | reading b =>
    simp only [breadStep] at h
    split at h
    · exact .inl ⟨_, (Prod.mk.inj (Option.some.inj h)).2.symm⟩
    · split at h
      · exact .inr (.inl (hreturn _ _ h))
      · obtain ⟨k₁, -, h⟩ := Option.bind_eq_some_iff.mp h
        exact .inr (.inl (hreturn _ _ h))

/-- A step of an inode function stays in it, or calls `bread`, or returns. -/
theorem inodeStep_cases {pc : InodePc β} {stack : List (Frame β)}
    (h : inodeStep k write i rest pc = some (k', stack)) :
    (∃ pc', stack = .inode write i pc' :: rest) ∨
      (∃ dev block, stack = .bread dev block .search :: .inode write i .calling :: rest) ∨
      stack = rest := by
  cases pc with
  | lock =>
    refine .inl ?_
    simp only [inodeStep] at h
    split at h
    · exact ⟨_, (Prod.mk.inj (Option.some.inj h)).2.symm⟩
    · exact ⟨_, (Prod.mk.inj (Option.some.inj h)).2.symm⟩
  | locked =>
    simp only [inodeStep] at h
    split at h
    · exact .inr (.inr (Prod.mk.inj (Option.some.inj h)).2.symm)
    · split at h
      · cases h
      · exact .inr (.inl ⟨_, _, (Prod.mk.inj (Option.some.inj h)).2.symm⟩)
  | calling => cases h
  | read bh =>
    cases bh with
    | none => cases h
    | some b => exact .inl ⟨_, (Prod.mk.inj (Option.some.inj h)).2.symm⟩
  | release b =>
    simp only [inodeStep] at h
    split at h
    · exact .inl ⟨_, (Prod.mk.inj (Option.some.inj h)).2.symm⟩
    · obtain ⟨k₁, -, h⟩ := Option.map_eq_some_iff.mp h
      exact .inr (.inr (Prod.mk.inj h).2.symm)

theorem Direct.step {a : LockAct β} (h : Direct write i s.stack) (hclean : ChosenClean s a)
    (hst : lockStep s a = some t) : Direct write i t.stack := by
  cases a with
  | others k =>
    obtain rfl := Option.some.inj hst
    exact h
  | go =>
    obtain ⟨⟨k', stack⟩, hstep, rfl⟩ := Option.map_eq_some_iff.mp hst
    generalize hs : s.stack = old at h hstep
    cases h with
    | done => cases hstep
    | inode pc =>
      obtain ⟨pc', rfl⟩ | ⟨dev, block, rfl⟩ | rfl := inodeStep_cases hstep
      · exact .inode pc'
      · exact .bread dev block .search
      · exact .done
    | bread dev block pc =>
      obtain ⟨pc', rfl⟩ | ⟨w, j, bh, rest, hrest, rfl⟩ | ⟨b, rfl, hlock, hcount, hdirt, -⟩ :=
        breadStep_cases hstep
      · exact .bread dev block pc'
      · obtain ⟨hf, rfl⟩ := List.cons.inj hrest
        obtain ⟨rfl, rfl, -⟩ := Frame.inode.inj hf
        exact .inode (.read bh)
      · have hno := hclean dev block b _ hs hlock hcount
        rw [hdirt] at hno
        cases hno

omit [DecidableEq β] in
theorem returnBread_inode {bh : Option β} {r : Caches β × List (Frame β)}
    (h : returnBread k bh rest = some r) :
    r.1.inode = k.inode := by
  unfold returnBread at h
  split at h
  · rw [← Option.some.inj h]
  · cases h

theorem releaseBuffer_inode {b : β} (h : releaseBuffer k b = some k') : k'.inode = k.inode := by
  unfold releaseBuffer at h
  split at h
  · cases h
  · rw [← Option.some.inj h]
    rfl

theorem breadStep_inode {dev block : Nat} {pc : BreadPc β} {stack : List (Frame β)}
    (h : breadStep k dev block rest pc = some (k', stack)) : k'.inode = k.inode := by
  cases pc with
  | search =>
    simp only [breadStep] at h
    split at h
    · rw [← (Prod.mk.inj (Option.some.inj h)).1]
      rfl
    · split at h
      · rw [← (Prod.mk.inj (Option.some.inj h)).1]
      · rw [← (Prod.mk.inj (Option.some.inj h)).1]
  | found b =>
    simp only [breadStep] at h
    split at h
    · rw [← (Prod.mk.inj (Option.some.inj h)).1]
    · split at h
      · rw [← (Prod.mk.inj (Option.some.inj h)).1]
      · rw [← (Prod.mk.inj (Option.some.inj h)).1]
        rfl
  | chosen b =>
    simp only [breadStep] at h
    split at h
    · rw [← (Prod.mk.inj (Option.some.inj h)).1]
    split at h
    · rw [← (Prod.mk.inj (Option.some.inj h)).1]
    split at h
    · rw [← (Prod.mk.inj (Option.some.inj h)).1]
    split at h
    · rw [← (Prod.mk.inj (Option.some.inj h)).1]
    · rw [← (Prod.mk.inj (Option.some.inj h)).1]
      rfl
  | got b =>
    simp only [breadStep] at h
    split at h
    · exact returnBread_inode h
    split at h
    · rw [← (Prod.mk.inj (Option.some.inj h)).1]
    · rw [← (Prod.mk.inj (Option.some.inj h)).1]
      rfl
  | reading b =>
    simp only [breadStep] at h
    split at h
    · rw [← (Prod.mk.inj (Option.some.inj h)).1]
    split at h
    · exact returnBread_inode h
    · obtain ⟨k₁, hrel, h⟩ := Option.bind_eq_some_iff.mp h
      exact (returnBread_inode h).trans (releaseBuffer_inode hrel)

/-- An inode function touches the lock of its own inode only, and has it as long as
it is in the call. -/
theorem inodeStep_lock {pc : InodePc β} {stack : List (Frame β)}
    (h : inodeStep k write i rest pc = some (k', stack)) :
    (∀ j, j ≠ i → (k'.inode j).iLock = (k.inode j).iLock) ∧
      ((pc.holds = true → (k.inode i).iLock = true) → stack = rest ∨ (k'.inode i).iLock = true ∨
        stack = .inode write i .lock :: rest) := by
  have hset : ∀ (k₁ : Caches β) (m : CoreInode) (j : InodeIx), j ≠ i →
    ((k₁.setInode i m).inode j) = k₁.inode j :=
    fun k₁ m j hj => by simp [Caches.setInode, hj]
  cases pc with
  | lock =>
    simp only [inodeStep] at h
    split at h
    · obtain ⟨rfl, rfl⟩ := Prod.mk.inj (Option.some.inj h)
      exact ⟨fun _ _ => rfl, fun _ => .inr (.inr rfl)⟩
    · obtain ⟨rfl, rfl⟩ := Prod.mk.inj (Option.some.inj h)
      exact ⟨fun j hj => by rw [hset _ _ j hj], fun _ => .inr (.inl (by simp [Caches.setInode]))⟩
  | locked =>
    simp only [inodeStep] at h
    split at h
    · obtain ⟨rfl, rfl⟩ := Prod.mk.inj (Option.some.inj h)
      exact ⟨fun j hj => by rw [hset _ _ j hj], fun _ => .inl rfl⟩
    · split at h
      · cases h
      · obtain ⟨rfl, rfl⟩ := Prod.mk.inj (Option.some.inj h)
        exact ⟨fun _ _ => rfl, fun hl => .inr (.inl (hl rfl))⟩
  | calling => cases h
  | read bh =>
    cases bh with
    | none => cases h
    | some b =>
      simp only [inodeStep] at h
      obtain ⟨rfl, rfl⟩ := Prod.mk.inj (Option.some.inj h)
      cases write with
      | false => exact ⟨fun _ _ => rfl, fun hl => .inr (.inl (hl rfl))⟩
      | true =>
        refine ⟨fun j hj => ?_, fun hl => .inr (.inl ?_)⟩
        · rw [if_pos rfl, hset _ _ j hj]
          rfl
        · have hl := hl rfl
          simpa [Caches.setInode] using hl
  | release b =>
    simp only [inodeStep] at h
    split at h
    · obtain ⟨rfl, rfl⟩ := Prod.mk.inj (Option.some.inj h)
      exact ⟨fun _ _ => rfl, fun hl => .inr (.inl (hl rfl))⟩
    · obtain ⟨k₁, hrel, h⟩ := Option.map_eq_some_iff.mp h
      obtain ⟨rfl, rfl⟩ := Prod.mk.inj h
      exact ⟨fun j hj => by rw [hset _ _ j hj, releaseBuffer_inode hrel], fun _ => .inl rfl⟩

omit [DecidableEq β] in
theorem keepLocked_lock (h : HoldsInode stack i) : ((keepLocked stack k).inode i).iLock = true := by
  simp only [keepLocked, if_pos h]

def InCall (write : Bool) (i : InodeIx) (s : LockState β) : Prop :=
  Direct write i s.stack ∧ (HoldsInode s.stack i → (s.caches.inode i).iLock = true)

theorem InCall.step {a : LockAct β} (h : InCall write i s) (hclean : ChosenClean s a)
    (hst : lockStep s a = some t) :
    InCall write i t := by
  obtain ⟨hdirect, hlock⟩ := h
  refine ⟨hdirect.step hclean hst, fun hholds => ?_⟩
  cases a with
  | others k =>
    obtain rfl := Option.some.inj hst
    exact keepLocked_lock hholds
  | go =>
    obtain ⟨⟨k', stack⟩, hstep, rfl⟩ := Option.map_eq_some_iff.mp hst
    generalize s.stack = old at hdirect hstep hlock
    cases hdirect with
    | done => cases hstep
    | bread dev block pc =>
      have hin : k'.inode = s.caches.inode := breadStep_inode hstep
      simp only [hin]
      exact hlock (by simp [HoldsInode, Frame.holds, InodePc.holds])
    | inode pc =>
      obtain rfl | hl | rfl :=
        (inodeStep_lock hstep).2 fun hpc => hlock (by simp [HoldsInode, Frame.holds, hpc])
      · cases hholds
      · exact hl
      · simp [HoldsInode, Frame.holds, InodePc.holds] at hholds

/-- The loops of `sync_dev` have not passed inode `i`. -/
def SyncPc.before (i : InodeIx) : SyncPc → Prop
  | .first _ => True
  | .inodes j => j ≤ i.val
  | .second _ => False

theorem syncBuffer_inode {dev : Nat} {b : β} (h : syncBuffer k dev b = some k') :
    k'.inode = k.inode := by
  unfold syncBuffer at h
  split at h
  · rw [← Option.some.inj h]
  split at h
  · cases h
  split at h
  · rw [← Option.some.inj h]
    rfl
  · rw [← Option.some.inj h]

/-- A step of `sync_dev` leaves the inode table alone. It stays in the call, calls
`write_inode` for an inode that is not locked, or returns; with `i` locked it does not pass `i`. -/
theorem syncStep_cases {dev : Nat} {pc : SyncPc} {stack : List (Frame β)}
    (h : syncStep k dev rest pc = some (k', stack)) (hlock : (k.inode i).iLock = true) :
    k'.inode = k.inode ∧
      ((∃ pc', stack = .syncDev dev pc' :: rest ∧ (pc.before i → pc'.before i)) ∨
        (∃ j pc', j ≠ i ∧ stack = .inode true j .lock :: .syncDev dev pc' :: rest ∧
          (pc.before i → pc'.before i)) ∨
        (stack = rest ∧ ¬ pc.before i)) := by
  cases pc with
  | first n =>
    simp only [syncStep] at h
    split at h
    · obtain ⟨rfl, rfl⟩ := Prod.mk.inj (Option.some.inj h)
      exact ⟨rfl, .inl ⟨_, rfl, fun _ => Nat.zero_le _⟩⟩
    · split at h
      · obtain ⟨rfl, rfl⟩ := Prod.mk.inj (Option.some.inj h)
        exact ⟨rfl, .inl ⟨_, rfl, id⟩⟩
      · rename_i hsync
        obtain ⟨rfl, rfl⟩ := Prod.mk.inj (Option.some.inj h)
        exact ⟨syncBuffer_inode hsync, .inl ⟨_, rfl, fun _ => trivial⟩⟩
  | inodes j =>
    simp only [syncStep] at h
    split at h
    · rename_i hj
      have hnext : (k.inode ⟨j, hj⟩).iLock = false → (⟨j, hj⟩ : InodeIx) ≠ i ∧
          (j ≤ i.val → j + 1 ≤ i.val) := by
        intro hfree
        have hne : (⟨j, hj⟩ : InodeIx) ≠ i := fun e => by
          rw [e, hlock] at hfree
          cases hfree
        have hval : j ≠ i.val := fun e => hne (Fin.ext e)
        exact ⟨hne, fun hle => by omega⟩
      split at h
      · obtain ⟨rfl, rfl⟩ := Prod.mk.inj (Option.some.inj h)
        exact ⟨rfl, .inl ⟨_, rfl, id⟩⟩
      rename_i hfree
      obtain ⟨hne, hle⟩ := hnext (by simpa using hfree)
      split at h
      · obtain ⟨rfl, rfl⟩ := Prod.mk.inj (Option.some.inj h)
        exact ⟨rfl, .inr (.inl ⟨_, _, hne, rfl, hle⟩)⟩
      · obtain ⟨rfl, rfl⟩ := Prod.mk.inj (Option.some.inj h)
        exact ⟨rfl, .inl ⟨_, rfl, hle⟩⟩
    · rename_i hj
      obtain ⟨rfl, rfl⟩ := Prod.mk.inj (Option.some.inj h)
      exact ⟨rfl, .inl ⟨_, rfl, fun hle => absurd (Nat.lt_of_le_of_lt hle i.isLt) hj⟩⟩
  | second n =>
    simp only [syncStep] at h
    split at h
    · obtain ⟨rfl, rfl⟩ := Prod.mk.inj (Option.some.inj h)
      exact ⟨rfl, .inr (.inr ⟨rfl, id⟩)⟩
    · split at h
      · obtain ⟨rfl, rfl⟩ := Prod.mk.inj (Option.some.inj h)
        exact ⟨rfl, .inl ⟨_, rfl, id⟩⟩
      · rename_i hsync
        obtain ⟨rfl, rfl⟩ := Prod.mk.inj (Option.some.inj h)
        exact ⟨syncBuffer_inode hsync, .inl ⟨_, rfl, id⟩⟩

/-- Calls above a `sync_dev` that waits for inode `i`: none of them is for `i`. -/
inductive Nested (i : InodeIx) : List (Frame β) → Prop where
  | nil : Nested i []
  | inode {write : Bool} {j : InodeIx} {pc : InodePc β} {pre : List (Frame β)} (hj : j ≠ i)
    (h : Nested i pre) :
      Nested i (.inode write j pc :: pre)
  | bread {dev block : Nat} {pc : BreadPc β} {write : Bool} {j : InodeIx} {pc' : InodePc β}
    {pre : List (Frame β)}
      (h : Nested i (.inode write j pc' :: pre)) :
        Nested i (.bread dev block pc :: .inode write j pc' :: pre)
  | sync {dev : Nat} {pc : SyncPc} {pre : List (Frame β)} (h : Nested i pre) :
    Nested i (.syncDev dev pc :: pre)

theorem Nested.step {pre tail : List (Frame β)} (h : Nested i pre) (hne : pre ≠ [])
    (hlock : (k.inode i).iLock = true) (hst : stackStep k (pre ++ tail) = some (k', stack)) :
    (k'.inode i).iLock = true ∧ ∃ pre', stack = pre' ++ tail ∧ Nested i pre' := by
  cases h with
  | nil => exact absurd rfl hne
  | @inode write j pc pre hj h =>
    have hkeep := (inodeStep_lock hst).1 i fun e => hj e.symm
    refine ⟨hkeep.trans hlock, ?_⟩
    obtain ⟨pc', rfl⟩ | ⟨dev, block, rfl⟩ | rfl := inodeStep_cases hst
    · exact ⟨.inode write j pc' :: pre, rfl, .inode hj h⟩
    · exact ⟨.bread dev block .search :: .inode write j .calling :: pre, rfl, .bread (.inode hj h)⟩
    · exact ⟨pre, rfl, h⟩
  | @bread dev block pc write j pc' pre h =>
    have hin := breadStep_inode hst
    refine ⟨by rw [hin]; exact hlock, ?_⟩
    obtain ⟨pc₁, rfl⟩ | ⟨w, j', bh, rest, hrest, rfl⟩ | ⟨b, -, -, -, -, -, rfl⟩ :=
      breadStep_cases hst
    · exact ⟨.bread dev block pc₁ :: .inode write j pc' :: pre, rfl, .bread h⟩
    · obtain ⟨hf, rfl⟩ := List.cons.inj hrest
      obtain ⟨rfl, rfl, rfl⟩ := Frame.inode.inj hf
      cases h with
      | inode hj h => exact ⟨.inode write j (.read bh) :: pre, rfl, .inode hj h⟩
    · exact ⟨.syncDev _ (.first 0) :: .bread dev block (.chosen b) :: .inode write j pc' :: pre,
        rfl, .sync (.bread h)⟩
  | @sync dev pc pre h =>
    obtain ⟨hin, hcase⟩ := syncStep_cases (i := i) hst hlock
    refine ⟨by rw [hin]; exact hlock, ?_⟩
    obtain ⟨pc', rfl, -⟩ | ⟨j, pc', hj, rfl, -⟩ | ⟨rfl, -⟩ := hcase
    · exact ⟨.syncDev dev pc' :: pre, rfl, .sync h⟩
    · exact ⟨.inode true j .lock :: .syncDev dev pc' :: pre, rfl, .inode hj (.sync h)⟩
    · exact ⟨pre, rfl, h⟩

/-- The process is in `sync_dev` for a buffer that its own call on inode `i` needs. -/
def Trapped (i : InodeIx) (s : LockState β) : Prop :=
  (s.caches.inode i).iLock = true ∧ ∃ pre dev pc tail, s.stack = pre ++ .syncDev dev pc :: tail ∧
    Nested i pre ∧
    pc.before i ∧ HoldsInode tail i

omit [DecidableEq β] in
theorem HoldsInode.append {pre : List (Frame β)} (h : HoldsInode stack i) :
    HoldsInode (pre ++ stack) i := by
  unfold HoldsInode at h ⊢
  rw [List.any_append, h, Bool.or_true]

omit [DecidableEq β] in
theorem Trapped.holds (h : Trapped i s) : HoldsInode s.stack i := by
  obtain ⟨-, pre, dev, pc, tail, hs, -, -, htail⟩ := h
  rw [hs]
  have hsync : HoldsInode ([Frame.syncDev dev pc] ++ tail) i := HoldsInode.append htail
  exact HoldsInode.append hsync

theorem Trapped.step {a : LockAct β} (h : Trapped i s) (hst : lockStep s a = some t) :
    Trapped i t := by
  have hholds := h.holds
  obtain ⟨hlock, pre, dev, pc, tail, hs, hpre, hpc, htail⟩ := h
  cases a with
  | others k =>
    obtain rfl := Option.some.inj hst
    exact ⟨keepLocked_lock hholds, pre, dev, pc, tail, hs, hpre, hpc, htail⟩
  | go =>
    obtain ⟨⟨k', stack⟩, hstep, rfl⟩ := Option.map_eq_some_iff.mp hst
    rw [hs] at hstep
    by_cases hne : pre = []
    · rw [hne] at hstep
      obtain ⟨hin, hcase⟩ := syncStep_cases (i := i) hstep hlock
      refine ⟨by rw [hin]; exact hlock, ?_⟩
      obtain ⟨pc', rfl, hb⟩ | ⟨j, pc', hj, rfl, hb⟩ | ⟨-, hb⟩ := hcase
      · exact ⟨[], dev, pc', tail, rfl, .nil, hb hpc, htail⟩
      · exact ⟨[.inode true j .lock], dev, pc', tail, rfl, .inode hj .nil, hb hpc, htail⟩
      · exact absurd hpc hb
    · obtain ⟨hl, pre', rfl, hpre'⟩ := hpre.step hne hlock hstep
      exact ⟨hl, pre', dev, pc, tail, rfl, hpre', hpc, htail⟩

def Quiet (i : InodeIx) (k : Caches β) : Prop :=
  (∀ b, (k.head b).bLock = false ∧ (k.head b).bDirt = false) ∧
    ∀ j, j ≠ i → (k.inode j).iLock = false ∧ (k.inode j).iDirt = false

theorem Quiet.first (h : Quiet i k) (dev : Nat) (rest : List (Frame β)) (d n : Nat)
    (hn : d + n = k.buffers.length) :
    ∃ as, run lockStep ⟨k, .syncDev dev (.first n) :: rest⟩ as =
      some ⟨k, .syncDev dev (.inodes 0) :: rest⟩ := by
  induction d generalizing n with
  | zero =>
    have hend : k.buffers[n]? = none := List.getElem?_eq_none (by omega)
    exact ⟨[.go], by simp [run, lockStep, stackStep, syncStep, hend]⟩
  | succ d ih =>
    have hlt : n < k.buffers.length := by omega
    obtain ⟨as, has⟩ := ih (n + 1) (by omega)
    have hsync : syncBuffer k dev (k.buffers[n]) = some k := by
      simp [syncBuffer, (h.1 (k.buffers[n])).1, (h.1 (k.buffers[n])).2]
    refine ⟨.go :: as, ?_⟩
    simpa [run, lockStep, stackStep, syncStep, hlt, hsync] using has

theorem Quiet.inodes (h : Quiet i k) (dev : Nat) (rest : List (Frame β)) (d j : Nat)
    (hj : d + j = i.val) :
    ∃ as, run lockStep ⟨k, .syncDev dev (.inodes j) :: rest⟩ as =
      some ⟨k, .syncDev dev (.inodes i.val) :: rest⟩ := by
  induction d generalizing j with
  | zero => exact ⟨[], by rw [← hj, Nat.zero_add]; rfl⟩
  | succ d ih =>
    have hi := i.isLt
    have hlt : j < NR_INODE := by omega
    obtain ⟨as, has⟩ := ih (j + 1) (by omega)
    have hne : (⟨j, hlt⟩ : InodeIx) ≠ i := fun e => by
      have hval : j = i.val := congrArg Fin.val e
      omega
    have hfree := h.2 _ hne
    refine ⟨.go :: as, ?_⟩
    simpa [run, lockStep, stackStep, syncStep, hlt, hfree.1, hfree.2] using has

def calmed (k : Caches β) : Caches β :=
  { k with
    head := fun b => { k.head b with bLock := false, bDirt := false }
    inode := fun j => { k.inode j with iLock := false, iDirt := false } }

theorem reaches_own_wait {dev dev' block : Nat} {b : β} (k : Caches β)
    (hstack : stack = .syncDev dev (.first 0) :: .bread dev' block (.chosen b) ::
      [.inode write i .calling]) :
    ∃ bs u, run lockStep ⟨k, stack⟩ bs = some u ∧ WaitsForOwn u := by
  have hholds : HoldsInode stack i := by simp [hstack, HoldsInode, Frame.holds, InodePc.holds]
  have hquiet : Quiet i (keepLocked stack (calmed k)) := by
    refine ⟨fun _ => ⟨rfl, rfl⟩, fun j hj => ?_⟩
    have hno : ¬ HoldsInode stack j := by
      simp [hstack, HoldsInode, Frame.holds, Ne.symm hj]
    simp [keepLocked, hno, calmed]
  obtain ⟨as, has⟩ := hquiet.first dev (.bread dev' block (.chosen b) :: [.inode write i .calling])
    (keepLocked stack (calmed k)).buffers.length 0 rfl
  obtain ⟨as', has'⟩ :=
    hquiet.inodes dev (.bread dev' block (.chosen b) :: [.inode write i .calling]) i.val 0 rfl
  refine ⟨.others (calmed k) :: (as ++ as'),
    ⟨keepLocked stack (calmed k), .syncDev dev (.inodes i.val) ::
    .bread dev' block (.chosen b) :: [.inode write i .calling]⟩, ?_, i, ?_, rfl⟩
  · refine run_cons_some.mpr ⟨_, rfl, ?_⟩
    rw [hstack] at has has' ⊢
    rw [run_append, has]
    exact has'
  · simp [HoldsInode, Frame.holds, InodePc.holds]

omit [DecidableEq β] in
theorem inCall_call (k : Caches β) (write : Bool) (i : InodeIx) :
    InCall write i (callInode k write i) :=
  ⟨.inode .lock, fun h => by simp [HoldsInode, callInode, Frame.holds, InodePc.holds] at h⟩

theorem InCall.dirty (h : InCall write i s) (hbad : ¬ ChosenClean s .go)
    (hst : lockStep s .go = some t) :
    ∃ dev dev' block b, t.stack = .syncDev dev (.first 0) :: .bread dev' block (.chosen b) ::
      [.inode write i .calling] ∧
      (t.caches.inode i).iLock = true := by
  obtain ⟨hdirect, hlock⟩ := h
  obtain ⟨dev, block, b, rest, hs, hfree, hcount, hdirt⟩ : ∃ dev block b rest,
      s.stack = .bread dev block (.chosen b) :: rest ∧ (s.caches.head b).bLock = false ∧
        (s.caches.head b).bCount = 0 ∧ (s.caches.head b).bDirt = true := by
    simpa only [ChosenClean, not_forall, exists_prop, Bool.not_eq_false] using hbad
  rw [hs] at hdirect hlock
  cases hdirect with
  | bread =>
    have hstep : stackStep s.caches s.stack =
      some (s.caches, .syncDev (s.caches.head b).bDev (.first 0) ::
        .bread dev block (.chosen b) :: [.inode write i .calling]) := by
      simp [hs, stackStep, breadStep, hfree, hcount, hdirt]
    simp only [lockStep, hstep, Option.map_some, Option.some.injEq] at hst
    obtain rfl := hst
    exact ⟨_, dev, block, b, rfl, hlock (by simp [HoldsInode, Frame.holds, InodePc.holds])⟩

/-- A call of `read_inode` or `write_inode` never waits for its own inode as long as the
buffers that `getblk` chooses for it are clean. As soon as one is dirty, the process can
no longer leave the call: it comes to wait for its own lock if nothing else holds it up. -/
theorem own_inode_not_awaited_of_clean (k : Caches β) (write : Bool) (i : InodeIx)
    (as : List (LockAct β)) (hclean : StepsMeet lockStep ChosenClean (callInode k write i) as) :
    Always lockStep (fun s => ¬ WaitsForOwn s) (callInode k write i) as ∧
      ∀ s t, run lockStep (callInode k write i) as = some s → ¬ ChosenClean s .go →
      lockStep s .go = some t →
        (∃ bs u, run lockStep t bs = some u ∧ WaitsForOwn u) ∧
          ∀ bs u, run lockStep t bs = some u → HoldsInode u.stack i := by
  have hkeep : ∀ (s : LockState β) (a : LockAct β) (t : LockState β), InCall write i s →
    ChosenClean s a →
      lockStep s a = some t → InCall write i t := fun s a t h hc hst => h.step hc hst
  constructor
  · refine Always.mono (fun s hs => ?_) (always_of_stepsMeet hkeep (inCall_call k write i) hclean)
    exact fun ⟨j, hj, hw⟩ => hs.1.not_waits hj hw
  · intro s t hrun hbad hst
    have hs : InCall write i s := run_inv_of_stepsMeet hkeep (inCall_call k write i) hclean hrun
    obtain ⟨dev, dev', block, b, hstack, hlock⟩ := hs.dirty hbad hst
    have htrapped : Trapped i t := ⟨hlock, [], dev, .first 0, _, hstack, .nil, trivial,
      by simp [HoldsInode, Frame.holds, InodePc.holds]⟩
    refine ⟨reaches_own_wait t.caches hstack, fun bs u hu => ?_⟩
    exact (run_inv (fun s a t (h : Trapped i s) hst => h.step hst) htrapped hu).holds

/-- One buffer, unused, with another block than the one inode 0 is in. Inode 0 is dirty. -/
def oneBuffer (dirt : Bool) : Caches Unit where
  buffers := [()]
  head := fun _ => ⟨1, 5, true, dirt, 0, false⟩
  chain := fun n => if n = hashfn 1 5 then [()] else []
  free := [()]
  inode := fun i => if i = 0 then ⟨1, 1, false, true, false⟩ else ⟨0, 0, false, false, false⟩
  bitmaps := fun dev => if dev = 1 then some 2 else none

theorem own_inode_not_awaited_clean :
    ∃ t, run lockStep (callInode (oneBuffer false) true 0) [.go, .go, .go, .go] = some t ∧
      t.stack = [.bread 1 4 (.got ()), .inode true 0 .calling] ∧
      Always lockStep (fun s => ¬ WaitsForOwn s) (callInode (oneBuffer false) true 0)
        [.go, .go, .go, .go] := by
  have hrun : (run lockStep (callInode (oneBuffer false) true 0) [.go, .go, .go, .go]).map
    LockState.stack =
      some [.bread 1 4 (.got ()), .inode true 0 .calling] := by
    decide
  obtain ⟨t, ht, hstack⟩ := Option.map_eq_some_iff.mp hrun
  have hclean : StepsMeet lockStep ChosenClean (callInode (oneBuffer false) true 0)
      [.go, .go, .go, .go] := by
    intro s₁ h₁
    obtain rfl := Option.some.inj h₁
    refine ⟨fun _ _ _ _ _ _ _ => rfl, fun s₂ h₂ => ?_⟩
    obtain rfl := Option.some.inj h₂
    refine ⟨fun _ _ _ _ _ _ _ => rfl, fun s₃ h₃ => ?_⟩
    obtain rfl := Option.some.inj h₃
    refine ⟨fun _ _ _ _ _ _ _ => rfl, fun s₄ h₄ => ?_⟩
    exact ⟨fun _ _ _ _ _ _ _ => rfl, trivial⟩
  exact ⟨t, ht, hstack, (own_inode_not_awaited_of_clean _ _ _ _ hclean).1⟩

/-- The only unused buffer is dirty, and `write_inode` waits for the inode it has locked. -/
theorem dirty_buffer_waits_for_own_inode :
    ∃ t, run lockStep (callInode (oneBuffer true) true 0) [.go, .go, .go, .go, .go, .go] = some t ∧
      t.stack = [.syncDev 1 (.inodes 0), .bread 1 4 (.chosen ()), .inode true 0 .calling] ∧
      WaitsForOwn t := by
  have hrun : (run lockStep (callInode (oneBuffer true) true 0) [.go, .go, .go, .go, .go, .go]).map
      LockState.stack = some [.syncDev 1 (.inodes 0), .bread 1 4 (.chosen ()),
        .inode true 0 .calling] := by
    decide
  obtain ⟨t, ht, hstack⟩ := Option.map_eq_some_iff.mp hrun
  have hholds : HoldsInode t.stack 0 := by
    rw [hstack]
    decide
  have hwaits : WaitsForInode t.stack 0 := by
    rw [hstack]
    rfl
  exact ⟨t, ht, hstack, 0, hholds, hwaits⟩

end Hios.Fs
