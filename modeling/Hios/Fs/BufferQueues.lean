import Hios.Fs.BufferInit
import Hios.Fs.InodeLock
import Hios.Lib.DoublyLinked

/-! The free list and the hash queues of the buffer heads, two doubly linked structures
over the same heads: `remove_from_queues`, `insert_into_queues` and what `getblk` reads of
them, pointer by pointer. They do what the functions over lists say. -/
namespace Hios.Fs
open Hios.DoublyLinked

theorem hashfn_lt (dev block : Nat) : hashfn dev block < NR_HASH := Nat.mod_lt _ (by decide)

def hashSlot (dev block : Nat) : Fin NR_HASH := ⟨hashfn dev block, hashfn_lt dev block⟩

def MemHead.core (h : MemHead) : CacheHead :=
  ⟨h.bDev, h.bBlocknr, h.bUptodate, h.bDirt, h.bCount, h.bLock⟩

namespace BufferMem

def store (c : BufferMem) (p : Option Nat) (f : MemHead → MemHead) : BufferMem :=
  match p with
  | none => c
  | some h => c.setHead h (f (c.head h))

def slot (c : BufferMem) (bh : Nat) : Fin NR_HASH := hashSlot (c.head bh).bDev (c.head bh).bBlocknr

def setHash (c : BufferMem) (k : Fin NR_HASH) (p : Option Nat) : BufferMem :=
  { c with hashTable := Function.update c.hashTable k p }

def removeFromHashQueue (c : BufferMem) (bh : Nat) : BufferMem :=
  let c := c.store (c.head bh).bNext fun h => { h with bPrev := (c.head bh).bPrev }
  let c := c.store (c.head bh).bPrev fun h => { h with bNext := (c.head bh).bNext }
  if c.hashTable (c.slot bh) = some bh then c.setHash (c.slot bh) (c.head bh).bNext else c

/-- `none` is the panic of a corrupted list. -/
def removeFromFreeList (c : BufferMem) (bh : Nat) : Option BufferMem :=
  if (c.head bh).bPrevFree = none ∨ (c.head bh).bNextFree = none then none else
  let c := c.store (c.head bh).bPrevFree fun h => { h with bNextFree := (c.head bh).bNextFree }
  let c := c.store (c.head bh).bNextFree fun h => { h with bPrevFree := (c.head bh).bPrevFree }
  some (if c.freeList = some bh then { c with freeList := (c.head bh).bNextFree } else c)

def removeFromQueues (c : BufferMem) (bh : Nat) : Option BufferMem :=
  (c.removeFromHashQueue bh).removeFromFreeList bh

/-- `none` is a store through `NULL`. -/
def putAtEndOfFreeList (c : BufferMem) (bh : Nat) : Option BufferMem :=
  match c.freeList with
  | none => none
  | some first =>
    let c := c.store (some bh) fun h => { h with bNextFree := some first }
    let c := c.store (some bh) fun h => { h with bPrevFree := (c.head first).bPrevFree }
    if (c.head first).bPrevFree = none then none else
    let c := c.store (c.head first).bPrevFree fun h => { h with bNextFree := some bh }
    some (c.store (some first) fun h => { h with bPrevFree := some bh })

def putInHashQueue (c : BufferMem) (bh : Nat) : BufferMem :=
  let c := c.store (some bh) fun h => { h with bNext := none }
  let c := c.store (some bh) fun h => { h with bPrev := none }
  if (c.head bh).bDev = 0 then c else
  let c := c.store (some bh) fun h => { h with bNext := c.hashTable (c.slot bh) }
  let c := c.setHash (c.slot bh) (some bh)
  c.store (c.head bh).bNext fun h => { h with bPrev := some bh }

def insertIntoQueues (c : BufferMem) (bh : Nat) : Option BufferMem :=
  (c.putAtEndOfFreeList bh).map fun c => c.putInHashQueue bh

/-- The loop of `find_buffer`; `none` if it does not come to the end of the queue. -/
def findLoop (c : BufferMem) (dev block : Nat) : Nat → Option Nat → Option (Option Nat)
  | _, none => some none
  | 0, some _ => none
  | fuel + 1, some tmp =>
    if (c.head tmp).bDev = dev % 65536 ∧ (c.head tmp).bBlocknr = block then some (some tmp)
    else findLoop c dev block fuel (c.head tmp).bNext

def findBuffer (c : BufferMem) (dev block : Nat) : Option (Option Nat) :=
  c.findLoop dev block c.nrBuffers (c.hashTable (hashSlot dev block))

/-- The body of the `do` loop of `getblk`: the buffer that is best so far, and if the loop ends
with it. -/
def scanBody (c : BufferMem) (tmp : Nat) (bh : Option Nat) : Option Nat × Bool :=
  if (c.head tmp).bCount ≠ 0 then (bh, false)
  else if bh.all fun b => BADNESS (c.head tmp).core < BADNESS (c.head b).core then
    (some tmp, decide (BADNESS (c.head tmp).core = 0))
  else (bh, false)

/-- `none` if it does not come back to the head of the free list. -/
def scanLoop (c : BufferMem) : Nat → Nat → Option Nat → Option (Option Nat)
  | 0, _, _ => none
  | fuel + 1, tmp, bh =>
    let r := c.scanBody tmp bh
    if r.2 then some r.1 else
    match (c.head tmp).bNextFree with
    | none => none
    | some next => if some next = c.freeList then some r.1 else scanLoop c fuel next r.1

def scan (c : BufferMem) : Option (Option Nat) :=
  c.freeList.bind fun first => c.scanLoop c.nrBuffers first none

/-- The end of `getblk`: the buffer is taken for the block. -/
def take (c : BufferMem) (dev block bh : Nat) : Option BufferMem := do
  let c := c.store (some bh) fun h => { h with bCount := 1, bDirt := false, bUptodate := false }
  let c ← c.removeFromQueues bh
  let c := c.store (some bh) fun h => { h with bDev := dev % 65536, bBlocknr := block }
  c.insertIntoQueues bh

structure View where
  count : Nat
  core : Nat → CacheHead
  hash : Links Nat
  free : Links Nat
  table : Fin NR_HASH → Option Nat
  first : Option Nat

def view (c : BufferMem) : View where
  count := c.nrBuffers
  core := fun h => (c.head h).core
  hash := ⟨fun h => (c.head h).bNext, fun h => (c.head h).bPrev⟩
  free := ⟨fun h => (c.head h).bNextFree, fun h => (c.head h).bPrevFree⟩
  table := c.hashTable
  first := c.freeList

namespace View

def slot (w : View) (bh : Nat) : Fin NR_HASH := hashSlot (w.core bh).bDev (w.core bh).bBlocknr

def setCore (w : View) (bh : Nat) (h : CacheHead) : View :=
  { w with core := Function.update w.core bh h }

def unhashed (w : View) (bh : Nat) : View := { w with
  hash := w.hash.unlink bh
  table := if w.table (w.slot bh) = some bh then Function.update w.table (w.slot bh)
    (w.hash.next bh) else w.table }

def unlisted (w : View) (bh : Nat) : View := { w with
  free := w.free.unlink bh
  first := if w.first = some bh then w.free.next bh else w.first }

def listed (w : View) (bh first : Nat) : View :=
  { w with free := w.free.link (w.free.prev first) bh (some first) }

def hashed (w : View) (bh : Nat) : View :=
  if (w.core bh).bDev = 0 then
    { w with hash := ⟨Function.update w.hash.next bh none, Function.update w.hash.prev bh none⟩ }
  else { w with
    hash := w.hash.link none bh (w.table (w.slot bh))
    table := Function.update w.table (w.slot bh) (some bh) }

variable {w : View} {bh : Nat}

@[simp] theorem hashed_core : (w.hashed bh).core = w.core := (apply_ite core ..).trans (ite_self _)

@[simp] theorem hashed_free : (w.hashed bh).free = w.free := (apply_ite free ..).trans (ite_self _)

@[simp] theorem hashed_first : (w.hashed bh).first = w.first :=
  (apply_ite first ..).trans (ite_self _)

@[simp] theorem hashed_count : (w.hashed bh).count = w.count :=
  (apply_ite count ..).trans (ite_self _)

end View

variable {c : BufferMem} {p : Option Nat} {bh : Nat} {f : MemHead → MemHead}

theorem store_set {γ : Type} (g : MemHead → γ) {v : γ} (hg : ∀ h, g (f h) = v) :
    (fun x => g ((c.store p f).head x)) = storeAt (fun x => g (c.head x)) p v := by
  cases p with
  | none => rfl
  | some h =>
    funext x
    by_cases hx : x = h
    · simp [hx, storeAt_self, store, setHead, hg]
    · rw [storeAt_of_ne fun e => hx (Option.some.inj e).symm]
      simp [store, setHead, hx]

theorem store_keep {γ : Type} (g : MemHead → γ) (hg : ∀ h, g (f h) = g h) :
    (fun x => g ((c.store p f).head x)) = fun x => g (c.head x) := by
  cases p with
  | none => rfl
  | some h =>
    funext x
    by_cases hx : x = h
    · simp [hx, store, setHead, hg]
    · simp [store, setHead, hx]

theorem view_store {core : Nat → CacheHead} {next prev nextFree prevFree : Nat → Option Nat}
    (hcore : (fun x => ((c.store p f).head x).core) = core)
    (hnext : (fun x => ((c.store p f).head x).bNext) = next)
    (hprev : (fun x => ((c.store p f).head x).bPrev) = prev)
    (hnextFree : (fun x => ((c.store p f).head x).bNextFree) = nextFree)
    (hprevFree : (fun x => ((c.store p f).head x).bPrevFree) = prevFree) :
    (c.store p f).view = ⟨c.nrBuffers, core, ⟨next, prev⟩, ⟨nextFree, prevFree⟩, c.hashTable,
      c.freeList⟩ := by
  subst hcore hnext hprev hnextFree hprevFree
  cases p with
  | none => rfl
  | some h => rfl

@[simp] theorem view_store_bNext (v : Option Nat) :
    (c.store p fun h => { h with bNext := v }).view =
    { c.view with hash := ⟨storeAt c.view.hash.next p v, c.view.hash.prev⟩ } :=
  view_store (store_keep (·.core) fun _ => rfl) (store_set (·.bNext) fun _ => rfl)
    (store_keep (·.bPrev) fun _ => rfl)
    (store_keep (·.bNextFree) fun _ => rfl) (store_keep (·.bPrevFree) fun _ => rfl)

@[simp] theorem view_store_bPrev (v : Option Nat) :
    (c.store p fun h => { h with bPrev := v }).view =
    { c.view with hash := ⟨c.view.hash.next, storeAt c.view.hash.prev p v⟩ } :=
  view_store (store_keep (·.core) fun _ => rfl) (store_keep (·.bNext) fun _ => rfl)
    (store_set (·.bPrev) fun _ => rfl)
    (store_keep (·.bNextFree) fun _ => rfl) (store_keep (·.bPrevFree) fun _ => rfl)

@[simp] theorem view_store_bNextFree (v : Option Nat) :
    (c.store p fun h => { h with bNextFree := v }).view =
    { c.view with free := ⟨storeAt c.view.free.next p v, c.view.free.prev⟩ } :=
  view_store (store_keep (·.core) fun _ => rfl) (store_keep (·.bNext) fun _ => rfl)
    (store_keep (·.bPrev) fun _ => rfl)
    (store_set (·.bNextFree) fun _ => rfl) (store_keep (·.bPrevFree) fun _ => rfl)

@[simp] theorem view_store_bPrevFree (v : Option Nat) :
    (c.store p fun h => { h with bPrevFree := v }).view =
    { c.view with free := ⟨c.view.free.next, storeAt c.view.free.prev p v⟩ } :=
  view_store (store_keep (·.core) fun _ => rfl) (store_keep (·.bNext) fun _ => rfl)
    (store_keep (·.bPrev) fun _ => rfl)
    (store_keep (·.bNextFree) fun _ => rfl) (store_set (·.bPrevFree) fun _ => rfl)

theorem view_store_core {f : MemHead → MemHead} {h : CacheHead} (hcore : (f (c.head bh)).core = h)
    (hlinks : ∀ h, (f h).bNext = h.bNext ∧ (f h).bPrev = h.bPrev ∧ (f h).bNextFree = h.bNextFree ∧
      (f h).bPrevFree = h.bPrevFree) : (c.store (some bh) f).view = c.view.setCore bh h := by
  refine view_store ?_ (store_keep (·.bNext) fun h => (hlinks h).1)
    (store_keep (·.bPrev) fun h => (hlinks h).2.1)
    (store_keep (·.bNextFree) fun h => (hlinks h).2.2.1)
      (store_keep (·.bPrevFree) fun h => (hlinks h).2.2.2)
  funext x
  by_cases hx : x = bh
  · subst hx
    simp only [store, setHead, Function.update_self, hcore]
  · simp [hx, store, setHead, view]

@[simp] theorem view_setHash (k : Fin NR_HASH) : (c.setHash k p).view =
    { c.view with table := Function.update c.view.table k p } := rfl

theorem view_setFreeList (c : BufferMem) (p : Option Nat) :
    view { c with freeList := p } = { c.view with first := p } := rfl

theorem bNext_eq (c : BufferMem) (h : Nat) : (c.head h).bNext = c.view.hash.next h := rfl

theorem bPrev_eq (c : BufferMem) (h : Nat) : (c.head h).bPrev = c.view.hash.prev h := rfl

theorem bNextFree_eq (c : BufferMem) (h : Nat) : (c.head h).bNextFree = c.view.free.next h := rfl

theorem bPrevFree_eq (c : BufferMem) (h : Nat) : (c.head h).bPrevFree = c.view.free.prev h := rfl

theorem hashTable_eq (c : BufferMem) : c.hashTable = c.view.table := rfl

theorem freeList_eq (c : BufferMem) : c.freeList = c.view.first := rfl

theorem slot_eq (c : BufferMem) (h : Nat) : c.slot h = c.view.slot h := rfl

@[simp] theorem View.slot_withHash (w : View) (L : Links Nat) (h : Nat) :
    View.slot { w with hash := L } h = w.slot h := rfl

theorem View.unhashed_setCore {w : View} {h : CacheHead} (hdev : h.bDev = (w.core bh).bDev)
    (hblock : h.bBlocknr = (w.core bh).bBlocknr) :
    (w.setCore bh h).unhashed bh = (w.unhashed bh).setCore bh h := by
  have hslot : (w.setCore bh h).slot bh = w.slot bh := by
    simp only [View.slot, View.setCore, Function.update_self, hdev, hblock]
  simp only [View.unhashed, hslot]
  rfl

theorem view_removeFromHashQueue : (c.removeFromHashQueue bh).view = c.view.unhashed bh := by
  simp only [removeFromHashQueue, bNext_eq, bPrev_eq, hashTable_eq, slot_eq, View.slot_withHash,
    apply_ite view, view_setHash, view_store_bNext, view_store_bPrev, storeAt_same, View.unhashed]
  by_cases hhead : c.view.table (c.view.slot bh) = some bh
  · rw [if_pos hhead, if_pos hhead]
    rfl
  · rw [if_neg hhead, if_neg hhead]
    rfl

theorem removeFromFreeList_eq (c : BufferMem) (bh : Nat) (hprev : c.view.free.prev bh ≠ none)
    (hnext : c.view.free.next bh ≠ none) :
    ∃ c', c.removeFromFreeList bh = some c' ∧ c'.view = c.view.unlisted bh := by
  refine ⟨_, if_neg (not_or.mpr ⟨hprev, hnext⟩), ?_⟩
  simp only [bNextFree_eq, bPrevFree_eq, freeList_eq, apply_ite view, view_setFreeList,
    view_store_bNextFree,
    view_store_bPrevFree, storeAt_same, View.unlisted]
  by_cases hfirst : c.view.first = some bh
  · rw [if_pos hfirst, if_pos hfirst]
    rfl
  · rw [if_neg hfirst, if_neg hfirst]
    rfl

theorem putAtEndOfFreeList_eq (c : BufferMem) (bh : Nat) {first : Nat}
    (hfirst : c.view.first = some first) (hlast : c.view.free.prev first ≠ none) :
    ∃ c', c.putAtEndOfFreeList bh = some c' ∧ c'.view = c.view.listed bh first := by
  have hf : c.freeList = some first := hfirst
  simp only [putAtEndOfFreeList, hf, bPrevFree_eq, view_store_bNextFree, view_store_bPrevFree,
    storeAt_same,
    if_neg hlast]
  refine ⟨_, rfl, ?_⟩
  simp only [view_store_bNextFree, view_store_bPrevFree]
  rfl

theorem view_putInHashQueue : (c.putInHashQueue bh).view = c.view.hashed bh := by
  have hdev : ∀ d : BufferMem, (d.head bh).bDev = (d.view.core bh).bDev := fun _ => rfl
  simp only [putInHashQueue, bNext_eq, hashTable_eq, hdev, slot_eq, View.slot_withHash,
    apply_ite view,
    view_setHash, view_store_bNext, view_store_bPrev, View.hashed]
  by_cases hzero : (c.view.core bh).bDev = 0
  · rw [if_pos hzero, if_pos hzero]
    rfl
  · rw [if_neg hzero, if_neg hzero]
    simp only [storeAt_self, Links.link]
    simp only [storeAt, Function.update_idem]

theorem take_eq (c : BufferMem) (dev block : Nat) {bh first : Nat}
    (hnext : c.view.free.next bh ≠ none) (hprev : c.view.free.prev bh ≠ none)
    (hfirst : (c.view.unlisted bh).first = some first)
    (hlast : (c.view.unlisted bh).free.prev first ≠ none) :
    ∃ c', c.take dev block bh = some c' ∧
    c'.view = ((((c.view.unhashed bh).unlisted bh).setCore bh { c.view.core bh with
      bCount := 1, bDirt := false, bUptodate := false, bDev := dev % 65536,
        bBlocknr := block }).listed bh first).hashed bh := by
  let c₀ := c.store (some bh) fun h => { h with bCount := 1, bDirt := false, bUptodate := false }
  have hclaimed : c₀.view = c.view.setCore bh
    { c.view.core bh with bCount := 1, bDirt := false, bUptodate := false } :=
    view_store_core rfl fun _ => ⟨rfl, rfl, rfl, rfl⟩
  have hremoved : (c₀.removeFromHashQueue bh).view =
      (c.view.unhashed bh).setCore bh
        { c.view.core bh with bCount := 1, bDirt := false, bUptodate := false } := by
    rw [view_removeFromHashQueue, hclaimed]
    exact View.unhashed_setCore rfl rfl
  obtain ⟨c₂, hfree, hc₂⟩ := removeFromFreeList_eq (c₀.removeFromHashQueue bh) bh
    (by rw [hremoved]; exact hprev) (by rw [hremoved]; exact hnext)
  rw [hremoved] at hc₂
  let c₃ := c₂.store (some bh) fun h => { h with bDev := dev % 65536, bBlocknr := block }
  have hkey : c₃.view = ((c.view.unhashed bh).unlisted bh).setCore bh { c.view.core bh with
      bCount := 1, bDirt := false, bUptodate := false, bDev := dev % 65536,
        bBlocknr := block } := by
    have hcore : (c₂.head bh).core =
        { c.view.core bh with bCount := 1, bDirt := false, bUptodate := false } := by
      have hview : (c₂.head bh).core = c₂.view.core bh := rfl
      rw [hview, hc₂]
      simp only [View.unlisted, View.setCore, Function.update_self]
    have hstore : c₃.view = c₂.view.setCore bh
      { (c₂.head bh).core with bDev := dev % 65536, bBlocknr := block } :=
      view_store_core rfl fun _ => ⟨rfl, rfl, rfl, rfl⟩
    rw [hstore, hcore, hc₂]
    simp only [View.unlisted, View.setCore, Function.update_idem]
    rfl
  obtain ⟨c₄, hput, hc₄⟩ := putAtEndOfFreeList_eq c₃ bh
    (by rw [hkey]; exact hfirst) (by rw [hkey]; exact hlast)
  refine ⟨c₄.putInHashQueue bh, ?_, ?_⟩
  · have hremove : c₀.removeFromQueues bh = some c₂ := hfree
    have hinsert : c₃.insertIntoQueues bh = some (c₄.putInHashQueue bh) :=
      congrArg (Option.map _) hput
    simp only [take, Option.bind_eq_bind, c₀] at hremove ⊢
    rw [hremove]
    exact hinsert
  · rw [view_putInHashQueue, hc₄, hkey]

structure View.Represents (w : View) (k : Caches Nat) : Prop where
  count : w.count = k.buffers.length
  core : w.core = k.head
  free : CircularList w.free w.first k.free
  hash : Table w.hash w.table (fun n : Fin NR_HASH => k.chain n) {x | x ∈ k.buffers}

theorem update_slot (chain : Nat → List Nat) (n : Fin NR_HASH) (l : List Nat) :
    (fun m : Fin NR_HASH => Function.update chain n l m) = Function.update
      (fun m : Fin NR_HASH => chain m) n l :=
  Function.update_comp_eq_of_injective chain Fin.val_injective n l

theorem View.hashed_table (w : View) (bh : Nat) {heads : Set Nat} {chain : Nat → List Nat}
    (h : Table w.hash w.table (fun n : Fin NR_HASH => chain n) (heads \ {bh}))
    (hb : ∀ n : Fin NR_HASH, bh ∉ chain n) :
    Table (w.hashed bh).hash (w.hashed bh).table
      (fun n : Fin NR_HASH => (if (w.core bh).bDev = 0 then chain else
      Function.update chain (w.slot bh) (bh :: chain (w.slot bh))) n) heads := by
  by_cases hzero : (w.core bh).bDev = 0
  · simp only [View.hashed, if_pos hzero]
    exact h.clear hb
  · simp only [View.hashed, if_neg hzero, update_slot]
    exact h.cons hb

end BufferMem

/-- Every head is in the free list and, with a device, in the hash queue of its key; no two have
one key. -/
structure Filed {β : Type} (k : Caches β) : Prop where
  free : k.free.Perm k.buffers
  nodup : ∀ n, (k.chain n).Nodup
  mem : ∀ n b, b ∈ k.chain n ↔ b ∈ k.buffers ∧ (k.head b).bDev ≠ 0 ∧
    hashfn (k.head b).bDev (k.head b).bBlocknr = n
  unique : ∀ a ∈ k.buffers, ∀ b ∈ k.buffers, (k.head a).bDev ≠ 0 →
    (k.head a).bDev = (k.head b).bDev →
    (k.head a).bBlocknr = (k.head b).bBlocknr → a = b

section
variable {β : Type} {k : Caches β} {dev block : Nat} {b x : β}

theorem Filed.not_cached (h : Filed k) (hnone : findBuffer k dev block = none)
    (hdev : dev < 65536) (hzero : dev ≠ 0) (hx : x ∈ k.buffers) :
    ¬ ((k.head x).bDev = dev ∧ (k.head x).bBlocknr = block) := by
  intro hkey
  have hin : x ∈ k.chain (hashfn dev block) :=
    (h.mem _ x).mpr ⟨hx, by rw [hkey.1]; exact hzero, by rw [hkey.1, hkey.2]⟩
  have hno := List.find?_eq_none.mp hnone x hin
  rw [Nat.mod_eq_of_lt hdev] at hno
  exact hno (decide_eq_true hkey)

variable [DecidableEq β]

theorem Filed.setHead (h : Filed k) {m : CacheHead} (hdev : m.bDev = (k.head b).bDev)
    (hblock : m.bBlocknr = (k.head b).bBlocknr) : Filed (k.setHead b m) := by
  have hkeys : ∀ x, ((k.setHead b m).head x).bDev = (k.head x).bDev ∧
      ((k.setHead b m).head x).bBlocknr = (k.head x).bBlocknr := by
    intro x
    by_cases hx : x = b
    · subst hx
      simp only [Caches.setHead, Function.update_self]
      exact ⟨hdev, hblock⟩
    · simp only [Caches.setHead, Function.update_of_ne hx, and_self]
  refine ⟨h.free, h.nodup, fun n x => ?_, fun x hx y hy => ?_⟩
  · rw [(hkeys x).1, (hkeys x).2]
    exact h.mem n x
  · rw [(hkeys x).1, (hkeys x).2, (hkeys y).1, (hkeys y).2]
    exact h.unique x hx y hy

theorem takeBuffer_head_self : ((takeBuffer k dev block b).head b).bDev = dev % 65536 ∧
    ((takeBuffer k dev block b).head b).bBlocknr = block := by
  simp only [takeBuffer, Function.update_self, and_self]

theorem takeBuffer_head_of_ne (hx : x ≠ b) : (takeBuffer k dev block b).head x = k.head x := by
  simp only [takeBuffer, Function.update_of_ne hx]

def chainsWithout (k : Caches β) (b : β) : Nat → List β :=
  Function.update k.chain (hashfn (k.head b).bDev (k.head b).bBlocknr)
    ((k.chain (hashfn (k.head b).bDev (k.head b).bBlocknr)).erase b)

theorem takeBuffer_chain (n : Nat) : (takeBuffer k dev block b).chain n =
    if dev % 65536 = 0 then chainsWithout k b n
      else Function.update (chainsWithout k b) (hashfn (dev % 65536) block)
      (b :: chainsWithout k b (hashfn (dev % 65536) block)) n :=
  apply_ite (fun f : Nat → List β => f n) ..

theorem mem_chainsWithout (h : Filed k) : ∀ n, x ∈ chainsWithout k b n ↔ x ∈ k.chain n ∧ x ≠ b := by
  refine (Function.forall_update_iff k.chain fun m l => (x ∈ l ↔ x ∈ k.chain m ∧ x ≠ b)).mpr
    ⟨?_, fun m hm => ?_⟩
  · rw [(h.nodup _).mem_erase_iff, and_comm]
  · refine ⟨fun hx => ⟨hx, ?_⟩, fun hx => hx.1⟩
    rintro rfl
    exact hm ((h.mem m x).mp hx).2.2.symm

theorem mem_takeBuffer (h : Filed k) (n : Nat) : x ∈ (takeBuffer k dev block b).chain n ↔
    x ∈ k.chain n ∧ x ≠ b ∨ x = b ∧ dev % 65536 ≠ 0 ∧ hashfn (dev % 65536) block = n := by
  rw [takeBuffer_chain]
  by_cases hzero : dev % 65536 = 0
  · simp only [hzero, if_true, mem_chainsWithout h, ne_eq, not_true_eq_false, false_and,
      and_false, or_false]
  · rw [if_neg hzero]
    by_cases hn : n = hashfn (dev % 65536) block
    · subst hn
      rw [Function.update_self, List.mem_cons, mem_chainsWithout h]
      simp only [ne_eq, hzero, not_false_eq_true, and_true, or_comm]
    · rw [Function.update_of_ne hn, mem_chainsWithout h]
      simp only [Ne.symm hn, and_false, or_false]

theorem nodup_takeBuffer (h : Filed k) (n : Nat) : ((takeBuffer k dev block b).chain n).Nodup := by
  have hleft : ∀ m, (chainsWithout k b m).Nodup :=
    (Function.forall_update_iff k.chain fun _ l => l.Nodup).mpr
      ⟨(h.nodup _).erase b, fun m _ => h.nodup m⟩
  have hout : ∀ m, b ∉ chainsWithout k b m := fun m hin => ((mem_chainsWithout h m).mp hin).2 rfl
  rw [takeBuffer_chain]
  split
  · exact hleft n
  · exact (Function.forall_update_iff (chainsWithout k b) fun _ l => l.Nodup).mpr
      ⟨List.nodup_cons.mpr ⟨hout _, hleft _⟩, fun m _ => hleft m⟩ n

/-- The end of `getblk` keeps the queues in order, when the block is not in the cache. -/
theorem Filed.take (h : Filed k) (hb : b ∈ k.buffers) (hnone : findBuffer k dev block = none)
    (hdev : dev < 65536) :
    Filed (takeBuffer k dev block b) := by
  have hdevb : ((takeBuffer k dev block b).head b).bDev = dev :=
    takeBuffer_head_self.1.trans (Nat.mod_eq_of_lt hdev)
  have hblockb : ((takeBuffer k dev block b).head b).bBlocknr = block := takeBuffer_head_self.2
  have hnew : ∀ x ∈ k.buffers, x ≠ b → dev ≠ 0 →
      ¬ (((takeBuffer k dev block b).head x).bDev = dev ∧
        ((takeBuffer k dev block b).head x).bBlocknr = block) := by
    intro x hx hne hzero
    rw [takeBuffer_head_of_ne hne]
    exact h.not_cached hnone hdev hzero hx
  refine ⟨?_, nodup_takeBuffer h, fun n x => ?_, fun x hx y hy hzero hsame hsame' => ?_⟩
  · have hin : b ∈ k.free := h.free.mem_iff.mpr hb
    exact List.perm_append_comm.trans ((List.perm_cons_erase hin).symm.trans h.free)
  · rw [mem_takeBuffer h, Nat.mod_eq_of_lt hdev]
    by_cases hx : x = b
    · subst hx
      rw [hdevb, hblockb]
      simp only [ne_eq, not_true_eq_false, and_false, true_and, false_or]
      exact ⟨fun hk => ⟨hb, hk⟩, fun hk => hk.2⟩
    · rw [takeBuffer_head_of_ne hx]
      simp only [ne_eq, hx, not_false_eq_true, and_true, false_and, or_false]
      exact h.mem n x
  · by_cases hxb : x = b
    · subst hxb
      by_contra hne
      rw [hdevb] at hzero hsame
      rw [hblockb] at hsame'
      exact hnew y hy (Ne.symm hne) hzero ⟨hsame.symm, hsame'.symm⟩
    · by_cases hyb : y = b
      · subst hyb
        rw [hdevb] at hsame
        rw [hblockb] at hsame'
        exact absurd ⟨hsame, hsame'⟩ (hnew x hx hxb (hsame ▸ hzero))
      · rw [takeBuffer_head_of_ne hxb, takeBuffer_head_of_ne hyb] at *
        exact h.unique x hx y hy hzero hsame hsame'

end

open BufferMem in
/-- The end of `getblk` does to the memory what `takeBuffer` does to the lists. -/
theorem take_represents {c : BufferMem} {k : Caches Nat} {b : Nat} (dev block : Nat)
    (h : c.view.Represents k) (hfiled : Filed k) (hb : b ∈ k.buffers) :
    ∃ c', c.take dev block b = some c' ∧ c'.view.Represents (takeBuffer k dev block b) := by
  have hcore : c.view.core b = k.head b := congrFun h.core b
  have hin : b ∈ k.free := hfiled.free.mem_iff.mpr hb
  obtain ⟨first, hfirst, hlast, hcircle⟩ := h.free.moveToEnd hin
  obtain ⟨hnext, hprev⟩ := h.free.ring.mem (List.mem_map_of_mem hin)
  obtain ⟨c', htake, hview⟩ := take_eq c dev block
    (fun e => by rw [e] at hnext; simp at hnext) (fun e => by rw [e] at hprev; simp at hprev)
      hfirst hlast
  let key : CacheHead := { c.view.core b with
    bCount := 1, bDirt := false, bUptodate := false, bDev := dev % 65536, bBlocknr := block }
  let w := (((c.view.unhashed b).unlisted b).setCore b key).listed b first
  have hkey : w.core b = key := by
    simp only [w, View.listed, View.setCore, Function.update_self]
  have hslot : w.slot b = hashSlot (dev % 65536) block := by
    rw [View.slot, hkey]
  have honly : ∀ n : Fin NR_HASH, b ∈ k.chain n → n = c.view.slot b := by
    intro n hn
    refine Fin.ext ?_
    rw [View.slot, hcore]
    exact ((hfiled.mem n b).mp hn).2.2.symm
  have hrows := h.hash.erase hb honly
  have hout := h.hash.notMem_erase honly
  rw [← update_slot] at hrows
  have hback := View.hashed_table w b hrows fun n => by
    have hn := hout n
    rwa [← update_slot] at hn
  rw [hkey, hslot] at hback
  have hold : (c.view.slot b : Nat) = hashfn (k.head b).bDev (k.head b).bBlocknr := by
    rw [View.slot, hcore]
    rfl
  rw [hold] at hback
  have hend : c'.view = w.hashed b := hview
  refine ⟨c', htake, ⟨?_, ?_, ?_, ?_⟩⟩
  · rw [hend, View.hashed_count]
    exact h.count
  · rw [hend, View.hashed_core]
    have hhead : w.core = Function.update c.view.core b key := rfl
    rw [hhead, h.core]
    simp only [key, hcore]
    rfl
  · rw [hend, View.hashed_free, View.hashed_first]
    have hbegin : w.first = some first := hfirst
    rw [hbegin]
    exact hcircle
  · rw [hend]
    exact hback

section
variable {c : BufferMem} {k : Caches Nat} {dev block b : Nat}

theorem BufferMem.findLoop_eq {p : Option Nat} {l : List Nat}
    (h : LinkedList.Chain (fun x => (c.head x).bNext) p l) (fuel : Nat) (hfuel : l.length ≤ fuel) :
    c.findLoop dev block fuel p =
      some (l.find? fun x => (c.head x).bDev = dev % 65536 ∧ (c.head x).bBlocknr = block) := by
  induction l generalizing p fuel with
  | nil =>
    obtain rfl : p = none := h
    cases fuel with
    | zero => rfl
    | succ fuel => rfl
  | cons x l ih =>
    obtain ⟨rfl, hl⟩ := h
    cases fuel with
    | zero => simp at hfuel
    | succ fuel =>
      rw [BufferMem.findLoop, List.find?_cons]
      by_cases hx : (c.head x).bDev = dev % 65536 ∧ (c.head x).bBlocknr = block
      · simp only [hx, and_self, if_true, decide_true]
      · simp only [hx, if_false, decide_false]
        exact ih hl fuel (by simpa using hfuel)

theorem scanFree_cons (c : BufferMem) (tmp : Nat) (l : List Nat) (bh : Option Nat) :
    scanFree c.view.core (tmp :: l) bh =
      if (c.scanBody tmp bh).2 then (c.scanBody tmp bh).1
        else scanFree c.view.core l (c.scanBody tmp bh).1 := by
  have hfree : scanFree c.view.core (tmp :: l) bh = if (c.head tmp).bCount ≠
    0 then scanFree c.view.core l bh
      else if bh.all fun b => BADNESS (c.head tmp).core < BADNESS (c.head b).core then
        if BADNESS (c.head tmp).core = 0 then some tmp else scanFree c.view.core l (some tmp)
      else scanFree c.view.core l bh := rfl
  rw [hfree]
  by_cases hused : (c.head tmp).bCount ≠ 0
  · have hbody : c.scanBody tmp bh = (bh, false) := if_pos hused
    simp only [hbody, if_pos hused]
    rfl
  · rw [if_neg hused]
    by_cases hbetter : bh.all fun b => BADNESS (c.head tmp).core < BADNESS (c.head b).core
    · have hbody : c.scanBody tmp bh = (some tmp, decide (BADNESS (c.head tmp).core = 0)) :=
        (if_neg hused).trans (if_pos hbetter)
      simp only [hbody, if_pos hbetter, decide_eq_true_eq]
    · have hbody : c.scanBody tmp bh = (bh, false) := (if_neg hused).trans (if_neg hbetter)
      simp only [hbody, if_neg hbetter]
      rfl

theorem BufferMem.scanLoop_eq {first : Nat} (hfirst : c.freeList = some first) (l : List Nat)
    (tmp fuel : Nat) (bh : Option Nat)
    (h : ((tmp :: l).map some ++ [some first]).IsChain c.view.free.Joined) (hl : first ∉ l)
    (hfuel : l.length < fuel) :
    c.scanLoop fuel tmp bh = some (scanFree c.view.core (tmp :: l) bh) := by
  induction fuel generalizing l tmp bh with
  | zero => omega
  | succ fuel ih =>
    rw [BufferMem.scanLoop, scanFree_cons]
    by_cases hend : (c.scanBody tmp bh).2 = true
    · simp only [hend, if_true]
    simp only [hend, if_false, Bool.false_eq_true]
    cases l with
    | nil =>
      have hnext : (c.head tmp).bNextFree = some first := (List.isChain_cons_cons.mp h).1.1 tmp rfl
      simp only [hnext, hfirst, if_true]
      rfl
    | cons x l =>
      obtain ⟨hjoined, hrest⟩ := List.isChain_cons_cons.mp h
      have hnext : (c.head tmp).bNextFree = some x := hjoined.1 tmp rfl
      have hx : some x ≠ c.freeList := fun e => hl (by rw [hfirst] at e; simp [Option.some.inj e])
      simp only [hnext, hx, if_false]
      exact ih l x _ hrest (fun hin => hl (List.mem_cons_of_mem x hin)) (by simpa using hfuel)

/-- The heads that `find_buffer` and the scan come to are those of the lists. -/
theorem findBuffer_eq (h : c.view.Represents k) (hfiled : Filed k) (dev block : Nat) :
    c.findBuffer dev block = some (findBuffer k dev block) := by
  have hchain := (h.hash.linked (hashSlot dev block)).chain
  rw [← h.hash.head] at hchain
  have hlen : (k.chain (hashfn dev block)).length ≤ c.nrBuffers := by
    have hcount : c.nrBuffers = k.buffers.length := h.count
    rw [hcount]
    exact (List.subperm_of_subset (hfiled.nodup _) fun x hx => ((hfiled.mem _ x).mp hx).1).length_le
  refine (BufferMem.findLoop_eq hchain _ hlen).trans ?_
  have hhead : ∀ x, k.head x = (c.head x).core := fun x => (congrFun h.core x).symm
  simp only [findBuffer, hhead]
  rfl

theorem scan_eq (h : c.view.Represents k) (hfiled : Filed k) (hpos : k.buffers ≠ []) :
    c.scan = some (scanFree k.head k.free none) := by
  have hhead := h.free.head
  have hring := h.free.ring
  have hnodup := h.free.nodup
  have hlen : k.free.length = c.nrBuffers := hfiled.free.length_eq.trans h.count.symm
  cases hfree : k.free with
  | nil =>
    have hempty := hfiled.free
    rw [hfree, List.nil_perm] at hempty
    exact absurd hempty hpos
  | cons first l =>
    rw [hfree] at hhead hring hnodup hlen
    have hfirst : c.freeList = some first := hhead
    rw [BufferMem.scan, hfirst, Option.bind_some, ← h.core]
    refine BufferMem.scanLoop_eq hfirst l first _ none ?_ (List.nodup_cons.mp hnodup).1
      (by simp [← hlen])
    exact (Cycle.chain_coe_cons _ _ _).mp hring

end

end Hios.Fs
