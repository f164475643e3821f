import Hios.Fs.BufferHead
import Hios.Fs.ReadWrite
import Hios.Lib.TwoEnded
import Mathlib.Data.List.Cycle

/-! `buffer_init` lays out the buffer cache: the heads from `start_buffer` up, the blocks
from the end of the buffer memory down. Pointers are addresses of 32 bits. -/
namespace Hios.Fs
open Hios.TwoEnded

structure MemHead extends BufferHead Nat Nat where
  bWait : Option Nat

def HEAD_SIZE : Nat := 36

def HOLE_START : Nat := 0xA0000

def HOLE_END : Nat := 0x100000

/-- The memory at the addresses of heads, and the variables of `buffer.c`. -/
structure BufferMem where
  head : Nat → MemHead
  nrBuffers : Nat
  freeList : Option Nat
  hashTable : Fin NR_HASH → Option Nat

def loaded (head : Nat → MemHead) : BufferMem := ⟨head, 0, none, fun _ => none⟩

def headAfter (h : Nat) : Nat := (h + HEAD_SIZE) % 2 ^ 32

def headBefore (h : Nat) : Nat := (h + (2 ^ 32 - HEAD_SIZE)) % 2 ^ 32

def blockBelow (b : Nat) : Nat := (b + (2 ^ 32 - BLOCK_SIZE)) % 2 ^ 32

def BufferMem.setHead (c : BufferMem) (h : Nat) (bh : MemHead) : BufferMem :=
  { c with head := Function.update c.head h bh }

def fillHead (h b : Nat) (c : BufferMem) : BufferMem :=
  { c.setHead h { c.head h with
      bDev := 0, bDirt := false, bCount := 0, bLock := false, bUptodate := false,
      bWait := none, bNext := none, bPrev := none, bData := b,
      bPrevFree := some (headBefore h), bNextFree := some (headAfter h) } with
    nrBuffers := c.nrBuffers + 1 }

def skipHole (b : Nat) : Nat := if b = HOLE_END then HOLE_START else b

/-- The loop of `buffer_init`: `h` is the next head, `b` the end of the next block. -/
def headLoop : Nat → Nat → Nat → BufferMem → Option (Nat × BufferMem)
  | 0, _, _, _ => none
  | fuel + 1, h, b, c =>
    let b := blockBelow b
    if headAfter h ≤ b then headLoop fuel (headAfter h) (skipHole b) (fillHead h b c)
      else some (h, c)

def closeList (start h : Nat) (c : BufferMem) : BufferMem :=
  let c := { c with freeList := some start }
  let c := c.setHead start { c.head start with bPrevFree := some h }
  c.setHead h { c.head h with bNextFree := c.freeList }

def bufferTop (bufferEnd : Nat) : Nat := if bufferEnd = HOLE_END then HOLE_START else bufferEnd

def bufferInit (fuel start bufferEnd : Nat) (c : BufferMem) : Option BufferMem := do
  let (h, c) ← headLoop fuel start (bufferTop bufferEnd) c
  return { closeList start (headBefore h) c with hashTable := fun _ => none }

def headAt (start i : Nat) : Nat := start + HEAD_SIZE * i

def cachePieces (start : Nat) (c : BufferMem) : Option (Fin c.nrBuffers) → Set Nat :=
  piece start HEAD_SIZE BLOCK_SIZE c.nrBuffers fun i => (c.head (headAt start i)).bData

def Linked (c : BufferMem) (x y : Nat) : Prop :=
  (c.head x).bNextFree = some y ∧ (c.head y).bPrevFree = some x

structure LaidOut (start bufferEnd : Nat) (c : BufferMem) : Prop where
  apart : Pairwise fun x y => Disjoint (cachePieces start c x) (cachePieces start c y)
  inside : ∀ x, cachePieces start c x ⊆ Set.Ico start bufferEnd
  hole : ∀ x, Disjoint (cachePieces start c x) (Set.Ico HOLE_START HOLE_END)
  pos : 0 < c.nrBuffers
  first : c.freeList = some start
  circle : Cycle.Chain (Linked c) ((List.range c.nrBuffers).map (headAt start))

def blocksAbove (bufferEnd : Nat) : Nat := (bufferEnd - HOLE_END) / BLOCK_SIZE

def blockAddr (bufferEnd k : Nat) : Nat :=
  if k < blocksAbove bufferEnd then bufferEnd - BLOCK_SIZE * (k + 1)
  else HOLE_START - BLOCK_SIZE * (k + 1 - blocksAbove bufferEnd)

def blockEnd (bufferEnd k : Nat) : Nat :=
  if k < blocksAbove bufferEnd then bufferEnd - BLOCK_SIZE * k
    else HOLE_START - BLOCK_SIZE * (k - blocksAbove bufferEnd)

def Fits (start bufferEnd k : Nat) : Prop := headAt start (k + 1) ≤ blockAddr bufferEnd k

instance (start bufferEnd : Nat) : DecidablePred (Fits start bufferEnd) :=
  fun _ => inferInstanceAs (Decidable (_ ≤ _))

def headsMade (start bufferEnd : Nat) (c : BufferMem) : Nat → BufferMem
  | 0 => c
  | k + 1 => fillHead (headAt start k) (blockAddr bufferEnd k) (headsMade start bufferEnd c k)

structure BufferArea (start bufferEnd : Nat) : Prop where
  low : start < HOLE_START
  high : HOLE_END ≤ bufferEnd
  word : bufferEnd < 2 ^ 32
  whole : BLOCK_SIZE ∣ bufferEnd

section
variable {start bufferEnd k n i : Nat}

theorem headAt_eq (start k : Nat) : headAt start k = start + 36 * k := rfl

theorem headAt_succ (start k : Nat) : headAt start (k + 1) = headAt start k + HEAD_SIZE := by
  simp only [headAt, Nat.mul_succ, Nat.add_assoc]

theorem headAt_inj (h : headAt start i = headAt start k) : i = k := by
  rw [headAt_eq, headAt_eq] at h
  omega

theorem headAt_succ_ne (start i : Nat) : headAt start (i + 1) ≠ start := by
  rw [headAt_eq]
  omega

theorem blockAddr_above (h : k < blocksAbove bufferEnd) :
    blockAddr bufferEnd k = bufferEnd - 1024 * (k + 1) :=
  if_pos h

theorem blockAddr_below (h : ¬ k < blocksAbove bufferEnd) :
    blockAddr bufferEnd k = 0xA0000 - 1024 * (k + 1 - blocksAbove bufferEnd) := if_neg h

theorem blockEnd_above (h : k < blocksAbove bufferEnd) :
    blockEnd bufferEnd k = bufferEnd - 1024 * k :=
  if_pos h

theorem blockEnd_below (h : ¬ k < blocksAbove bufferEnd) :
    blockEnd bufferEnd k = 0xA0000 - 1024 * (k - blocksAbove bufferEnd) := if_neg h

theorem BufferArea.end_eq (harea : BufferArea start bufferEnd) :
    bufferEnd = 0x100000 + 1024 * blocksAbove bufferEnd := by
  obtain ⟨q, hq⟩ := harea.whole
  have hhigh := harea.high
  simp only [blocksAbove, BLOCK_SIZE, HOLE_END] at hq hhigh ⊢
  omega

theorem blockEnd_zero (harea : BufferArea start bufferEnd) :
    blockEnd bufferEnd 0 = bufferTop bufferEnd := by
  have hend := harea.end_eq
  rw [bufferTop, HOLE_END, HOLE_START]
  by_cases h : 0 < blocksAbove bufferEnd
  · rw [blockEnd_above h, if_neg (by omega)]
    rfl
  · rw [blockEnd_below h, if_pos (by omega)]
    omega

theorem skipHole_blockAddr (harea : BufferArea start bufferEnd) (k : Nat) :
    skipHole (blockAddr bufferEnd k) = blockEnd bufferEnd (k + 1) := by
  have hend := harea.end_eq
  rw [skipHole, HOLE_END, HOLE_START]
  by_cases hnext : k + 1 < blocksAbove bufferEnd
  · rw [blockAddr_above (by omega), blockEnd_above hnext, if_neg (by omega)]
  · rw [blockEnd_below hnext]
    by_cases hk : k < blocksAbove bufferEnd
    · rw [blockAddr_above hk, if_pos (by omega)]
      omega
    · rw [blockAddr_below hk, if_neg (by omega)]

theorem blockBelow_blockEnd (harea : BufferArea start bufferEnd) (hpos : 0 < blockEnd bufferEnd k) :
    blockBelow (blockEnd bufferEnd k) = blockAddr bufferEnd k := by
  have hend := harea.end_eq
  have hword := harea.word
  rw [blockBelow, BLOCK_SIZE]
  by_cases hk : k < blocksAbove bufferEnd
  · rw [blockEnd_above hk, blockAddr_above hk]
    omega
  · rw [blockEnd_below hk] at hpos ⊢
    rw [blockAddr_below hk]
    omega

theorem blockEnd_pos (hfit : ∀ j < k, Fits start bufferEnd j) (harea : BufferArea start bufferEnd) :
    0 < blockEnd bufferEnd k := by
  have hend := harea.end_eq
  by_cases hk : k < blocksAbove bufferEnd
  · rw [blockEnd_above hk]
    omega
  · rw [blockEnd_below hk]
    by_cases hfirst : k = blocksAbove bufferEnd
    · omega
    · have hroom := hfit (k - 1) (by omega)
      rw [Fits, headAt_eq, blockAddr_below (by omega)] at hroom
      omega

theorem headAt_lt (hfit : ∀ j < k, Fits start bufferEnd j) (harea : BufferArea start bufferEnd) :
    headAt start k + HEAD_SIZE < 2 ^ 32 := by
  have hend := harea.end_eq
  have hlow := harea.low
  have hword := harea.word
  rw [headAt_eq, HEAD_SIZE]
  rw [HOLE_START] at hlow
  cases k with
  | zero => omega
  | succ k =>
    have hroom := hfit k (Nat.lt_succ_self k)
    rw [Fits, headAt_eq] at hroom
    by_cases hk : k < blocksAbove bufferEnd
    · rw [blockAddr_above hk] at hroom
      omega
    · rw [blockAddr_below hk] at hroom
      omega

theorem headAfter_headAt (hfit : ∀ j < k, Fits start bufferEnd j)
    (harea : BufferArea start bufferEnd) :
    headAfter (headAt start k) = headAt start (k + 1) := by
  rw [headAfter, headAt_succ, Nat.mod_eq_of_lt (headAt_lt hfit harea)]

theorem headBefore_headAt (hfit : ∀ j < k, Fits start bufferEnd j)
    (harea : BufferArea start bufferEnd) :
    headBefore (headAt start (k + 1)) = headAt start k := by
  have hlt := headAt_lt hfit harea
  rw [HEAD_SIZE] at hlt
  rw [headBefore, headAt_succ, HEAD_SIZE]
  omega

theorem headLoop_eq (c : BufferMem) (harea : BufferArea start bufferEnd)
    (hfit : ∀ j < n, Fits start bufferEnd j) (hstop : ¬ Fits start bufferEnd n) (fuel : Nat)
    (hk : k ≤ n) (hfuel : n < fuel + k) :
    headLoop fuel (headAt start k) (blockEnd bufferEnd k) (headsMade start bufferEnd c k) =
      some (headAt start n, headsMade start bufferEnd c n) := by
  induction fuel generalizing k with
  | zero => omega
  | succ fuel ih =>
    have hbefore : ∀ j < k, Fits start bufferEnd j := fun j hj => hfit j (by omega)
    rw [headLoop, blockBelow_blockEnd harea (blockEnd_pos hbefore harea),
      headAfter_headAt hbefore harea]
    by_cases heq : k = n
    · rw [heq]
      exact if_neg hstop
    · rw [skipHole_blockAddr harea]
      exact (if_pos (hfit k (by omega))).trans (ih (by omega) (by omega))

theorem exists_no_room (harea : BufferArea start bufferEnd) :
    ∃ n ≤ bufferEnd / BLOCK_SIZE, (∀ j < n, Fits start bufferEnd j) ∧ ¬ Fits start bufferEnd n := by
  have hend := harea.end_eq
  have hstop : ¬ Fits start bufferEnd (bufferEnd / 1024) := by
    rw [Fits, headAt_eq, blockAddr_below (by omega)]
    omega
  have hex : ∃ n, ¬ Fits start bufferEnd n := ⟨_, hstop⟩
  exact ⟨Nat.find hex, Nat.find_min' hex hstop, fun j hj => not_not.mp (Nat.find_min hex hj),
    Nat.find_spec hex⟩

theorem nrBuffers_headsMade (c : BufferMem) (n : Nat) :
    (headsMade start bufferEnd c n).nrBuffers = c.nrBuffers + n := by
  induction n with
  | zero => rfl
  | succ n ih => exact (congrArg (· + 1) ih).trans (Nat.add_assoc _ n 1)

structure HeadMade (start bufferEnd i : Nat) (bh : MemHead) : Prop where
  data : bh.bData = blockAddr bufferEnd i
  prevFree : bh.bPrevFree = some (headBefore (headAt start i))
  nextFree : bh.bNextFree = some (headAfter (headAt start i))

theorem headsMade_turn (c : BufferMem) (h : i < n) :
    (headsMade start bufferEnd c n).head (headAt start i) =
    (headsMade start bufferEnd c (i + 1)).head (headAt start i) := by
  induction n with
  | zero => exact absurd h (Nat.not_lt_zero i)
  | succ n ih =>
    by_cases hlast : i = n
    · rw [hlast]
    · have hne : headAt start i ≠ headAt start n := fun he => hlast (headAt_inj he)
      rw [headsMade, fillHead, BufferMem.setHead]
      simp only [Function.update_of_ne hne]
      exact ih (by omega)

theorem headsMade_head (c : BufferMem) (h : i < n) :
    HeadMade start bufferEnd i ((headsMade start bufferEnd c n).head (headAt start i)) := by
  rw [headsMade_turn c h, headsMade, fillHead, BufferMem.setHead]
  simp only [Function.update_self]
  exact ⟨rfl, rfl, rfl⟩

structure NoBlock (bh : MemHead) : Prop where
  dev : bh.bDev = 0
  next : bh.bNext = none
  prev : bh.bPrev = none

theorem headsMade_noBlock (c : BufferMem) (h : i < n) :
    NoBlock ((headsMade start bufferEnd c n).head (headAt start i)) := by
  rw [headsMade_turn c h, headsMade, fillHead, BufferMem.setHead]
  simp only [Function.update_self]
  exact ⟨rfl, rfl, rfl⟩

theorem closeList_head (start : Nat) (c : BufferMem) (x h : Nat) :
    ((closeList start h c).head x).bData = (c.head x).bData ∧
      ((closeList start h c).head x).bPrevFree =
        (if x = start then some h else (c.head x).bPrevFree) ∧
      ((closeList start h c).head x).bNextFree =
        (if x = h then some start else (c.head x).bNextFree) := by
  simp only [closeList, BufferMem.setHead, Function.update_apply]
  by_cases hx : x = h
  · subst hx
    by_cases hs : x = start
    · subst hs
      simp
    · simp [hs]
  · by_cases hs : x = start
    · subst hs
      simp [hx]
    · simp [hx, hs]

theorem NoBlock.closed {c : BufferMem} {x : Nat} (hx : NoBlock (c.head x)) (start h : Nat) :
    NoBlock ((closeList start h c).head x) := by
  have hstart : NoBlock ((c.setHead start { c.head start with bPrevFree := some h }).head x) := by
    by_cases hs : x = start
    · subst hs
      simp only [BufferMem.setHead, Function.update_self]
      exact ⟨hx.dev, hx.next, hx.prev⟩
    · simpa only [BufferMem.setHead, Function.update_of_ne hs] using hx
  by_cases hl : x = h
  · subst hl
    simp only [closeList, BufferMem.setHead, Function.update_self]
    exact ⟨hstart.dev, hstart.next, hstart.prev⟩
  · simpa only [closeList, BufferMem.setHead, Function.update_of_ne hl] using hstart

/-- The cache that is left: the `i`-th block belongs to the `i`-th head, and the links go round. -/
structure Linear (start bufferEnd n : Nat) (c : BufferMem) : Prop where
  count : c.nrBuffers = n
  first : c.freeList = some start
  data : ∀ i < n, (c.head (headAt start i)).bData = blockAddr bufferEnd i
  links : ∀ i, i + 1 < n → Linked c (headAt start i) (headAt start (i + 1))
  back : Linked c (headAt start (n - 1)) start

def cacheMade (start bufferEnd n : Nat) (head : Nat → MemHead) : BufferMem :=
  { closeList start (headAt start (n - 1)) (headsMade start bufferEnd (loaded head) n) with
    hashTable := fun _ => none }

theorem bufferInit_eq (head : Nat → MemHead) (harea : BufferArea start bufferEnd) (hpos : 0 < n)
    (hfit : ∀ j < n, Fits start bufferEnd j) (hstop : ¬ Fits start bufferEnd n) {fuel : Nat}
    (hfuel : n < fuel) :
    bufferInit fuel start bufferEnd (loaded head) = some (cacheMade start bufferEnd n head) := by
  have hlast : headBefore (headAt start n) = headAt start (n - 1) := by
    have h := headBefore_headAt (k := n - 1) (fun j hj => hfit j (by omega)) harea
    rwa [Nat.sub_add_cancel hpos] at h
  have hloop := headLoop_eq (loaded head) harea hfit hstop fuel (Nat.zero_le n) hfuel
  rw [blockEnd_zero harea] at hloop
  have hstart : headLoop fuel start (bufferTop bufferEnd) (loaded head) =
      some (headAt start n, headsMade start bufferEnd (loaded head) n) := hloop
  simp only [bufferInit, hstart, Option.bind_eq_bind, Option.bind_some, hlast]
  rfl

theorem cacheMade_linear (head : Nat → MemHead) (harea : BufferArea start bufferEnd)
    (hpos : 0 < n) (hfit : ∀ j < n, Fits start bufferEnd j) :
    Linear start bufferEnd n (cacheMade start bufferEnd n head) := by
  let c := headsMade start bufferEnd (loaded head) n
  have hmade : ∀ i < n, HeadMade start bufferEnd i (c.head (headAt start i)) :=
    fun i hi => headsMade_head _ hi
  have hclose := closeList_head start c
  refine ⟨(nrBuffers_headsMade (loaded head) n).trans (Nat.zero_add n), rfl, fun i hi => ?_,
    fun i hi => ⟨?_, ?_⟩, ?_, ?_⟩
  · exact (hclose _ _).1.trans (hmade i hi).data
  · refine (hclose _ _).2.2.trans ?_
    have hne : headAt start i ≠ headAt start (n - 1) := by
      intro h
      have hi' := headAt_inj h
      omega
    rw [if_neg hne, (hmade i (by omega)).nextFree,
      headAfter_headAt (fun j hj => hfit j (by omega)) harea]
  · refine (hclose _ _).2.1.trans ?_
    rw [if_neg (headAt_succ_ne start i), (hmade (i + 1) hi).prevFree,
      headBefore_headAt (fun j hj => hfit j (by omega)) harea]
  · exact (hclose _ _).2.2.trans (if_pos rfl)
  · exact (hclose _ _).2.1.trans (if_pos rfl)

theorem cacheMade_noBlock (head : Nat → MemHead) (h : i < n) :
    NoBlock ((cacheMade start bufferEnd n head).head (headAt start i)) :=
  (headsMade_noBlock (loaded head) h).closed start _

theorem blockAddr_down (harea : BufferArea start bufferEnd) (hfit : Fits start bufferEnd (k + 1)) :
    blockAddr bufferEnd (k + 1) + BLOCK_SIZE ≤ blockAddr bufferEnd k := by
  have hend := harea.end_eq
  rw [Fits, headAt_eq] at hfit
  rw [BLOCK_SIZE]
  by_cases hnext : k + 1 < blocksAbove bufferEnd
  · rw [blockAddr_above hnext, blockAddr_above (by omega)]
    omega
  · rw [blockAddr_below hnext] at hfit ⊢
    by_cases hk : k < blocksAbove bufferEnd
    · rw [blockAddr_above hk]
      omega
    · rw [blockAddr_below hk]
      omega

theorem blockAddr_outside (harea : BufferArea start bufferEnd) (k : Nat) :
    blockAddr bufferEnd k + BLOCK_SIZE ≤ HOLE_START ∨ HOLE_END ≤ blockAddr bufferEnd k := by
  have hend := harea.end_eq
  rw [BLOCK_SIZE, HOLE_START, HOLE_END]
  by_cases hk : k < blocksAbove bufferEnd
  · rw [blockAddr_above hk]
    omega
  · rw [blockAddr_below hk]
    omega

theorem blockAddr_zero (harea : BufferArea start bufferEnd) :
    blockAddr bufferEnd 0 + BLOCK_SIZE = bufferTop bufferEnd := by
  have hend := harea.end_eq
  rw [bufferTop, HOLE_END, HOLE_START, BLOCK_SIZE]
  by_cases h : 0 < blocksAbove bufferEnd
  · rw [blockAddr_above h, if_neg (by omega)]
    omega
  · rw [blockAddr_below h, if_pos (by omega)]
    omega

theorem bufferTop_le (harea : BufferArea start bufferEnd) : bufferTop bufferEnd ≤ bufferEnd := by
  have hhigh := harea.high
  rw [HOLE_END] at hhigh
  rw [bufferTop, HOLE_END, HOLE_START]
  split
  · omega
  · omega

/-- The heads stay below the hole exactly when those of the blocks above it do. -/
theorem heads_below_iff (harea : BufferArea start bufferEnd)
    (hfit : ∀ j < n, Fits start bufferEnd j) (hstop : ¬ Fits start bufferEnd n) :
    headAt start n ≤ HOLE_START ↔ headAt start (blocksAbove bufferEnd) ≤ HOLE_START := by
  have hend := harea.end_eq
  simp only [HOLE_START, headAt_eq]
  constructor
  · intro h
    by_contra hover
    rw [Fits, headAt_eq, blockAddr_above (by omega)] at hstop
    omega
  · intro h
    by_cases hn : n ≤ blocksAbove bufferEnd
    · omega
    · have hroom := hfit (n - 1) (by omega)
      rw [Fits, headAt_eq, blockAddr_below (by omega)] at hroom
      omega

def Linear.arena {c : BufferMem} (h : Linear start bufferEnd n c)
  (harea : BufferArea start bufferEnd)
    (hfit : ∀ j < n, Fits start bufferEnd j) : Arena where
  lo := start
  record := HEAD_SIZE
  size := BLOCK_SIZE
  count := c.nrBuffers
  block := fun i => (c.head (headAt start i)).bData
  down := by
    intro k hk
    rw [h.count] at hk
    rw [h.data (k + 1) hk, h.data k (by omega)]
    exact blockAddr_down harea (hfit (k + 1) hk)
  room := by
    intro k hk
    rw [h.count] at hk
    rw [h.data k hk]
    exact hfit k hk

theorem Linear.circle {c : BufferMem} (h : Linear start bufferEnd n c) (hpos : 0 < n) :
    Cycle.Chain (Linked c) ((List.range c.nrBuffers).map (headAt start)) := by
  rw [h.count, ← Cycle.map_coe, Cycle.chain_map]
  obtain ⟨m, rfl⟩ : ∃ m, n = m + 1 := ⟨n - 1, by omega⟩
  exact (Cycle.chain_range_succ _ m).mpr ⟨h.back, fun i hi => h.links i (by omega)⟩

theorem Linear.laidOut_iff {c : BufferMem} (h : Linear start bufferEnd n c)
    (harea : BufferArea start bufferEnd) (hpos : 0 < n) (hfit : ∀ j < n, Fits start bufferEnd j)
    (hstop : ¬ Fits start bufferEnd n) :
    LaidOut start bufferEnd c ↔ start + HEAD_SIZE * blocksAbove bufferEnd ≤ HOLE_START := by
  let A := h.arena harea hfit
  obtain rfl := h.count
  have hhole : (∀ x, Disjoint (cachePieces start c x) (Set.Ico HOLE_START HOLE_END)) ↔
      headAt start c.nrBuffers ≤ HOLE_START := by
    refine A.disjoint_hole_iff harea.low (by decide) fun i hi => ?_
    have hout := blockAddr_outside harea i
    rwa [← h.data i hi] at hout
  refine Iff.trans ⟨fun hlaid => hhole.mp hlaid.hole, fun hle => ?_⟩
    (heads_below_iff harea hfit hstop)
  have htop : (c.head (headAt start 0)).bData + BLOCK_SIZE ≤ bufferEnd := by
    rw [h.data 0 hpos, blockAddr_zero harea]
    exact bufferTop_le harea
  exact ⟨A.pairwise_disjoint, A.piece_subset hpos htop, hhole.mpr hle, hpos, h.first, h.circle hpos⟩

theorem fits_zero (harea : BufferArea start bufferEnd)
    (hone : start + HEAD_SIZE + BLOCK_SIZE ≤ bufferTop bufferEnd) :
    Fits start bufferEnd 0 := by
  rw [← blockAddr_zero harea] at hone
  exact Nat.le_of_add_le_add_right hone

theorem exists_count (harea : BufferArea start bufferEnd)
    (hone : start + HEAD_SIZE + BLOCK_SIZE ≤ bufferTop bufferEnd) :
    ∃ n ≤ bufferEnd / BLOCK_SIZE, 0 < n ∧ (∀ j < n, Fits start bufferEnd j) ∧
    ¬ Fits start bufferEnd n := by
  obtain ⟨n, hn, hfit, hstop⟩ := exists_no_room harea
  refine ⟨n, hn, ?_, hfit, hstop⟩
  by_contra hzero
  rw [Nat.eq_zero_of_not_pos hzero] at hstop
  exact hstop (fits_zero harea hone)

theorem bufferInit_laidOut_iff (head : Nat → MemHead) (harea : BufferArea start bufferEnd)
    (hone : start + HEAD_SIZE + BLOCK_SIZE ≤ bufferTop bufferEnd) :
    ∃ c, (∀ fuel, bufferEnd / BLOCK_SIZE < fuel →
      bufferInit fuel start bufferEnd (loaded head) = some c) ∧
      (LaidOut start bufferEnd c ↔ start + HEAD_SIZE * blocksAbove bufferEnd ≤ HOLE_START) := by
  obtain ⟨n, hn, hpos, hfit, hstop⟩ := exists_count harea hone
  exact ⟨cacheMade start bufferEnd n head,
    fun fuel hfuel => bufferInit_eq head harea hpos hfit hstop (by omega),
    (cacheMade_linear head harea hpos hfit).laidOut_iff harea hpos hfit hstop⟩

/-- `buffer_init` always ends, and lays the cache out as it should be exactly when the heads
of the blocks above 1 MB all find room below 640 KB. -/
theorem buffer_init_layout_iff (head : Nat → MemHead) (start bufferEnd : Nat)
    (hlow : start < HOLE_START) (hhigh : HOLE_END ≤ bufferEnd) (hword : bufferEnd < 2 ^ 32)
    (hwhole : BLOCK_SIZE ∣ bufferEnd)
    (hone : start + HEAD_SIZE + BLOCK_SIZE ≤ bufferTop bufferEnd) :
    ∃ c, (∀ fuel, bufferEnd / BLOCK_SIZE < fuel →
      bufferInit fuel start bufferEnd (loaded head) = some c) ∧
      (LaidOut start bufferEnd c ↔ start + HEAD_SIZE * blocksAbove bufferEnd ≤ HOLE_START) :=
  bufferInit_laidOut_iff head ⟨hlow, hhigh, hword, hwhole⟩ hone

def blankHead : MemHead := ⟨⟨0, 0, 0, false, false, 0, false, none, none, none, none⟩, none⟩

theorem buffer_init_layout_iff_4MB :
    ∃ c, (∀ fuel, 0x400000 / BLOCK_SIZE < fuel →
      bufferInit fuel 0x20000 0x400000 (loaded fun _ => blankHead) = some c) ∧
      (LaidOut 0x20000 0x400000 c ↔ 0x20000 + HEAD_SIZE * blocksAbove 0x400000 ≤ HOLE_START) :=
  buffer_init_layout_iff (fun _ => blankHead) 0x20000 0x400000 (by decide) (by decide) (by decide)
    (by decide) (by decide)

theorem buffer_init_16MB_not_laidOut :
    ∃ c, (∀ fuel, 0x1000000 / BLOCK_SIZE < fuel →
      bufferInit fuel 0x20000 0x1000000 (loaded fun _ => blankHead) = some c) ∧
      ¬ LaidOut 0x20000 0x1000000 c := by
  have harea : BufferArea 0x20000 0x1000000 := ⟨by decide, by decide, by decide, by decide⟩
  obtain ⟨c, hrun, hiff⟩ := bufferInit_laidOut_iff (fun _ => blankHead) harea (by decide)
  exact ⟨c, hrun, fun hlaid => absurd (hiff.mp hlaid) (by decide)⟩

end

end Hios.Fs
