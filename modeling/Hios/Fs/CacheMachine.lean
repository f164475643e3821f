import Hios.Fs.BlockCache
import Hios.Fs.SyncDev

/-! The functions of `buffer.c` over any machine that has the lists of the heads, sleeps and
transfers blocks. The block cache and the caches of `sync_dev` are two such machines. -/
namespace Hios.Fs
open Hios.BlkDrv
variable {σ β δ : Type} [DecidableEq β]

structure CacheMachine (σ β : Type) where
  caches : σ → Caches β
  wait : β → σ → Option σ
  count : β → Nat → σ → σ
  release : β → σ → Option σ
  take : Nat → Nat → β → σ → σ
  sync : Nat → σ → Option σ
  llRwBlock : Nat → β → σ → Option σ

namespace CacheMachine

def getHashTable (M : CacheMachine σ β) (dev block : Nat) : Nat → σ → Option (Option β × σ)
  | 0, _ => none
  | fuel + 1, s =>
    match findBuffer (M.caches s) dev block with
    | none => some (none, s)
    | some b => do
      let s ← M.wait b (M.count b 1 s)
      let h := (M.caches s).head b
      if h.bDev = dev % 65536 ∧ h.bBlocknr = block then return (some b, s)
      else M.getHashTable dev block fuel (M.count b 255 s)

def writeOut (M : CacheMachine σ β) (b : β) : Nat → σ → Option (Bool × σ)
  | 0, _ => none
  | fuel + 1, s =>
    if ((M.caches s).head b).bDirt then do
      let s ← M.sync ((M.caches s).head b).bDev s
      let s ← M.wait b s
      if ((M.caches s).head b).bCount ≠ 0 then return (true, s) else M.writeOut b fuel s
    else some (false, s)

def getblk (M : CacheMachine σ β) (dev block : Nat) : Nat → σ → Option (β × σ)
  | 0, _ => none
  | fuel + 1, s => do
    let (found, s) ← M.getHashTable dev block fuel s
    match found with
    | some b => return (b, s)
    | none =>
      let b ← scanFree (M.caches s).head (M.caches s).free none
      let s ← M.wait b s
      if ((M.caches s).head b).bCount ≠ 0 then M.getblk dev block fuel s else
      let (again, s) ← M.writeOut b fuel s
      if again then M.getblk dev block fuel s
      else if (findBuffer (M.caches s) dev block).isSome then M.getblk dev block fuel s
      else return (b, M.take dev block b s)

def brelse (M : CacheMachine σ β) (b : β) (s : σ) : Option σ := do
  let s ← M.wait b s
  M.release b s

def bread (M : CacheMachine σ β) (dev block fuel : Nat) (s : σ) : Option (Option β × σ) := do
  let (b, s) ← M.getblk dev block fuel s
  if ((M.caches s).head b).bUptodate then return (some b, s) else
  let s ← M.llRwBlock READ b s
  let s ← M.wait b s
  if ((M.caches s).head b).bUptodate then return (some b, s) else
  let s ← M.brelse b s
  return (none, s)

end CacheMachine

namespace BlockCache
variable (pace : Pace) (dev block : Nat)

def machine : CacheMachine (BlockCache β δ) β where
  caches := caches
  wait := waitOnBuffer pace
  count b n s := s.addCount b n
  release b s := if (s.io.bh b).bCount = 0 then none else some (s.addCount b 255)
  take dev block b s := s.take dev block b
  sync := syncDev pace
  llRwBlock := llRwBlock pace

theorem getHashTable_machine (fuel : Nat) (s : BlockCache β δ) :
    s.getHashTable pace dev block fuel = (machine pace).getHashTable dev block fuel s := by
  induction fuel generalizing s with
  | zero => rfl
  | succ fuel ih =>
    simp only [getHashTable, ih]
    rfl

theorem writeOut_machine (b : β) (fuel : Nat) (s : BlockCache β δ) :
    s.writeOut pace b fuel = (machine pace).writeOut b fuel s := by
  induction fuel generalizing s with
  | zero => rfl
  | succ fuel ih =>
    simp only [writeOut, ih]
    rfl

theorem getblk_machine (fuel : Nat) (s : BlockCache β δ) :
    s.getblk pace dev block fuel = (machine pace).getblk dev block fuel s := by
  induction fuel generalizing s with
  | zero => rfl
  | succ fuel ih =>
    simp only [getblk, ih, getHashTable_machine, writeOut_machine]
    rfl

theorem brelse_machine (b : β) (s : BlockCache β δ) : s.brelse pace b = (machine pace).brelse b s :=
  rfl

theorem bread_machine (fuel : Nat) (s : BlockCache β δ) :
    s.bread pace dev block fuel = (machine pace).bread dev block fuel s := by
  simp only [bread, getblk_machine]
  rfl

end BlockCache

namespace SyncState
variable (drv : Driver β) (sync : Nat → SyncState β → Option (SyncState β)) {dev block : Nat}

def machine : CacheMachine (SyncState β) β where
  caches := toCaches
  wait := waitOnBuffer drv
  count b n s := s.setHead b { s.head b with bCount := ((s.head b).bCount + n) % 256 }
  release b s := (releaseBuffer s.toCaches b).map fun caches => { s with toCaches := caches }
  take dev block b s := { s with toCaches := takeBuffer s.toCaches dev block b }
  sync := sync
  llRwBlock := llRwBlock drv

/-- A buffer that is waited for stays the one of its block, so one turn is enough. -/
theorem getHashTable_machine (fuel : Nat) (s : SyncState β) :
    (machine drv sync).getHashTable dev block (fuel + 1) s = s.getHashTable drv dev block := by
  have hcaches : (machine drv sync).caches = toCaches := rfl
  rw [CacheMachine.getHashTable, getHashTable, hcaches]
  cases hfound : findBuffer s.toCaches dev block with
  | none => rfl
  | some b =>
    have hkey := List.find?_some hfound
    simp only [decide_eq_true_eq] at hkey
    have hwait : (machine drv sync).wait b ((machine drv sync).count b 1 s) =
        (s.setHead b { s.head b with bCount := ((s.head b).bCount + 1) % 256 }).waitOnBuffer
          drv b := rfl
    dsimp only
    rw [hwait]
    cases ht : (s.setHead b { s.head b with bCount := ((s.head b).bCount + 1) % 256 }).waitOnBuffer
      drv b with
    | none => rfl
    | some t =>
      obtain ⟨hdev, hblock, -⟩ := (waitOnBuffer_waited ht).1.place b
      have hsame : (t.head b).bDev = dev % 65536 ∧ (t.head b).bBlocknr = block := by
        rw [hdev, hblock]
        simpa [setHead] using hkey
      simp only [Option.bind_eq_bind, Option.bind_some, if_pos hsame]

theorem writeOut_machine (b : β) (fuel : Nat) (s : SyncState β) :
    s.writeOut drv sync b fuel = (machine drv sync).writeOut b fuel s := by
  induction fuel generalizing s with
  | zero => rfl
  | succ fuel ih =>
    simp only [writeOut, ih]
    rfl

theorem getblk_machine {fuel : Nat} {s : SyncState β} {r : β × SyncState β}
    (h : (machine drv sync).getblk dev block fuel s = some r) :
    s.getblk drv sync dev block fuel = some r := by
  induction fuel generalizing s with
  | zero => cases h
  | succ fuel ih =>
    cases fuel with
    | zero => cases h
    | succ fuel =>
      have hcaches : (machine drv sync).caches = toCaches := rfl
      rw [CacheMachine.getblk, getHashTable_machine, hcaches] at h
      obtain ⟨found, hfound, h⟩ := Option.bind_eq_some_iff.mp h
      rw [getblk, hfound, Option.bind_eq_bind, Option.bind_some]
      obtain ⟨_ | b, t⟩ := found
      · obtain ⟨b, hb, h⟩ := Option.bind_eq_some_iff.mp h
        obtain ⟨u, hu, h⟩ := Option.bind_eq_some_iff.mp h
        refine Option.bind_eq_some_iff.mpr ⟨b, hb, Option.bind_eq_some_iff.mpr ⟨u, hu, ?_⟩⟩
        dsimp only at h ⊢
        split at h
        · rename_i hcount
          rw [if_pos hcount]
          exact ih h
        · rename_i hcount
          rw [if_neg hcount, writeOut_machine]
          obtain ⟨again, hagain, h⟩ := Option.bind_eq_some_iff.mp h
          refine Option.bind_eq_some_iff.mpr ⟨again, hagain, ?_⟩
          split at h
          · rename_i hyes
            rw [if_pos hyes]
            exact ih h
          · rename_i hno
            rw [if_neg hno]
            split at h
            · rename_i hthere
              rw [if_pos hthere]
              exact ih h
            · rename_i hthere
              rw [if_neg hthere]
              exact h
      · exact h

theorem brelse_machine (b : β) (s : SyncState β) :
    s.brelse drv b = (machine drv sync).brelse b s := by
  simp only [brelse, CacheMachine.brelse, machine, Option.bind_eq_bind, Option.pure_def,
    Option.map_eq_bind]
  rfl

theorem bread_machine {fuel : Nat} {s : SyncState β} {r : Option β × SyncState β}
    (h : (machine drv sync).bread dev block fuel s = some r) :
    s.bread drv sync fuel dev block = some r := by
  obtain ⟨found, hfound, h⟩ := Option.bind_eq_some_iff.mp h
  rw [bread, getblk_machine drv sync hfound, Option.bind_eq_bind, Option.bind_some]
  simp only [brelse_machine drv sync]
  exact h

end SyncState

end Hios.Fs
