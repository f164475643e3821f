import Hios.Fs.InodeTable
import Hios.Lib.Outcome

/-! What `bread` and `brelse` do to the references of buffers. -/
namespace Hios.Fs
open Hios.Outcome
variable {dev block d b : Nat} {fs fs' : FileSystem}

def bufferCount (fs : FileSystem) (dev block : Nat) : Nat :=
  ((fs.buffer dev block).map (·.count)).getD 0

def cached (fs : FileSystem) (dev block : Nat) : Bool := (fs.buffer dev block).any (·.uptodate)

def available (fs : FileSystem) (dev k block : Nat) : Bool :=
  cached fs dev block || fs.readable (fs.reads + k) dev block

def content (fs : FileSystem) (dev block : Nat) : Block :=
  match fs.buffer dev block with
  | none => fs.disk dev block
  | some bh => if bh.uptodate then bh.data else fs.disk dev block

def CountsFit (fs : FileSystem) : Prop := ∀ d b, bufferCount fs d b < 256

def OnlyBuffers (fs fs' : FileSystem) : Prop :=
  fs' = { fs with reads := fs'.reads, buffer := fs'.buffer }

theorem OnlyBuffers.refl (fs : FileSystem) : OnlyBuffers fs fs := rfl

theorem OnlyBuffers.trans {fs'' : FileSystem} (h : OnlyBuffers fs fs') (h' : OnlyBuffers fs' fs'') :
    OnlyBuffers fs fs'' := by
  rw [OnlyBuffers, h', h]

theorem onlyBuffers_setBuffer (fs : FileSystem) (dev block : Nat) (bh : Option Buffer) :
    OnlyBuffers fs (fs.setBuffer dev block bh) := rfl

theorem setBuffer_buffer (fs : FileSystem) (dev block : Nat) (bh : Option Buffer) (d b : Nat) :
    (fs.setBuffer dev block bh).buffer d b = if d = dev ∧ b = block then bh else fs.buffer d b := by
  by_cases hd : d = dev
  · by_cases hb : b = block
    · simp [FileSystem.setBuffer, hd, hb]
    · simp [FileSystem.setBuffer, hd, hb]
  · simp [FileSystem.setBuffer, hd]

theorem setBuffer_setBuffer (fs : FileSystem) (dev block : Nat) (bh bh' : Option Buffer) :
    (fs.setBuffer dev block bh).setBuffer dev block bh' = fs.setBuffer dev block bh' := by
  simp [FileSystem.setBuffer]

theorem setInode_inode (fs : FileSystem) (i : InodeIx) (m : MInode) :
    (fs.setInode i m).inode i = m :=
  Function.update_self ..

theorem setInode_setInode (fs : FileSystem) (i : InodeIx) (m m' : MInode) :
    (fs.setInode i m).setInode i m' = fs.setInode i m' := by
  simp [FileSystem.setInode]

theorem bufferCount_of_some {bh : Buffer} (h : fs.buffer dev block = some bh) :
    bufferCount fs dev block = bh.count := by
  simp [bufferCount, h]

theorem bufferCount_setBuffer (fs : FileSystem) (dev block : Nat) (bh : Buffer) (d b : Nat) :
    bufferCount (fs.setBuffer dev block (some bh)) d b =
      if d = dev ∧ b = block then bh.count else bufferCount fs d b := by
  simp only [bufferCount, setBuffer_buffer]
  split
  · rfl
  · rfl

theorem getblk_count (fs : FileSystem) (dev block : Nat) :
    (getblk dev block fs).count = (bufferCount fs dev block + 1) % 256 := by
  cases h : fs.buffer dev block with
  | none => simp [getblk, bufferCount, h]
  | some bh => simp [getblk, bufferCount, h]

theorem getblk_uptodate (fs : FileSystem) (dev block : Nat) :
    (getblk dev block fs).uptodate = cached fs dev block := by
  cases h : fs.buffer dev block with
  | none => simp [getblk, cached, h]
  | some bh => simp [getblk, cached, h]

theorem getblk_data (h : cached fs dev block = true) :
    (getblk dev block fs).data = content fs dev block := by
  cases hb : fs.buffer dev block with
  | none => simp [cached, hb] at h
  | some bh =>
    have hup : bh.uptodate = true := by simpa [cached, hb] using h
    simp [getblk, content, hb, hup]

theorem content_of_not_cached (h : cached fs dev block = false) :
    content fs dev block = fs.disk dev block := by
  cases hb : fs.buffer dev block with
  | none => simp [content, hb]
  | some bh =>
    have hup : bh.uptodate = false := by simpa [cached, hb] using h
    simp [content, hb, hup]

/-- `bread` succeeds: the block is up to date in the cache and held once more. -/
theorem bread_available (h : available fs dev 0 block = true) :
    ∃ bh, bread dev block fs =
        .ok (some (content fs dev block), { fs with reads := fs.reads + 1 }.setBuffer dev block
          (some bh)) ∧
      bh.data = content fs dev block ∧ bh.uptodate = true ∧
      bh.count = (bufferCount fs dev block + 1) % 256 ∧
      (bh.dirt = true → ∃ old, fs.buffer dev block = some old ∧ old.dirt = true ∧
        cached fs dev block = true) := by
  have hcount := getblk_count fs dev block
  have hup := getblk_uptodate fs dev block
  cases hc : cached fs dev block with
  | true =>
    have hdata := getblk_data hc
    rw [hc] at hup
    refine ⟨getblk dev block fs, ?_, hdata, hup, hcount, fun hd => ?_⟩
    · simp [bread, hup, hdata]
    · cases hb : fs.buffer dev block with
      | none => simp [cached, hb] at hc
      | some bh => exact ⟨bh, rfl, by simpa [getblk, hb] using hd, rfl⟩
  | false =>
    have hread : fs.readable fs.reads dev block = true := by simpa [available, hc] using h
    have hdata := content_of_not_cached hc
    rw [hc] at hup
    refine ⟨{ getblk dev block fs with data := fs.disk dev block, uptodate := true, dirt := false },
      ?_, hdata.symm,
      rfl, hcount, fun hd => ?_⟩
    · simp [bread, hup, hdata, hread]
    · cases hd

/-- `bread` fails: the block is not up to date, and the reference is given back. -/
theorem bread_unavailable (h : available fs dev 0 block = false) :
    bread dev block fs =
      if (bufferCount fs dev block + 1) % 256 = 0 then .error .freeFreeBuffer
      else .ok (none, { fs with reads := fs.reads + 1 }.setBuffer dev block
        (some { getblk dev block fs with dirt := false, count := (bufferCount fs dev block + 1) %
          256 - 1 })) := by
  have hcount := getblk_count fs dev block
  obtain ⟨hc, hread⟩ : cached fs dev block = false ∧ fs.readable fs.reads dev block = false := by
    simpa [available] using h
  have hup := getblk_uptodate fs dev block
  rw [hc] at hup
  simp only [bread, hup, hread, Bool.false_eq_true, if_false, brelse, setBuffer_buffer, and_self,
    if_true, hcount]
  split
  · rfl
  · simp [FileSystem.setBuffer, pure, Except.pure, bind, Except.bind]

theorem brelse_eq_ok : brelse dev block fs = .ok fs' ↔
    ∃ bh, fs.buffer dev block = some bh ∧ bh.count ≠ 0 ∧
      fs' = fs.setBuffer dev block (some { bh with count := bh.count - 1 }) := by
  cases h : fs.buffer dev block with
  | none => simp [brelse, h]
  | some bh =>
    by_cases hc : bh.count = 0
    · simp [brelse, h, hc]
    · simp [brelse, h, hc, eq_comm]

theorem bread_only (dev block : Nat) (fs : FileSystem) :
    IfReturns (fun r => OnlyBuffers fs r.2) (bread dev block fs) := by
  cases ha : available fs dev 0 block with
  | true =>
    obtain ⟨bh, hbread, -⟩ := bread_available ha
    rw [hbread]
    rfl
  | false =>
    rw [bread_unavailable ha]
    split
    · trivial
    · rfl

theorem brelse_only (dev block : Nat) (fs : FileSystem) :
    IfReturns (OnlyBuffers fs) (brelse dev block fs) := by
  refine ifReturns_iff.mpr fun fs' hfs' => ?_
  obtain ⟨bh, -, -, rfl⟩ := brelse_eq_ok.mp hfs'
  rfl

theorem OnlyBuffers.inode (h : OnlyBuffers fs fs') : fs'.inode = fs.inode := by
  rw [h]

end Hios.Fs
