import Hios.Fs.ReadWrite
import Hios.Fs.Balance

/-! The block numbers that `file_read` and `find_entry` pass to `bmap`: they come
from the size on the disk, which nothing compares with what a file can map. -/
namespace Hios.Fs
open Hios.Outcome
variable {α β : Type} {fs fs' : FileSystem} {i : InodeIx}

def MAPPABLE : Nat := 7 + 512 + 512 * 512

def Bounded (x : Except Panic α) : Prop := x ≠ .error .blockTooBig

theorem Bounded.ok (a : α) : Bounded (.ok a) := fun h => nomatch h

theorem Bounded.error {p : Panic} (hp : p ≠ .blockTooBig) : Bounded (.error p : Except Panic α) :=
  fun h => hp (Except.error.inj h)

theorem Bounded.bind {x : Except Panic α} {f : α → Except Panic β} (hx : Bounded x)
    (hf : ∀ a, x = .ok a → Bounded (f a)) : Bounded (x >>= f) := by
  cases x with
  | ok a => exact hf a rfl
  | error p => exact .error fun h => hx (h ▸ rfl)

theorem Bounded.foldlM {γ : Type} {f : α → γ → Except Panic α} (hf : ∀ a c, Bounded (f a c))
    (l : List γ) (a : α) :
    Bounded (l.foldlM f a) := by
  induction l generalizing a with
  | nil => exact .ok a
  | cons c l ih => exact (hf a c).bind fun b _ => ih b

theorem brelse_bounded (dev block : Nat) (fs : FileSystem) : Bounded (brelse dev block fs) := by
  unfold brelse
  cases fs.buffer dev block with
  | none => exact .error Panic.noConfusion
  | some bh =>
    dsimp only
    split
    · exact .error Panic.noConfusion
    · exact .ok _

theorem bread_bounded (dev block : Nat) (fs : FileSystem) : Bounded (bread dev block fs) := by
  unfold bread
  dsimp only
  split
  · exact .ok _
  split
  · exact .ok _
  · exact (brelse_bounded _ _ _).bind fun _ _ => .ok _

theorem bmap_bounded (i : InodeIx) {block : Nat} (h : block < MAPPABLE) (fs : FileSystem) :
    Bounded (bmap i block fs) := by
  have hin : ¬ 7 + 512 + 512 * 512 ≤ block := Nat.not_le_of_lt h
  unfold bmap
  dsimp only
  rw [if_neg hin]
  split
  · exact .ok _
  split
  · split
    · exact .ok _
    refine (bread_bounded _ _ fs).bind fun r _ => ?_
    split
    · exact .ok _
    · exact (brelse_bounded _ _ _).bind fun _ _ => .ok _
  · split
    · exact .ok _
    refine (bread_bounded _ _ fs).bind fun r _ => ?_
    split
    · exact .ok _
    · refine (brelse_bounded _ _ _).bind fun fs _ => ?_
      split
      · exact .ok _
      refine (bread_bounded _ _ fs).bind fun r _ => ?_
      split
      · exact .ok _
      · exact (brelse_bounded _ _ _).bind fun _ _ => .ok _

theorem fileReadLoop_pos (i : InodeIx) (fuel left pos : Nat) (out : List Byte) (fs : FileSystem) :
    IfReturns (fun r => r.2.1 ≤ pos + left) (fileReadLoop i fuel left pos out fs) := by
  induction fuel generalizing left pos out fs with
  | zero => exact Nat.le_add_right _ _
  | succ fuel ih =>
    unfold fileReadLoop
    split
    · exact Nat.le_add_right _ _
    have hnext : ∀ out fs, IfReturns (fun r => r.2.1 ≤ pos + left)
        (fileReadLoop i fuel (left - min (BLOCK_SIZE - pos % BLOCK_SIZE) left)
          (pos + min (BLOCK_SIZE - pos % BLOCK_SIZE) left) out fs) := fun out fs =>
      (ih _ _ out fs).mono fun r hr => by omega
    refine ifReturns_iff.mpr fun r hr => ?_
    obtain ⟨⟨nr, fs₁⟩, -, hr⟩ := bind_eq_ok.mp hr
    by_cases hnr : nr = 0
    · simp only [hnr, if_true] at hr
      exact (hnext _ _).of_ok hr
    · simp only [hnr, if_false] at hr
      obtain ⟨⟨data, fs₂⟩, -, hr⟩ := bind_eq_ok.mp hr
      cases data with
      | none =>
        obtain rfl := Except.ok.inj hr
        exact Nat.le_add_right _ _
      | some data =>
        obtain ⟨fs₃, -, hr⟩ := bind_eq_ok.mp hr
        exact (hnext _ _).of_ok hr

variable {m : DInode} {pos fd : Nat} {filp : Fin NR_FILE} {count : Int}

theorem iSize_lt (d : DInode) : d.iSize < 2 ^ 32 := by
  have h₁ := (d 4).isLt
  have h₂ := (d 5).isLt
  have h₃ := (d 6).isLt
  have h₄ := (d 7).isLt
  change (d 4).toNat + 256 * (d 5).toNat + 65536 * ((d 6).toNat + 256 * (d 7).toNat) < 2 ^ 32
  omega

def readCount (size pos : Nat) : Int :=
  if size < (size + pos) % 2 ^ 32 then toInt32 (size + 2 ^ 32 - pos % 2 ^ 32) else toInt32 size

theorem readCount_eq {size : Nat} (hsize : size < 2 ^ 31) (hpos : pos ≤ size) :
    readCount size pos = ((size - pos : Nat) : Int) := by
  unfold readCount toInt32
  split
  · rw [if_pos (by omega)]
    omega
  · rw [if_pos (by omega)]
    omega

theorem readCount_neg {size : Nat} (hsize : 2 ^ 31 ≤ size) (hlt : size < 2 ^ 32) :
    readCount size 0 < 0 := by
  unfold readCount toInt32
  rw [if_neg (by omega), if_neg (by omega)]
  omega

/-- Descriptor `fd` is open on an inode with the fields `m` on disk, at position `pos`. -/
structure OpenAt (m : DInode) (pos fd : Nat) (filp : Fin NR_FILE) (i : InodeIx) (fs : FileSystem) :
  Prop where
  descriptor : ∃ h : fd < NR_OPEN, fs.filp ⟨fd, h⟩ = some filp
  inode : (fs.file filp).fInode = .entry i
  disk : (fs.inode i).d = m
  position : (fs.file filp).fPos = pos

theorem sysReadWith_open
    {read : InodeIx → Fin NR_FILE → Int → FileSystem → Except Panic (Int × List Byte × FileSystem)}
    (hmode : S_ISREG m.iMode ∨ S_ISDIR m.iMode) (h : OpenAt m pos fd filp i fs)
    (hcount : 0 ≤ count) :
    sysReadWith read fd count fs =
      if readCount m.iSize pos ≤ 0 then .ok (0, [], fs)
        else read i filp (readCount m.iSize pos) fs := by
  obtain ⟨⟨hfd, hfilp⟩, hinode, hdisk, hpos⟩ := h
  have hkind : S_ISDIR m.iMode ∨ S_ISREG m.iMode := hmode.symm
  simp only [sysReadWith, hfd, hcount, and_self, dif_pos, hfilp, hinode, hdisk, hpos, if_pos hkind]
  rfl

theorem sysRead_open (hmode : S_ISREG m.iMode ∨ S_ISDIR m.iMode) (h : OpenAt m pos fd filp i fs)
    (hcount : 0 ≤ count) :
    sysRead fd count fs =
      if readCount m.iSize pos ≤ 0 then .ok (0, [], fs)
        else fileRead i filp (readCount m.iSize pos) fs :=
  sysReadWith_open hmode h hcount

theorem sysReadWith_negative
    {read : InodeIx → Fin NR_FILE → Int → FileSystem → Except Panic (Int × List Byte × FileSystem)}
    (hcount : ¬ 0 ≤ count) : sysReadWith read fd count fs = .ok (-EINVAL, [], fs) := by
  have hno : ¬ (fd < NR_OPEN ∧ 0 ≤ count) := fun h => hcount h.2
  simp only [sysReadWith, dif_neg hno]

theorem fileRead_pos {r : Int} {out : List Byte} (h : fileRead i filp count fs = .ok (r, out, fs'))
    (hpos : (fs.file filp).fPos = pos) : (fs'.file filp).fPos ≤ pos + count.toNat := by
  unfold fileRead at h
  split at h
  · obtain ⟨-, -, rfl⟩ : 0 = r ∧ [] = out ∧ fs = fs' := by simpa using h
    omega
  · obtain ⟨⟨out', pos', fs₁⟩, hloop, h⟩ := bind_eq_ok.mp h
    have hle := (fileReadLoop_pos i count.toNat count.toNat (fs.file filp).fPos [] fs).of_ok hloop
    have hfs : fs₁.setFile filp { fs₁.file filp with fPos := pos' } = fs' := by
      simpa using (Prod.mk.inj (Prod.mk.inj (Except.ok.inj h)).2).2
    rw [← hfs]
    simpa [FileSystem.setFile, hpos] using hle

structure Calm (fs : FileSystem) : Prop where
  readable : ∀ k dev block, fs.readable k dev block = true
  disk : ∀ dev block, fs.disk dev block = fun _ => 0
  buffer : ∀ dev block bh, fs.buffer dev block = some bh → bh.data = (fun _ => 0) ∧ bh.count = 0

theorem Calm.content (h : Calm fs) (dev block : Nat) : content fs dev block = fun _ => 0 := by
  unfold Fs.content
  split
  · exact h.disk dev block
  · rename_i bh hbh
    split
    · exact (h.buffer dev block bh hbh).1
    · exact h.disk dev block

theorem Calm.bread (h : Calm fs) (dev block : Nat) :
    ∃ fs₁ fs₂, bread dev block fs = .ok (some fun _ => 0, fs₁) ∧ brelse dev block fs₁ = .ok fs₂ ∧
    Calm fs₂ ∧
      fs₁.inode = fs.inode ∧ fs₂.inode = fs.inode := by
  have havail : available fs dev 0 block = true := by simp [available, h.readable]
  obtain ⟨bh, hbread, hdata, -, hcount, -⟩ := bread_available havail
  have hzero : bufferCount fs dev block = 0 := by
    cases hb : fs.buffer dev block with
    | none => simp [bufferCount, hb]
    | some old => rw [bufferCount_of_some hb, (h.buffer dev block old hb).2]
  rw [hzero] at hcount
  rw [h.content] at hbread hdata
  refine ⟨_, _, hbread, brelse_eq_ok.mpr ⟨bh, by simp [setBuffer_buffer], by simp [hcount], rfl⟩,
    ?_, rfl, rfl⟩
  refine ⟨h.readable, h.disk, fun d b x hx => ?_⟩
  rw [setBuffer_buffer] at hx
  split at hx
  · obtain rfl := Option.some.inj hx
    simp [hdata, hcount]
  · rename_i hne
    rw [setBuffer_buffer, if_neg hne] at hx
    exact h.buffer d b x hx

theorem Calm.bmap (h : Calm fs) (i : InodeIx) {block : Nat} (hblock : block < MAPPABLE) :
    ∃ nr fs', bmap i block fs = .ok (nr, fs') ∧ Calm fs' ∧ fs'.inode = fs.inode := by
  have hin : ¬ 7 + 512 + 512 * 512 ≤ block := Nat.not_le_of_lt hblock
  unfold Fs.bmap
  dsimp only
  rw [if_neg hin]
  split
  · exact ⟨_, fs, rfl, h, rfl⟩
  split
  · split
    · exact ⟨0, fs, rfl, h, rfl⟩
    obtain ⟨fs₁, fs₂, hread, hrel, hcalm, -, hinode⟩ :=
      h.bread (fs.inode i).iDev ((fs.inode i).d.iZone 7)
    rw [hread]
    refine ⟨0, fs₂, ?_, hcalm, hinode⟩
    change (brelse _ _ fs₁ >>= _) = _
    rw [hrel]
    rfl
  · split
    · exact ⟨0, fs, rfl, h, rfl⟩
    obtain ⟨fs₁, fs₂, hread, hrel, hcalm, -, hinode⟩ :=
      h.bread (fs.inode i).iDev ((fs.inode i).d.iZone 8)
    rw [hread]
    refine ⟨0, fs₂, ?_, hcalm, hinode⟩
    change (brelse _ _ fs₁ >>= _) = _
    rw [hrel]
    rfl

theorem bmap_big (i : InodeIx) {block : Nat} (h : MAPPABLE ≤ block) (fs : FileSystem) :
    bmap i block fs = .error .blockTooBig := if_pos h

def InHand (bh : Option (BufferName × Block)) (i de : Nat) (fs : FileSystem) : Prop :=
  match bh with
  | none => Calm fs ∧ i % 64 = 0
  | some (bh, data) => data = (fun _ => 0) ∧ (∃ fs', brelse bh.1 bh.2 fs = .ok fs' ∧ Calm fs') ∧
      de ≤ 64 ∧ ∃ q < MAPPABLE, i = 64 * q + de

theorem InHand.brelseDir {bh : Option (BufferName × Block)} {k de : Nat} (h : InHand bh k de fs) :
    ∃ fs', brelseDir bh fs = .ok fs' ∧ Calm fs' := by
  cases bh with
  | none => exact ⟨fs, rfl, h.1⟩
  | some bh =>
    obtain ⟨-, ⟨fs', hrel, hcalm⟩, -⟩ := h
    exact ⟨fs', hrel, hcalm⟩

theorem Calm.readDirBlock (h : Calm fs) (dir : InodeIx) {k : Nat} (hk : k < MAPPABLE) :
    ∃ bh fs', readDirBlock dir k fs = .ok (bh, fs') ∧ InHand bh (64 * k) 0 fs' := by
  obtain ⟨nr, fs₁, hmap, hcalm, -⟩ := h.bmap dir hk
  unfold Fs.readDirBlock
  rw [hmap]
  by_cases hnr : nr = 0
  · refine ⟨none, fs₁, ?_, hcalm, by omega⟩
    change (if nr = 0 then _ else _) = _
    rw [if_pos hnr]
    rfl
  · obtain ⟨fs₂, fs₃, hread, hrel, hcalm', -, -⟩ := hcalm.bread (fs₁.inode dir).iDev nr
    refine ⟨some (((fs₁.inode dir).iDev, nr), fun _ => 0), fs₂, ?_, rfl, ⟨fs₃, hrel, hcalm'⟩,
      by omega, k, hk, rfl⟩
    change (if nr = 0 then _ else _) = _
    rw [if_neg hnr, hread]
    rfl

/-- Inode 0 with the fields `m`, open on descriptor 0 and the root of a file system
that is mounted on inode 1. -/
def bigState (m : DInode) : FileSystem where
  disk _ _ _ := 0
  reads := 0
  readable _ _ _ := true
  buffer _ _ := none
  inode i := if i = 0 then ⟨m, 1, 1, 2, false, false, false, false⟩
    else ⟨DInode.zero.setZone 0 1, 1, 2, 1, false, false, false, true⟩
  lastInode := 0
  super _ := ⟨1, 1, 1, 1, 1, fun _ => none, fun _ => none, 1, .entry 1⟩
  file _ := ⟨0, 0, 1, .entry 0, 0⟩
  root := .null
  pwd := .null
  euid := 0
  egid := 0
  umask := 0
  filp _ := some ⟨0, by decide⟩
  closeOnExec := 0
  leader := false
  tty := -1
  pgrp := 0
  ttyPgrp _ := 0

end Hios.Fs
