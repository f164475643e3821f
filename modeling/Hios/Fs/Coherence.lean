import Hios.Fs.References

/-! The inode table against the disk: every inode has one view, its entry's if it
has one, and what the table does with entries leaves the views alone. -/
namespace Hios.Fs
open Hios.Outcome
variable {fs fs' fs'' : FileSystem} {dev nr block : Nat} {i j : InodeIx} {sb : SuperBlock}
  {m : MInode}

def Known (fs : FileSystem) (dev nr : Nat) : Prop :=
  ∃ sb, getSuper dev fs = some sb ∧ 1 ≤ nr ∧ nr ≤ sb.sNinodes ∧ nr < 65536 ∧ dev < 65536 ∧
    Readable fs dev (inodeBlock sb nr)

def InodeBlock (fs : FileSystem) (dev block : Nat) : Prop :=
  ∃ sb nr, getSuper dev fs = some sb ∧ 1 ≤ nr ∧ nr ≤ sb.sNinodes ∧ block = inodeBlock sb nr

def diskInode (fs : FileSystem) (dev nr : Nat) : DInode :=
  match getSuper dev fs with
  | none => .zero
  | some sb => (content fs dev (inodeBlock sb nr)).dInode (inodeIndex nr)

def inodeAt (fs : FileSystem) (dev nr : Nat) : DInode :=
  match findInode fs dev nr with
  | none => diskInode fs dev nr
  | some i => (fs.inode i).d

theorem getSuper_some (h : getSuper dev fs = some sb) : ∃ k, fs.super k = sb ∧ sb.sDev = dev := by
  unfold getSuper at h
  split at h
  · cases h
  · obtain ⟨k, -, hk⟩ := List.mem_map.mp (List.mem_of_find?_eq_some h)
    exact ⟨k, hk, by simpa using List.find?_some h⟩

/-- The entries that are in use name different inodes, and clean ones agree with the disk. -/
structure Coherent (fs : FileSystem) : Prop where
  unlocked : ∀ i, (fs.inode i).iLock = false
  notMount : ∀ i, (fs.inode i).iMount = false
  notPipe : ∀ i, (fs.inode i).iDev ≠ 0 → (fs.inode i).iPipe = false
  unique : ∀ i j, (fs.inode i).iDev ≠ 0 → (fs.inode i).iDev = (fs.inode j).iDev →
    (fs.inode i).iNum = (fs.inode j).iNum →
    i = j
  known : ∀ i, (fs.inode i).iDev ≠ 0 → Known fs (fs.inode i).iDev (fs.inode i).iNum
  clean : ∀ i, (fs.inode i).iDev ≠ 0 → (fs.inode i).iDirt = false →
    (fs.inode i).d = diskInode fs (fs.inode i).iDev (fs.inode i).iNum
  spare : ∀ i, (fs.inode i).iDev = 0 → (fs.inode i).iDirt = false
  counts : ∀ d b, bufferCount fs d b < 255
  dirty : DirtyHolds fs

structure Kept (fs fs' : FileSystem) : Prop where
  rest : fs' = { fs with
    disk := fs'.disk, reads := fs'.reads, buffer := fs'.buffer, inode := fs'.inode,
                         lastInode := fs'.lastInode }
  counts : SameCounts fs fs'
  view : ∀ dev nr, Known fs dev nr → inodeAt fs' dev nr = inodeAt fs dev nr
  content : ∀ dev block, ¬ InodeBlock fs dev block → content fs' dev block = content fs dev block
  cached : ∀ dev block, cached fs dev block = true → cached fs' dev block = true

theorem Kept.refl (fs : FileSystem) : Kept fs fs :=
  ⟨rfl, .refl fs, fun _ _ _ => rfl, fun _ _ _ => rfl, fun _ _ => id⟩

theorem Kept.super (h : Kept fs fs') (dev : Nat) : getSuper dev fs' = getSuper dev fs := by
  rw [h.rest]
  rfl

theorem Kept.readable (h : Kept fs fs') (hr : Readable fs dev block) : Readable fs' dev block := by
  cases hr with
  | inl hc => exact .inl (h.cached _ _ hc)
  | inr hr => exact .inr fun n => by rw [h.rest]; exact hr n

theorem Kept.known (h : Kept fs fs') (hk : Known fs dev nr) : Known fs' dev nr := by
  obtain ⟨sb, hsb, hone, hlast, hnr, hdev, hr⟩ := hk
  exact ⟨sb, (h.super dev).trans hsb, hone, hlast, hnr, hdev, h.readable hr⟩

theorem Kept.inodeBlock (h : Kept fs fs') : InodeBlock fs' dev block ↔ InodeBlock fs dev block := by
  simp only [InodeBlock, h.super]

theorem Kept.trans (h : Kept fs fs') (h' : Kept fs' fs'') : Kept fs fs'' :=
  ⟨by rw [h'.rest, h.rest], h.counts.trans h'.counts,
    fun dev nr hk => (h'.view dev nr (h.known hk)).trans (h.view dev nr hk),
    fun dev block hb => (h'.content dev block (fun hb' => hb (h.inodeBlock.mp hb'))).trans
      (h.content dev block hb),
    fun dev block hc => h'.cached dev block (h.cached dev block hc)⟩

theorem Block.dInode_setDInode (b : Block) (k k' : Fin 32) (d : DInode) :
    (b.setDInode k d).dInode k' = if k' = k then d else b.dInode k' := by
  funext j
  have hdiv : (32 * k'.val + j.val) / 32 = k'.val := by omega
  have hmod : (32 * k'.val + j.val) % 32 = j.val := by omega
  by_cases hk : k' = k
  · subst hk
    simp [Block.dInode, Block.setDInode, hdiv, hmod]
  · have hne : k'.val ≠ k.val := fun e => hk (Fin.ext e)
    simp [Block.dInode, Block.setDInode, hk, hdiv, hne]

theorem slot_inj {nr' : Nat} (h : 1 ≤ nr) (h' : 1 ≤ nr')
    (hblock : inodeBlock sb nr = inodeBlock sb nr') (hindex : inodeIndex nr = inodeIndex nr') :
    nr = nr' := by
  have hmod := congrArg Fin.val hindex
  simp only [inodeIndex, inodeBlock, INODES_PER_BLOCK] at hmod hblock
  omega

/-- A block has been read, its bytes are now `data`, and it is released again. -/
structure Refilled (dev block : Nat) (data : Block) (fs fs' : FileSystem) : Prop where
  only : OnlyBuffers fs fs'
  counts : SameCounts fs fs'
  content : ∀ d b, content fs' d b = if d = dev ∧ b = block then data else Fs.content fs d b
  cached : ∀ d b, cached fs d b = true → cached fs' d b = true
  dirty : DirtyHolds fs → DirtyHolds fs'

/-- The state in which an up-to-date buffer with as many references as before is put in. -/
theorem refilled_setBuffer {bh : Buffer} {n : Nat} (hup : bh.uptodate = true)
    (hcount : bh.count = bufferCount fs dev block) :
    Refilled dev block bh.data fs ({ fs with reads := n }.setBuffer dev block (some bh)) := by
  refine ⟨rfl, fun d b => ?_, fun d b => ?_, fun d b hc => ?_,
    fun hdirty => dirtyHolds_setBuffer (show DirtyHolds { fs with reads := n } from hdirty) fun _ =>
      hup⟩
  · rw [bufferCount_setBuffer]
    split
    · rename_i e
      rw [hcount, e.1, e.2]
    · rfl
  · rw [content_setBuffer, if_pos hup]
    rfl
  · rw [cached_setBuffer]
    split
    · exact hup
    · exact hc

theorem bread_modify_brelse (f : Block → Block) (hr : Readable fs dev block)
    (hcount : bufferCount fs dev block < 255) :
    ∃ fs₁ fs₂ fs₃, bread dev block fs = .ok (some (content fs dev block), fs₁) ∧
    modify dev block f fs₁ = .ok fs₂ ∧
      brelse dev block fs₂ = .ok fs₃ ∧ Refilled dev block (f (content fs dev block)) fs fs₃ := by
  obtain ⟨bh, hbread, hdata, hup, hbc, -⟩ := bread_available (available_of_readable hr)
  let bh' : Buffer := { bh with data := f bh.data, dirt := true, count := bh.count - 1 }
  refine ⟨_, ({ fs with reads := fs.reads + 1 }.setBuffer dev block
    (some { bh with data := f bh.data, dirt := true })),
    { fs with reads := fs.reads + 1 }.setBuffer dev block (some bh'), hbread, ?_,
    brelse_eq_ok.mpr ⟨{ bh with data := f bh.data, dirt := true }, ?_, ?_, ?_⟩, ?_⟩
  · simp only [modify, setBuffer_buffer, and_self, if_true, setBuffer_setBuffer]
  · rw [setBuffer_buffer, if_pos ⟨rfl, rfl⟩]
  · change bh.count ≠ 0
    omega
  · rw [setBuffer_setBuffer]
  · rw [← hdata]
    exact refilled_setBuffer (n := fs.reads + 1) (show bh'.uptodate = true from hup)
      (show bh.count - 1 = _ by omega)

theorem bread_setInode {data : Block} (h : bread dev block fs = .ok (some data, fs')) (m : MInode) :
    bread dev block (fs.setInode i m) = .ok (some data, fs'.setInode i m) := by
  have hg : getblk dev block (fs.setInode i m) = getblk dev block fs := rfl
  have hrd : (fs.setInode i m).readable (fs.setInode i m).reads = fs.readable fs.reads := rfl
  simp only [bread] at h
  simp only [bread, hg, hrd]
  split at h
  · rename_i hup
    obtain ⟨hd, rfl⟩ := Prod.mk.inj (Except.ok.inj h)
    rw [if_pos hup, ← hd]
    rfl
  · rename_i hup
    rw [if_neg hup]
    split at h
    · rename_i hr
      obtain ⟨hd, rfl⟩ := Prod.mk.inj (Except.ok.inj h)
      rw [if_pos hr, ← hd]
      rfl
    · obtain ⟨fs₁, -, h⟩ := bind_eq_ok.mp h
      cases h

theorem brelse_setInode (h : brelse dev block fs = .ok fs') (m : MInode) :
    brelse dev block (fs.setInode i m) = .ok (fs'.setInode i m) := by
  obtain ⟨bh, hb, hne, rfl⟩ := brelse_eq_ok.mp h
  exact brelse_eq_ok.mpr ⟨bh, hb, hne, rfl⟩

theorem modify_setInode {f : Block → Block} (h : modify dev block f fs = .ok fs') (m : MInode) :
    modify dev block f (fs.setInode i m) = .ok (fs'.setInode i m) := by
  cases hb : fs.buffer dev block with
  | none => simp [modify, hb] at h
  | some bh =>
    have hb' : (fs.setInode i m).buffer dev block = some bh := hb
    simp only [modify, hb, Except.ok.injEq] at h
    simp only [modify, hb', ← h]
    rfl

theorem lockInode_eq (hlock : (fs.inode i).iLock = false) :
    lockInode i fs = .ok (fs.setInode i { fs.inode i with iLock := true }) := by
  simp [lockInode, waitOnInode, hlock, bind, Except.bind, pure, Except.pure]

theorem readInode_eq (hsb : getSuper (fs.inode i).iDev fs = some sb)
    (hone : 1 ≤ (fs.inode i).iNum)
    (hr : Readable fs (fs.inode i).iDev (inodeBlock sb (fs.inode i).iNum))
    (hlock : (fs.inode i).iLock = false) (hcount : ∀ d b, bufferCount fs d b < 255) :
    ∃ fs₁, Still fs fs₁ ∧ readInode i fs = .ok (fs₁.setInode i { fs.inode i with
        d := diskInode fs (fs.inode i).iDev (fs.inode i).iNum, iLock := false }) := by
  obtain ⟨fs₁, hbread, htaken⟩ := bread_taken (available_of_readable hr)
  obtain ⟨fs₂, hrel, hstill⟩ := htaken.brelse (hcount _ _)
  refine ⟨fs₂, hstill, ?_⟩
  have hsb' : getSuper (fs.inode i).iDev (fs.setInode i { fs.inode i with iLock := true }) =
    some sb := hsb
  have hnum : (fs.inode i).iNum ≠ 0 := by omega
  simp only [readInode, lockInode_eq hlock, bind_eq_ok]
  refine ⟨_, rfl, ?_⟩
  simp only [setInode_inode, hsb', if_neg hnum, bind_eq_ok]
  refine ⟨_, bread_setInode hbread _, ?_⟩
  simp only [setInode_setInode, setInode_inode, bind_eq_ok]
  refine ⟨_, brelse_setInode hrel _, ?_⟩
  simp only [unlockInode, setInode_setInode, setInode_inode, diskInode, hsb]
  rfl

theorem writeInode_eq (hsb : getSuper (fs.inode i).iDev fs = some sb)
    (hone : 1 ≤ (fs.inode i).iNum) (hdev : (fs.inode i).iDev ≠ 0)
    (hdirt : (fs.inode i).iDirt = true)
    (hr : Readable fs (fs.inode i).iDev (inodeBlock sb (fs.inode i).iNum))
    (hlock : (fs.inode i).iLock = false) (hcount : ∀ d b, bufferCount fs d b < 255) :
    ∃ fs₁, Refilled (fs.inode i).iDev (inodeBlock sb (fs.inode i).iNum)
        ((content fs (fs.inode i).iDev (inodeBlock sb (fs.inode i).iNum)).setDInode
          (inodeIndex (fs.inode i).iNum)
          (fs.inode i).d) fs fs₁ ∧
      writeInode i fs = .ok
        (fs₁.setInode i { fs.inode i with iDirt := false, iLock := false }) := by
  obtain ⟨fs₁, fs₂, fs₃, hbread, hmod, hrel, hfill⟩ :=
    bread_modify_brelse (Block.setDInode · (inodeIndex (fs.inode i).iNum) (fs.inode i).d) hr
      (hcount _ _)
  refine ⟨fs₃, hfill, ?_⟩
  have hsb' : getSuper (fs.inode i).iDev (fs.setInode i { fs.inode i with iLock := true }) =
    some sb := hsb
  have hnum : (fs.inode i).iNum ≠ 0 := by omega
  simp only [writeInode, lockInode_eq hlock, bind_eq_ok]
  refine ⟨_, rfl, ?_⟩
  have hgo : ¬ ((fs.inode i).iDirt = false ∨ (fs.inode i).iDev = 0) := by simp [hdirt, hdev]
  simp only [setInode_inode, if_neg hgo, hsb', if_neg hnum, bind_eq_ok]
  refine ⟨_, bread_setInode hbread _, ?_⟩
  simp only [setInode_inode, bind_eq_ok]
  refine ⟨_, modify_setInode hmod _, ?_⟩
  simp only [setInode_setInode, setInode_inode]
  refine ⟨_, brelse_setInode hrel _, ?_⟩
  simp only [unlockInode, setInode_setInode, setInode_inode]
  rfl

theorem findInode_some (h : findInode fs dev nr = some i) :
    (fs.inode i).iDev = dev ∧ (fs.inode i).iNum = nr := by
  simpa [findInode] using List.find?_some h

theorem findInode_none :
    findInode fs dev nr = none ↔ ∀ i, ¬ ((fs.inode i).iDev = dev ∧ (fs.inode i).iNum = nr) := by
  simp [findInode, List.find?_eq_none]

theorem findInode_congr
    (h : ∀ j, (fs'.inode j).iDev = (fs.inode j).iDev ∧ (fs'.inode j).iNum = (fs.inode j).iNum) :
    findInode fs' dev nr = findInode fs dev nr := by
  unfold findInode
  congr 1
  funext j
  rw [(h j).1, (h j).2]

theorem Coherent.find (hc : Coherent fs) (hdev : (fs.inode i).iDev ≠ 0) :
    findInode fs (fs.inode i).iDev (fs.inode i).iNum = some i := by
  cases h : findInode fs (fs.inode i).iDev (fs.inode i).iNum with
  | none => exact absurd ⟨rfl, rfl⟩ (findInode_none.mp h i)
  | some j =>
    obtain ⟨hd, hn⟩ := findInode_some h
    exact congrArg some (hc.unique i j hdev hd.symm hn.symm).symm

theorem Coherent.inodeAt_entry (hc : Coherent fs) (hdev : (fs.inode i).iDev ≠ 0) :
    inodeAt fs (fs.inode i).iDev (fs.inode i).iNum = (fs.inode i).d := by
  simp only [inodeAt, hc.find hdev]

def SameInodes (fs fs' : FileSystem) : Prop :=
  ∀ j, ∃ count dirt pipe,
    fs'.inode j = { fs.inode j with iCount := count, iDirt := dirt, iPipe := pipe } ∧
    (pipe = true → (fs.inode j).iPipe = true)

def CountsTo (f : Nat → Nat) (i : InodeIx) (fs fs' : FileSystem) : Prop :=
  ∀ j, (fs'.inode j).iCount = if j = i then f (fs.inode j).iCount else (fs.inode j).iCount

def SameRefs (fs fs' : FileSystem) : Prop := ∀ j, (fs'.inode j).iCount = (fs.inode j).iCount

theorem SameInodes.refl (fs : FileSystem) : SameInodes fs fs :=
  fun j => ⟨(fs.inode j).iCount, (fs.inode j).iDirt, (fs.inode j).iPipe, rfl, id⟩

theorem SameInodes.trans (h : SameInodes fs fs') (h' : SameInodes fs' fs'') :
    SameInodes fs fs'' := by
  intro j
  obtain ⟨count, dirt, pipe, hj, hp⟩ := h j
  obtain ⟨count', dirt', pipe', hj', hp'⟩ := h' j
  rw [hj] at hj' hp'
  exact ⟨count', dirt', pipe', hj', fun e => hp (hp' e)⟩

theorem SameInodes.find (h : SameInodes fs fs') (dev nr : Nat) :
    findInode fs' dev nr = findInode fs dev nr := by
  refine findInode_congr fun j => ?_
  obtain ⟨_, _, _, hj, -⟩ := h j
  rw [hj]
  exact ⟨rfl, rfl⟩

theorem sameInodes_setInode (h : fs'.inode = Function.update fs.inode i m) {count : Nat}
    {dirt pipe : Bool}
    (hm : m = { fs.inode i with iCount := count, iDirt := dirt, iPipe := pipe })
    (hp : pipe = true → (fs.inode i).iPipe = true) : SameInodes fs fs' := by
  intro j
  rw [h]
  by_cases hj : j = i
  · rw [hj, Function.update_self]
    exact ⟨count, dirt, pipe, hm, hp⟩
  · rw [Function.update_of_ne hj]
    exact SameInodes.refl fs j

theorem countsTo_setInode {f : Nat → Nat} (h : fs'.inode = Function.update fs.inode i m)
    (hm : m.iCount = f (fs.inode i).iCount) : CountsTo f i fs fs' := by
  intro j
  rw [h]
  by_cases hj : j = i
  · rw [hj, Function.update_self, if_pos rfl, hm]
  · rw [Function.update_of_ne hj, if_neg hj]

theorem sameRefs_setInode (h : fs'.inode = Function.update fs.inode i m)
    (hm : m.iCount = (fs.inode i).iCount) :
    SameRefs fs fs' := by
  intro j
  rw [countsTo_setInode (f := id) h hm j]
  exact ite_self _

theorem diskInode_of_super (hsb : getSuper dev fs = some sb) (nr : Nat) :
    diskInode fs dev nr = (content fs dev (inodeBlock sb nr)).dInode (inodeIndex nr) := by
  simp only [diskInode, hsb]

theorem Refilled.super {data : Block} {d : Nat} (h : Refilled d block data fs fs') (dev : Nat) :
    getSuper dev fs' = getSuper dev fs := by
  rw [h.only]
  rfl

theorem diskInode_setInode (fs : FileSystem) (i : InodeIx) (m : MInode) (dev nr : Nat) :
    diskInode (fs.setInode i m) dev nr = diskInode fs dev nr := rfl

/-- Writing an inode's bytes into its block leaves the other inodes of the disk. -/
theorem Refilled.diskInode_other {d : DInode} {dev' nr' : Nat} (hsb : getSuper dev fs = some sb)
    (h : Refilled dev (inodeBlock sb nr)
      ((Fs.content fs dev (inodeBlock sb nr)).setDInode (inodeIndex nr) d) fs fs')
    (hone : 1 ≤ nr) (hone' : 1 ≤ nr') (hne : ¬ (dev' = dev ∧ nr' = nr)) :
    diskInode fs' dev' nr' = diskInode fs dev' nr' := by
  cases hsb' : getSuper dev' fs with
  | none => simp only [diskInode, h.super, hsb']
  | some sb' =>
    rw [diskInode_of_super hsb', diskInode_of_super ((h.super dev').trans hsb'), h.content]
    split
    · rename_i e
      obtain ⟨rfl, hb⟩ := e
      obtain rfl : sb = sb' := Option.some.inj (hsb.symm.trans hsb')
      have hidx : inodeIndex nr' ≠ inodeIndex nr := fun hi => hne ⟨rfl, slot_inj hone' hone hb hi⟩
      rw [Block.dInode_setDInode, if_neg hidx, hb]
    · rfl

theorem Refilled.diskInode_self {d : DInode} (hsb : getSuper dev fs = some sb)
    (h : Refilled dev (inodeBlock sb nr)
      ((Fs.content fs dev (inodeBlock sb nr)).setDInode (inodeIndex nr) d) fs fs') :
    diskInode fs' dev nr = d := by
  rw [diskInode_of_super ((h.super dev).trans hsb), h.content, if_pos ⟨rfl, rfl⟩,
    Block.dInode_setDInode, if_pos rfl]

theorem Coherent.of_sameInodes (hc : Coherent fs) (hk : Kept fs fs') (hs : SameInodes fs fs')
    (hclean : ∀ j, (fs.inode j).iDev ≠ 0 → (fs'.inode j).iDirt = false →
      (fs.inode j).d = diskInode fs' (fs.inode j).iDev (fs.inode j).iNum)
    (hspare : ∀ j, (fs.inode j).iDev = 0 → (fs'.inode j).iDirt = true → (fs.inode j).iDirt = true)
    (hdirty : DirtyHolds fs') : Coherent fs' := by
  refine ⟨fun j => ?_, fun j => ?_, fun j => ?_, fun j k => ?_, fun j => ?_, fun j => ?_,
    fun j => ?_, fun d b => hk.counts d b ▸ hc.counts d b, hdirty⟩
  · obtain ⟨_, _, _, hj, -⟩ := hs j
    rw [hj]
    exact hc.unlocked j
  · obtain ⟨_, _, _, hj, -⟩ := hs j
    rw [hj]
    exact hc.notMount j
  · obtain ⟨_, _, pipe, hj, hp⟩ := hs j
    rw [hj]
    intro hdev
    by_cases hpipe : pipe = true
    · exact absurd (hp hpipe) (by simp [hc.notPipe j hdev])
    · simpa using hpipe
  · obtain ⟨_, _, _, hj, -⟩ := hs j
    obtain ⟨_, _, _, hk, -⟩ := hs k
    rw [hj, hk]
    exact hc.unique j k
  · obtain ⟨_, _, _, hj, -⟩ := hs j
    rw [hj]
    exact fun hdev => hk.known (hc.known j hdev)
  · obtain ⟨_, _, _, hj, -⟩ := hs j
    have h := hclean j
    rw [hj] at h ⊢
    exact h
  · obtain ⟨_, dirt, _, hj, -⟩ := hs j
    have h := hspare j
    rw [hj] at h ⊢
    intro hdev
    by_cases hd : dirt = true
    · exact absurd (h hdev hd) (by simp [hc.spare j hdev])
    · simpa using hd

theorem Coherent.still (hc : Coherent fs) (h : Still fs fs') : Coherent fs' ∧ Kept fs fs' := by
  have hs : SameInodes fs fs' := by
    intro j
    rw [h.only.inode]
    exact SameInodes.refl fs j
  have hsuper : ∀ dev, getSuper dev fs' = getSuper dev fs := fun dev => by
    rw [h.only]
    rfl
  have hdisk : ∀ dev nr, diskInode fs' dev nr = diskInode fs dev nr := fun dev nr => by
    simp only [diskInode, hsuper, h.content]
  have hk : Kept fs fs' := by
    refine ⟨?_, h.counts, fun dev nr _ => ?_, fun dev block _ => h.content dev block, h.cached⟩
    · rw [h.only]
    · simp only [inodeAt, hs.find, hdisk, h.only.inode]
  refine ⟨hc.of_sameInodes hk hs (fun j hj hd => ?_) (fun j _ hd => ?_) (h.dirty hc.dirty), hk⟩
  · rw [hdisk]
    exact hc.clean j hj (h.only.inode ▸ hd)
  · rwa [h.only.inode] at hd

theorem Coherent.writeInode (hc : Coherent fs) (hdev : (fs.inode i).iDev ≠ 0)
    (hdirt : (fs.inode i).iDirt = true) :
    ∃ fs', writeInode i fs = .ok fs' ∧ Coherent fs' ∧ Kept fs fs' ∧
      fs'.inode = Function.update fs.inode i { fs.inode i with iDirt := false } ∧
      fs'.lastInode = fs.lastInode ∧
      ∀ dev nr, 1 ≤ nr → ¬ (dev = (fs.inode i).iDev ∧ nr = (fs.inode i).iNum) →
        diskInode fs' dev nr = diskInode fs dev nr := by
  obtain ⟨sb, hsb, hone, hlast, hnr, hdv, hr⟩ := hc.known i hdev
  obtain ⟨fs₁, hfill, heq⟩ := writeInode_eq hsb hone hdev hdirt hr (hc.unlocked i) hc.counts
  have hm : ({ fs.inode i with iDirt := false, iLock := false } : MInode) =
      { fs.inode i with iDirt := false } := by
    rw [← hc.unlocked i]
  rw [hm] at heq
  have hinode : (fs₁.setInode i { fs.inode i with iDirt := false }).inode =
      Function.update fs.inode i { fs.inode i with iDirt := false } := by
    rw [← hfill.only.inode]
    rfl
  have hs : SameInodes fs (fs₁.setInode i { fs.inode i with iDirt := false }) :=
    sameInodes_setInode hinode rfl id
  have hself : diskInode (fs₁.setInode i { fs.inode i with iDirt := false }) (fs.inode i).iDev
    (fs.inode i).iNum =
      (fs.inode i).d := (diskInode_setInode ..).trans (hfill.diskInode_self hsb)
  have hother : ∀ dev nr, 1 ≤ nr → ¬ (dev = (fs.inode i).iDev ∧ nr = (fs.inode i).iNum) →
      diskInode (fs₁.setInode i { fs.inode i with iDirt := false }) dev nr = diskInode fs dev nr :=
    fun dev nr hnr hne => (diskInode_setInode ..).trans (hfill.diskInode_other hsb hone hnr hne)
  have hk : Kept fs (fs₁.setInode i { fs.inode i with iDirt := false }) := by
    refine ⟨?_, hfill.counts, fun dev nr hkn => ?_, fun dev block hb => ?_, hfill.cached⟩
    · rw [hfill.only]
      rfl
    · simp only [inodeAt, hs.find]
      cases hf : findInode fs dev nr with
      | none =>
        obtain ⟨_, _, hone', _⟩ := hkn
        exact hother dev nr hone' fun e => findInode_none.mp hf i ⟨e.1.symm, e.2.symm⟩
      | some j =>
        obtain ⟨_, _, _, hj, -⟩ := hs j
        simp only [hj]
    · refine (hfill.content dev block).trans (if_neg fun e => hb ?_)
      exact ⟨sb, (fs.inode i).iNum, e.1 ▸ hsb, hone, hlast, e.2⟩
  refine ⟨_, heq, hc.of_sameInodes hk hs (fun j hdj hd => ?_) (fun j hdj hd => ?_)
    (hfill.dirty hc.dirty), hk, hinode, ?_, hother⟩
  · by_cases hj : j = i
    · rw [hj, hself]
    · rw [hinode, Function.update_of_ne hj] at hd
      obtain ⟨_, _, hone', _⟩ := hc.known j hdj
      rw [hother _ _ hone' fun e => hj (hc.unique j i hdj e.1 e.2)]
      exact hc.clean j hdj hd
  · have hj : j ≠ i := fun e => hdev (e ▸ hdj)
    rwa [hinode, Function.update_of_ne hj] at hd
  · change fs₁.lastInode = _
    rw [hfill.only]

/-- `write_inode` of a clean entry does nothing, nor that of one without a device. -/
theorem writeInode_idle (hlock : (fs.inode i).iLock = false)
    (hidle : (fs.inode i).iDirt = false ∨ (fs.inode i).iDev = 0) :
    writeInode i fs = .ok fs := by
  have hback : (fs.setInode i { fs.inode i with iLock := true }).setInode i
      { (fs.setInode i { fs.inode i with iLock := true }).inode i with iLock := false } = fs := by
    rw [setInode_setInode, setInode_inode]
    have hm : ({ fs.inode i with iLock := false } : MInode) = fs.inode i := by rw [← hlock]
    simp only [hm]
    exact congrArg (fun f => { fs with inode := f }) (Function.update_eq_self i fs.inode)
  simp only [writeInode, lockInode_eq hlock, bind_eq_ok]
  refine ⟨_, rfl, ?_⟩
  rw [setInode_inode, if_pos hidle]
  exact congrArg Except.ok hback

structure WrittenBack (fs fs' : FileSystem) : Prop where
  coherent : Coherent fs'
  kept : Kept fs fs'
  same : SameInodes fs fs'
  refs : SameRefs fs fs'

theorem WrittenBack.trans (h : WrittenBack fs fs') (h' : WrittenBack fs' fs'') :
    WrittenBack fs fs'' :=
  ⟨h'.coherent, h.kept.trans h'.kept, h.same.trans h'.same, fun j => (h'.refs j).trans (h.refs j)⟩

theorem Coherent.syncInodes (hc : Coherent fs) : Returns (WrittenBack fs) (syncInodes fs) := by
  refine Ends.foldlM (I := WrittenBack fs) ⟨hc, .refl fs, .refl fs, fun _ => rfl⟩ fun fs₁ i _ h =>
    ?_
  have hlock := h.coherent.unlocked i
  simp only [waitOnInode, hlock, Bool.false_eq_true, if_false]
  change Returns (WrittenBack fs) (if _ then _ else _)
  split
  · rename_i hd
    by_cases hdev : (fs₁.inode i).iDev = 0
    · rw [writeInode_idle hlock (.inr hdev)]
      exact h
    · obtain ⟨fs₂, heq, hc₂, hk₂, hinode, -⟩ := h.coherent.writeInode hdev hd.1
      rw [heq]
      exact h.trans ⟨hc₂, hk₂, sameInodes_setInode hinode rfl id, sameRefs_setInode hinode rfl⟩
  · exact h

theorem content_flush (hdirty : DirtyHolds fs) (dev d b : Nat) :
    content (flush dev fs) d b = content fs d b := by
  cases hb : fs.buffer d b with
  | none => simp [content, flush, hb]
  | some bh =>
    by_cases hd : d = dev
    · subst hd
      by_cases hdirt : bh.dirt = true
      · have hup := hdirty d b bh hb hdirt
        simp [content, flush, hb, hup]
      · simp [content, flush, hb, hdirt]
    · simp [content, flush, hb, hd]

theorem Coherent.flush (hc : Coherent fs) (dev : Nat) : WrittenBack fs (flush dev fs) := by
  have hs : SameInodes fs (Fs.flush dev fs) := .refl fs
  have hcontent := content_flush hc.dirty dev
  have hdisk : ∀ d nr, diskInode (Fs.flush dev fs) d nr = diskInode fs d nr := fun d nr => by
    unfold diskInode
    simp only [hcontent]
    rfl
  have hk : Kept fs (Fs.flush dev fs) := by
    refine ⟨rfl, flush_counts dev fs, fun d nr _ => ?_, fun d b _ => hcontent d b, fun d b hb => ?_⟩
    · simp only [inodeAt, hs.find, hdisk]
      rfl
    · simp only [cached, Fs.flush] at hb ⊢
      cases hbh : fs.buffer d b with
      | none => simp [hbh] at hb
      | some bh =>
        by_cases hd : d = dev
        · subst hd
          simpa [hbh] using hb
        · simpa [hbh, hd] using hb
  refine ⟨hc.of_sameInodes hk hs (fun j hdj hd => (hc.clean j hdj hd).trans (hdisk _ _).symm)
    (fun j _ hd => hd) ?_, hk, hs, fun _ => rfl⟩
  intro d b bh' hb hd
  obtain ⟨bh, hbh, rfl⟩ := Option.map_eq_some_iff.mp hb
  by_cases hdev : d = dev
  · simp [hdev] at hd
  · rw [if_neg hdev] at hd ⊢
    exact hc.dirty d b bh hbh hd

theorem Coherent.syncDev (hc : Coherent fs) (dev : Nat) :
    Returns (WrittenBack fs) (syncDev dev fs) := by
  have h := hc.flush dev
  refine h.coherent.syncInodes.bind fun fs₁ h₁ => ?_
  exact (h.trans h₁).trans (h₁.coherent.flush dev)

end Hios.Fs
