import Hios.Fs.OpenRefs
import Hios.Fs.Balance
import Hios.Fs.Mounts

/-! What the calls of `open_namei` do to the references of inodes, in one process: an entry
that someone else refers to as well keeps its inode. -/
namespace Hios.Fs
open Hios.Outcome
variable {fs fs₀ fs' fs'' : FileSystem} {i j e : InodeIx} {m : MInode} {dev block nr : Nat}
  {l l₀ : List InodeIx}

def OnlyInodes (fs fs' : FileSystem) : Prop :=
  fs' = { fs with disk := fs'.disk, reads := fs'.reads, buffer := fs'.buffer, inode := fs'.inode,
                  lastInode := fs'.lastInode }

theorem OnlyInodes.refl (fs : FileSystem) : OnlyInodes fs fs := rfl

theorem OnlyInodes.trans (h : OnlyInodes fs fs') (h' : OnlyInodes fs' fs'') :
    OnlyInodes fs fs'' := by
  rw [OnlyInodes, h', h]

structure Unmoved (fs fs' : FileSystem) : Prop where
  only : OnlyInodes fs fs'
  dev : ∀ j, (fs'.inode j).iDev = (fs.inode j).iDev
  num : ∀ j, (fs'.inode j).iNum = (fs.inode j).iNum
  count : ∀ j, (fs'.inode j).iCount = (fs.inode j).iCount
  mount : ∀ j, (fs'.inode j).iMount = (fs.inode j).iMount

theorem Unmoved.refl (fs : FileSystem) : Unmoved fs fs :=
  ⟨.refl fs, fun _ => rfl, fun _ => rfl, fun _ => rfl, fun _ => rfl⟩

theorem Unmoved.trans (h : Unmoved fs fs') (h' : Unmoved fs' fs'') : Unmoved fs fs'' :=
  ⟨h.only.trans h'.only, fun j => (h'.dev j).trans (h.dev j), fun j => (h'.num j).trans (h.num j),
    fun j => (h'.count j).trans (h.count j), fun j => (h'.mount j).trans (h.mount j)⟩

theorem OnlyBuffers.unmoved (h : OnlyBuffers fs fs') : Unmoved fs fs' := by
  have hinode := h.inode
  refine ⟨?_, fun j =>
    by rw [hinode], fun j => by rw [hinode], fun j => by rw [hinode], fun j => by rw [hinode]⟩
  rw [OnlyInodes, h]

theorem inode_setInode (fs : FileSystem) (i : InodeIx) (m : MInode) (j : InodeIx) :
    (fs.setInode i m).inode j = if j = i then m else fs.inode j := Function.update_apply ..

theorem unmoved_setInode (hdev : m.iDev = (fs.inode i).iDev) (hnum : m.iNum = (fs.inode i).iNum)
    (hcount : m.iCount = (fs.inode i).iCount) (hmount : m.iMount = (fs.inode i).iMount) :
    Unmoved fs (fs.setInode i m) := by
  have hat : ∀ {α : Type} (f : MInode → α), f m = f (fs.inode i) →
      ∀ j, f ((fs.setInode i m).inode j) = f (fs.inode j) := by
    intro α f hf j
    rw [inode_setInode]
    split
    · rename_i hj
      rw [hj, hf]
    · rfl
  exact ⟨rfl, hat _ hdev, hat _ hnum, hat _ hcount, hat _ hmount⟩

section WrittenBack

theorem modify_only (dev block : Nat) (f : Block → Block) (fs : FileSystem) :
    IfReturns (OnlyBuffers fs) (modify dev block f fs) := by
  unfold modify
  split
  · trivial
  · rfl

theorem flush_unmoved (dev : Nat) (fs : FileSystem) : Unmoved fs (flush dev fs) :=
  ⟨rfl, fun _ => rfl, fun _ => rfl, fun _ => rfl, fun _ => rfl⟩

theorem lockInode_unmoved (i : InodeIx) (fs : FileSystem) :
    IfReturns (Unmoved fs) (lockInode i fs) := by
  simp only [lockInode, waitOnInode]
  split
  · trivial
  · exact unmoved_setInode rfl rfl rfl rfl

theorem unlockInode_unmoved (i : InodeIx) (fs : FileSystem) : Unmoved fs (unlockInode i fs) :=
  unmoved_setInode rfl rfl rfl rfl

theorem readInode_unmoved (i : InodeIx) (fs : FileSystem) :
    IfReturns (Unmoved fs) (readInode i fs) := by
  refine (lockInode_unmoved i fs).bind fun fs₁ h₁ => ?_
  dsimp only
  split
  · trivial
  · split
    · trivial
    · refine (bread_only _ _ fs₁).bind fun r hr => ?_
      obtain ⟨data, fs₂⟩ := r
      have h₂ : Unmoved fs fs₂ := h₁.trans (OnlyBuffers.unmoved hr)
      cases data with
      | none => trivial
      | some data =>
        refine (brelse_only _ _ _).bind fun fs₃ h₃ => ?_
        refine Unmoved.trans ?_ (h₃.unmoved.trans (unlockInode_unmoved i fs₃))
        exact h₂.trans (unmoved_setInode rfl rfl rfl rfl)

theorem writeInode_unmoved (i : InodeIx) (fs : FileSystem) :
    IfReturns (Unmoved fs) (writeInode i fs) := by
  refine (lockInode_unmoved i fs).bind fun fs₁ h₁ => ?_
  dsimp only
  split
  · exact h₁.trans (unlockInode_unmoved i fs₁)
  · split
    · trivial
    · split
      · trivial
      · refine (bread_only _ _ fs₁).bind fun r hr => ?_
        obtain ⟨data, fs₂⟩ := r
        have h₂ : Unmoved fs fs₂ := h₁.trans (OnlyBuffers.unmoved hr)
        cases data with
        | none => trivial
        | some data =>
          refine (modify_only _ _ _ fs₂).bind fun fs₃ h₃ => ?_
          refine (brelse_only _ _ _).bind fun fs₄ h₄ => ?_
          refine Unmoved.trans ?_ (h₄.unmoved.trans (unlockInode_unmoved i fs₄))
          exact (h₂.trans h₃.unmoved).trans (unmoved_setInode rfl rfl rfl rfl)

theorem syncInodes_unmoved (fs : FileSystem) : IfReturns (Unmoved fs) (syncInodes fs) := by
  refine Ends.foldlM (I := Unmoved fs) (.refl fs) fun fs₁ i _ h₁ => ?_
  simp only [waitOnInode]
  split
  · trivial
  · change IfReturns (Unmoved fs) (if _ then _ else _)
    split
    · exact (writeInode_unmoved i fs₁).mono fun _ h₂ => h₁.trans h₂
    · exact h₁

theorem syncDev_unmoved (dev : Nat) (fs : FileSystem) :
    IfReturns (Unmoved fs) (syncDev dev fs) := by
  refine (syncInodes_unmoved (flush dev fs)).bind fun fs₁ h₁ => ?_
  exact ((flush_unmoved dev fs).trans h₁).trans (flush_unmoved dev fs₁)

end WrittenBack

section Freed

theorem freeBlock_unmoved (dev block : Nat) (fs : FileSystem) :
    IfReturns (Unmoved fs) (freeBlock dev block fs) := by
  unfold freeBlock
  split
  · trivial
  · split
    · trivial
    · dsimp only
      split
      · exact (onlyBuffers_setBuffer ..).unmoved
      · split
        · trivial
        · split
          · trivial
          · split
            · trivial
            · refine (modify_only _ _ _ _).mono fun _ h => (OnlyBuffers.trans ?_ h).unmoved
              exact (onlyBuffers_setBuffer ..).trans (onlyBuffers_setBuffer ..)

variable {free : Nat → FileSystem → Except Panic FileSystem}

theorem freeEntries_unmoved (hfree : ∀ n fs, IfReturns (Unmoved fs) (free n fs))
    {x : Except Panic FileSystem} (hx : freeEntries free dev block fs = x) :
    IfReturns (Unmoved fs) x := by
  rw [freeEntries_eq] at hx
  rw [← hx]
  generalize List.range 512 = l
  refine Ends.foldlM (I := Unmoved fs) (.refl fs) fun fs₁ k _ h₁ => ?_
  unfold freeEntry
  split
  · trivial
  · split
    · exact (hfree _ fs₁).mono fun _ h₂ => h₁.trans h₂
    · exact h₁

theorem freeIndirect_unmoved (hfree : ∀ n fs, IfReturns (Unmoved fs) (free n fs))
    (dev block : Nat) (fs : FileSystem) :
    IfReturns (Unmoved fs) (freeIndirect free dev block fs) := by
  refine ifReturns_iff.mpr fun fs' hfs' => ?_
  unfold freeIndirect at hfs'
  split at hfs'
  · exact Except.ok.inj hfs' ▸ .refl fs
  · obtain ⟨⟨data, fs₁⟩, hbread, hfs'⟩ := bind_eq_ok.mp hfs'
    have h₁ : Unmoved fs fs₁ := OnlyBuffers.unmoved ((bread_only dev block fs).of_ok hbread)
    cases data with
    | none => exact h₁.trans ((freeBlock_unmoved dev block fs₁).of_ok hfs')
    | some data =>
      obtain ⟨fs₂, hentries, hfs'⟩ := bind_eq_ok.mp hfs'
      obtain ⟨fs₃, hrel, hfs'⟩ := bind_eq_ok.mp hfs'
      have h₂ : Unmoved fs₁ fs₂ := freeEntries_unmoved hfree hentries
      have h₃ : OnlyBuffers fs₂ fs₃ := (brelse_only dev block fs₂).of_ok hrel
      exact ((h₁.trans h₂).trans h₃.unmoved).trans ((freeBlock_unmoved dev block fs₃).of_ok hfs')

theorem freeInd_unmoved (dev block : Nat) (fs : FileSystem) :
    IfReturns (Unmoved fs) (freeInd dev block fs) :=
  freeIndirect_unmoved (fun n fs => freeBlock_unmoved dev n fs) dev block fs

theorem freeDind_unmoved (dev block : Nat) (fs : FileSystem) :
    IfReturns (Unmoved fs) (freeDind dev block fs) :=
  freeIndirect_unmoved (fun n fs => freeInd_unmoved dev n fs) dev block fs

theorem truncate_unmoved (i : InodeIx) (fs : FileSystem) :
    IfReturns (Unmoved fs) (truncate i fs) := by
  unfold truncate
  split
  · exact .refl fs
  · have hzones : IfReturns (Unmoved fs)
        (([0, 1, 2, 3, 4, 5, 6] : List (Fin 9)).foldlM (freeZone i) fs) := by
      refine Ends.foldlM (I := Unmoved fs) (.refl fs) fun fs₁ k _ h₁ => ?_
      unfold freeZone
      split
      · exact h₁
      · refine (freeBlock_unmoved _ _ fs₁).bind fun fs₂ h₂ => ?_
        exact (h₁.trans h₂).trans (unmoved_setInode rfl rfl rfl rfl)
    refine hzones.bind fun fs₁ h₁ => ?_
    refine (freeInd_unmoved _ _ fs₁).bind fun fs₂ h₂ => ?_
    refine (freeDind_unmoved _ _ fs₂).bind fun fs₃ h₃ => ?_
    exact ((h₁.trans h₂).trans h₃).trans (unmoved_setInode rfl rfl rfl rfl)

end Freed

section Read

theorem bmap_only (i : InodeIx) (n : Nat) (fs : FileSystem) :
    IfReturns (fun r => OnlyBuffers fs r.2) (bmap i n fs) := by
  simp only [bmap]
  split
  · trivial
  · split
    · exact .refl fs
    · split
      · split
        · exact .refl fs
        · refine (bread_only _ _ fs).bind fun r h₁ => ?_
          obtain ⟨data, fs₁⟩ := r
          cases data with
          | none => exact h₁
          | some data => exact (brelse_only _ _ fs₁).bind fun fs₂ h₂ => OnlyBuffers.trans h₁ h₂
      · split
        · exact .refl fs
        · refine (bread_only _ _ fs).bind fun r h₁ => ?_
          obtain ⟨data, fs₁⟩ := r
          cases data with
          | none => exact h₁
          | some data =>
            refine (brelse_only _ _ fs₁).bind fun fs₂ h₂ => ?_
            have h₂ : OnlyBuffers fs fs₂ := OnlyBuffers.trans h₁ h₂
            split
            · exact h₂
            · refine (bread_only _ _ fs₂).bind fun r h₃ => ?_
              obtain ⟨data, fs₃⟩ := r
              cases data with
              | none => exact OnlyBuffers.trans h₂ h₃
              | some data => exact (brelse_only _ _ fs₃).bind fun fs₄ h₄ =>
                (OnlyBuffers.trans h₂ h₃).trans h₄

theorem brelseDir_only (bh : Option (BufferName × Block)) (fs : FileSystem) :
    IfReturns (OnlyBuffers fs) (brelseDir bh fs) := by
  cases bh with
  | none => exact .refl fs
  | some bh => exact brelse_only _ _ fs

theorem readDirBlock_only (dir : InodeIx) (k : Nat) (fs : FileSystem) :
    IfReturns (fun r => OnlyBuffers fs r.2) (readDirBlock dir k fs) := by
  refine (bmap_only dir k fs).bind fun r h₁ => ?_
  dsimp only
  split
  · exact h₁
  · exact (bread_only _ _ r.2).bind fun r' h₂ => OnlyBuffers.trans h₁ h₂

theorem findLoop_only (dir : InodeIx) (name : List Byte) (entries fuel n de : Nat)
    (bh : Option (BufferName × Block)) (fs : FileSystem) :
    IfReturns (fun r => OnlyBuffers fs r.2) (findLoop dir name entries fuel n de bh fs) := by
  induction fuel generalizing n de bh fs with
  | zero => exact (brelseDir_only bh fs).bind fun fs₁ h₁ => h₁
  | succ fuel ih =>
    simp only [findLoop]
    split
    · exact (brelseDir_only bh fs).bind fun fs₁ h₁ => h₁
    · have hmissing : ∀ (n de : Nat) (fs₁ : FileSystem), OnlyBuffers fs fs₁ →
          IfReturns (fun r => OnlyBuffers fs r.2) (findLoop dir name entries fuel n de none fs₁) :=
        fun n de fs₁ h₁ => (ih n de none fs₁).mono fun _ h₂ => h₁.trans h₂
      have hturn : ∀ (bh : BufferName × Block) (de : Nat) (fs₁ : FileSystem), OnlyBuffers fs fs₁ →
          IfReturns (fun r => OnlyBuffers fs r.2)
            (if matchEntry name bh.2 (Fin.ofNat 64 de) then
              pure (some ⟨bh.1, Fin.ofNat 64 de, bh.2.dirInode (Fin.ofNat 64 de)⟩, fs₁)
            else findLoop dir name entries fuel (n + 1) (de + 1) (some bh) fs₁) := by
        intro bh de fs₁ h₁
        split
        · exact h₁
        · exact (ih _ _ (some bh) fs₁).mono fun _ h₂ => h₁.trans h₂
      split
      · cases bh with
        | none => exact hmissing _ de fs (.refl fs)
        | some bh => exact hturn bh de fs (.refl fs)
      · refine (brelseDir_only bh fs).bind fun fs₁ h₁ => ?_
        refine (readDirBlock_only dir _ fs₁).bind fun r h₂ => ?_
        obtain ⟨bh, fs₂⟩ := r
        cases bh with
        | none => exact hmissing _ 0 fs₂ (OnlyBuffers.trans h₁ h₂)
        | some bh => exact hturn bh 0 fs₂ (OnlyBuffers.trans h₁ h₂)

theorem fileReadLoop_only (i : InodeIx) (fuel left pos : Nat) (out : List Byte) (fs : FileSystem) :
    IfReturns (fun r => OnlyBuffers fs r.2.2) (fileReadLoop i fuel left pos out fs) := by
  induction fuel generalizing left pos out fs with
  | zero => exact .refl fs
  | succ fuel ih =>
    simp only [fileReadLoop]
    split
    · exact .refl fs
    · refine (bmap_only i _ fs).bind fun r h₁ => ?_
      split
      · exact (ih _ _ _ r.2).mono fun _ h₂ => OnlyBuffers.trans h₁ h₂
      · refine (bread_only _ _ r.2).bind fun r' h => ?_
        obtain ⟨data, fs₂⟩ := r'
        have h₂ : OnlyBuffers fs fs₂ := OnlyBuffers.trans h₁ h
        cases data with
        | none => exact h₂
        | some data =>
          refine (brelse_only _ _ fs₂).bind fun fs₃ h₃ => ?_
          exact (ih _ _ _ fs₃).mono fun _ h₄ => (h₂.trans h₃).trans h₄

end Read

/-- The references of a call were `l` in `fs` and are `l'` in `fs'`. An entry to which anyone else
refers holds the inode it held. -/
structure Shifted (l l' : List InodeIx) (fs fs' : FileSystem) : Prop where
  only : OnlyInodes fs fs'
  balanced : Balanced l l' fs fs'
  inode : ∀ j, l.count j < (fs.inode j).iCount →
    (fs'.inode j).iDev = (fs.inode j).iDev ∧ (fs'.inode j).iNum = (fs.inode j).iNum
  mount : ∀ j, (fs'.inode j).iMount = true → (fs.inode j).iMount = true

theorem Shifted.refl (l : List InodeIx) (fs : FileSystem) : Shifted l l fs fs :=
  ⟨.refl fs, .same fun _ => rfl, fun _ _ => ⟨rfl, rfl⟩, fun _ => id⟩

theorem Unmoved.shifted (h : Unmoved fs fs') (l : List InodeIx) : Shifted l l fs fs' :=
  ⟨h.only, .same h.count, fun j _ => ⟨h.dev j, h.num j⟩, fun j hj => (h.mount j).symm.trans hj⟩

theorem Shifted.trans {l'' : List InodeIx} (h : Shifted l₀ l fs₀ fs) (h' : Shifted l l'' fs fs') :
    Shifted l₀ l'' fs₀ fs' := by
  refine ⟨h.only.trans h'.only, h.balanced.trans h'.balanced, fun j hj => ?_,
    fun j hj => h.mount j (h'.mount j hj)⟩
  have hcount := h.balanced j
  obtain ⟨hdev, hnum⟩ := h'.inode j (by omega)
  obtain ⟨hdev', hnum'⟩ := h.inode j hj
  exact ⟨hdev.trans hdev', hnum.trans hnum'⟩

theorem Shifted.unmoved (h : Shifted l₀ l fs₀ fs) (h' : Unmoved fs fs') : Shifted l₀ l fs₀ fs' :=
  h.trans (h'.shifted l)

theorem Shifted.perm {l' : List InodeIx} (h : Shifted l₀ l fs₀ fs) (hp : l.Perm l') :
    Shifted l₀ l' fs₀ fs :=
  ⟨h.only, h.balanced.perm hp, h.inode, h.mount⟩

theorem shifted_setInode {l' : List InodeIx} (hbal : Balanced l l' fs (fs.setInode i m))
    (hsame : l.count i < (fs.inode i).iCount → m.iDev = (fs.inode i).iDev ∧
      m.iNum = (fs.inode i).iNum)
    (hmount : m.iMount = true → (fs.inode i).iMount = true) :
    Shifted l l' fs (fs.setInode i m) := by
  refine ⟨rfl, hbal, fun j hj => ?_, fun j hj => ?_⟩
  · rw [inode_setInode]
    split
    · rename_i hji
      subst hji
      exact hsame hj
    · exact ⟨rfl, rfl⟩
  · rw [inode_setInode] at hj
    split at hj
    · rename_i hji
      rw [hji]
      exact hmount hj
    · exact hj

theorem shifted_drop (hcount : m.iCount + 1 = (fs.inode i).iCount)
    (hsame : 1 < (fs.inode i).iCount → m.iDev = (fs.inode i).iDev ∧ m.iNum = (fs.inode i).iNum)
    (hmount : m.iMount = true → (fs.inode i).iMount = true) (l : List InodeIx) :
    Shifted (i :: l) l fs (fs.setInode i m) := by
  refine shifted_setInode (balanced_drop hcount l) (fun h => hsame ?_) hmount
  rw [List.count_cons_self] at h
  omega

theorem shifted_put (hheld : (fs.inode i).iCount ≠ 0) (l : List InodeIx) :
    Shifted (i :: l) l fs
      (fs.setInode i { fs.inode i with iCount := (fs.inode i).iCount - 1 }) := by
  refine shifted_drop ?_ ?_ ?_ l
  · exact Nat.sub_add_cancel (Nat.pos_of_ne_zero hheld)
  · exact fun _ => ⟨rfl, rfl⟩
  · exact id

theorem shifted_take (hcount : m.iCount = (fs.inode i).iCount + 1)
    (hsame : 0 < (fs.inode i).iCount → m.iDev = (fs.inode i).iDev ∧ m.iNum = (fs.inode i).iNum)
    (hmount : m.iMount = true → (fs.inode i).iMount = true) (l : List InodeIx) :
    Shifted l (i :: l) fs (fs.setInode i m) :=
  shifted_setInode (balanced_take hcount l) (fun h => hsame (by omega)) hmount

theorem freeInode_shifted (hone : (fs.inode i).iCount = 1) (l : List InodeIx) :
    IfReturns (Shifted (i :: l) l fs) (freeInode i fs) := by
  have hzero : ∀ fs₁, Unmoved fs fs₁ → Shifted (i :: l) l fs (fs₁.setInode i .zero) := by
    intro fs₁ h₁
    have hone₁ : (fs₁.inode i).iCount = 1 := (h₁.count i).trans hone
    refine (h₁.shifted (i :: l)).trans (shifted_drop ?_ (fun h => ?_) (fun h => by cases h) l)
    · rw [hone₁]
      rfl
    · omega
  simp only [freeInode]
  split
  · exact hzero fs (.refl fs)
  · split
    · trivial
    · split
      · trivial
      · split
        · trivial
        · split
          · trivial
          · split
            · trivial
            · exact (modify_only _ _ _ fs).bind fun fs₁ h₁ => hzero fs₁ h₁.unmoved

theorem iputRepeat_shifted (fuel : Nat) (hheld : (fs.inode i).iCount ≠ 0) (l : List InodeIx) :
    IfReturns (Shifted (i :: l) l fs) (iputRepeat fuel i fs) := by
  induction fuel generalizing fs with
  | zero => trivial
  | succ fuel ih =>
    have hput := shifted_put hheld l
    unfold iputRepeat
    split
    · exact hput
    · rename_i hlast
      split
      · refine (truncate_unmoved i fs).bind fun fs₁ h₁ => ?_
        have hone : (fs₁.inode i).iCount = 1 := by
          rw [h₁.count]
          omega
        exact (freeInode_shifted hone l).mono fun _ h₂ => (h₁.shifted (i :: l)).trans h₂
      · split
        · refine (writeInode_unmoved i fs).bind fun fs₁ h₁ => ?_
          have hheld₁ : (fs₁.inode i).iCount ≠ 0 := by rwa [h₁.count]
          simp only [waitOnInode]
          split
          · trivial
          · exact (ih hheld₁).mono fun _ h₂ => (h₁.shifted (i :: l)).trans h₂
        · exact hput

theorem iput_shifted (i : InodeIx) (l : List InodeIx) (fs : FileSystem) :
    IfReturns (Shifted (i :: l) l fs) (iput i fs) := by
  refine ifReturns_iff.mpr fun fs' hfs' => ?_
  obtain ⟨_, -, hfs'⟩ := bind_eq_ok.mp hfs'
  by_cases hheld : (fs.inode i).iCount = 0
  · rw [if_pos hheld] at hfs'
    cases hfs'
  rw [if_neg hheld] at hfs'
  have hput := shifted_put hheld l
  by_cases hpipe : (fs.inode i).iPipe = true
  · rw [if_pos hpipe] at hfs'
    split at hfs'
    · exact Except.ok.inj hfs' ▸ hput
    · obtain rfl := Except.ok.inj hfs'
      refine shifted_drop ?_ ?_ ?_ l
      · change 0 + 1 = _
        omega
      · exact fun _ => ⟨rfl, rfl⟩
      · exact id
  rw [if_neg hpipe] at hfs'
  by_cases hdev : (fs.inode i).iDev = 0
  · rw [if_pos hdev] at hfs'
    exact Except.ok.inj hfs' ▸ hput
  rw [if_neg hdev] at hfs'
  by_cases hblk : S_ISBLK (fs.inode i).d.iMode
  · rw [if_pos hblk] at hfs'
    obtain ⟨fs₁, hsync, hfs'⟩ := bind_eq_ok.mp hfs'
    obtain ⟨_, -, hfs'⟩ := bind_eq_ok.mp hfs'
    have h₁ : Unmoved fs fs₁ := (syncDev_unmoved _ fs).of_ok hsync
    have hheld₁ : (fs₁.inode i).iCount ≠ 0 := by rwa [h₁.count]
    exact (h₁.shifted (i :: l)).trans ((iputRepeat_shifted 2 hheld₁ l).of_ok hfs')
  · rw [if_neg hblk] at hfs'
    exact (iputRepeat_shifted 2 hheld l).of_ok hfs'

theorem getEmptyInode_shifted (l : List InodeIx) (fs : FileSystem) :
    IfReturns (fun r => (fs.inode r.1).iCount = 0 ∧ Shifted l (r.1 :: l) fs r.2)
      (getEmptyInode fs) := by
  have hscan := scanInodes_spec fs NR_INODE fs.lastInode none fun i hi => by cases hi
  unfold getEmptyInode
  generalize scanInodes fs NR_INODE fs.lastInode none = r at hscan ⊢
  obtain ⟨last, found⟩ := r
  cases found with
  | none => trivial
  | some e =>
    have hfree : (fs.inode e).iCount = 0 := hscan
    have h₀ : Unmoved fs { fs with lastInode := last } :=
      ⟨rfl, fun _ => rfl, fun _ => rfl, fun _ => rfl, fun _ => rfl⟩
    have hclear : ∀ fs₁, Unmoved fs fs₁ →
        Shifted l (e :: l) fs (fs₁.setInode e { MInode.zero with iCount := 1 }) := by
      intro fs₁ h₁
      have hfree₁ : (fs₁.inode e).iCount = 0 := (h₁.count e).trans hfree
      refine (h₁.shifted l).trans (shifted_take ?_ ?_ ?_ l)
      · rw [hfree₁]
      · intro hpos
        omega
      · intro h
        cases h
    simp only [waitOnInode]
    split
    · trivial
    · change IfReturns _ (if _ then _ else _)
      split
      · refine (writeInode_unmoved e { fs with lastInode := last }).bind fun fs₁ h₁ => ?_
        split
        · trivial
        · exact ⟨hfree, hclear fs₁ (h₀.trans h₁)⟩
      · change IfReturns _ (if _ then _ else _)
        split
        · trivial
        · exact ⟨hfree, hclear _ h₀⟩

/-- Every count has room for the references of a call, and every mount point has its super block. -/
structure Sane (fs : FileSystem) : Prop where
  room : ∀ j, (fs.inode j).iCount + 3 < 65536
  mounts : ∀ j, (fs.inode j).iMount = true → (mountedOn fs j).isSome

theorem OnlyInodes.mountedOn (h : OnlyInodes fs fs') (i : InodeIx) :
    mountedOn fs' i = mountedOn fs i := by
  rw [h]
  rfl

theorem Sane.fit (hs : Sane fs₀) (h : Shifted l₀ l fs₀ fs) (hl : l.length ≤ 2) (i : InodeIx) :
    ((fs.inode i).iCount + 1) % 65536 = (fs.inode i).iCount + 1 := by
  have hroom := hs.room i
  have hcount := h.balanced i
  have hle : l.count i ≤ l.length := List.count_le_length
  omega

theorem Sane.take (hs : Sane fs₀) (h : Shifted l₀ l fs₀ fs) (hl : l.length ≤ 2) (i : InodeIx) :
    Shifted l₀ (i :: l) fs₀
      (fs.setInode i { fs.inode i with iCount := ((fs.inode i).iCount + 1) % 65536 }) := by
  refine h.trans (shifted_take ?_ ?_ ?_ l)
  · exact hs.fit h hl i
  · exact fun _ => ⟨rfl, rfl⟩
  · exact id

theorem igetScan_shifted (hs : Sane fs₀) (hfree : (fs₀.inode e).iCount = 0) (fuel dev nr : Nat)
    (h : Shifted [] [e] fs₀ fs) :
    IfReturns (fun r => Shifted [] [r.1] fs₀ r.2) (igetScan e fuel dev nr fs) := by
  induction fuel generalizing dev nr fs with
  | zero => trivial
  | succ fuel ih =>
    unfold igetScan
    refine ifReturns_iff.mpr fun r hr => ?_
    cases hfind : findInode fs dev nr with
    | none =>
      simp only [hfind] at hr
      obtain ⟨fs₁, hread, hr⟩ := bind_eq_ok.mp hr
      obtain rfl := Except.ok.inj hr
      refine Shifted.unmoved ?_ ((readInode_unmoved e _).of_ok hread)
      -- nobody else refers to the entry that is filled
      refine ⟨h.only.trans rfl, h.balanced.trans (.same fun j => ?_), fun j hj => ?_,
        fun j hj => ?_⟩
      · rw [inode_setInode]
        split
        · rename_i hje
          rw [hje]
        · rfl
      · have hje : j ≠ e := fun hje => by
          rw [hje, hfree] at hj
          exact absurd hj (Nat.not_lt_zero _)
        rw [inode_setInode, if_neg hje]
        exact h.inode j hj
      · rw [inode_setInode] at hj
        split at hj
        · rename_i hje
          rw [hje]
          exact h.mount e hj
        · exact h.mount j hj
    | some i =>
      simp only [hfind] at hr
      obtain ⟨_, -, hr⟩ := bind_eq_ok.mp hr
      have htake : Shifted [] [i, e] fs₀
          (fs.setInode i { fs.inode i with iCount := ((fs.inode i).iCount + 1) % 65536 }) :=
        hs.take h (Nat.le_succ 1) i
      generalize fs.setInode i { fs.inode i with iCount := ((fs.inode i).iCount + 1) % 65536 } =
        fs₁ at hr htake
      by_cases hmount : (fs₁.inode i).iMount = true
      · rw [if_pos hmount] at hr
        have hsome := hs.mounts i (htake.mount i hmount)
        rw [← htake.only.mountedOn] at hsome
        split at hr
        · rename_i hnone
          rw [show mountedOn fs₁ i = none from hnone] at hsome
          cases hsome
        · rename_i sb _
          obtain ⟨fs₂, hput, hr⟩ := bind_eq_ok.mp hr
          have h₂ : Shifted [] [e] fs₀ fs₂ := htake.trans ((iput_shifted i [e] fs₁).of_ok hput)
          exact (ih sb.sDev ROOT_INO h₂).of_ok hr
      · rw [if_neg hmount] at hr
        obtain ⟨fs₂, hput, hr⟩ := bind_eq_ok.mp hr
        obtain rfl := Except.ok.inj hr
        exact (htake.perm (.swap e i [])).trans ((iput_shifted e [i] fs₁).of_ok hput)

theorem Sane.shifted (hs : Sane fs₀) (h : Shifted [] [] fs₀ fs) : Sane fs := by
  refine ⟨fun j => ?_, fun j hj => ?_⟩
  · have hcount : (fs.inode j).iCount + 0 = (fs₀.inode j).iCount + 0 := h.balanced j
    have hroom := hs.room j
    omega
  · rw [h.only.mountedOn]
    exact hs.mounts j (h.mount j hj)

theorem iget_shifted (hs : Sane fs₀) (dev nr : Nat) (h : Shifted [] [] fs₀ fs) :
    IfReturns (fun r => Shifted [] [r.1] fs₀ r.2) (iget dev nr fs) := by
  have hs₁ := hs.shifted h
  refine ifReturns_iff.mpr fun r hr => ?_
  unfold iget at hr
  split at hr
  · cases hr
  · obtain ⟨⟨e, fs₁⟩, hempty, hr⟩ := bind_eq_ok.mp hr
    obtain ⟨hfree, h₁⟩ := (getEmptyInode_shifted [] fs).of_ok hempty
    exact h.trans ((igetScan_shifted hs₁ hfree _ dev nr h₁).of_ok hr)

theorem dotDot_shifted (hs : Sane fs₀) {dir : InodeIx} (name : List Byte)
    (h : Shifted [] [dir] fs₀ fs) :
    IfReturns (fun r => Shifted [] [r.2.1] fs₀ r.2.2) (dotDot dir name fs) := by
  unfold dotDot
  split
  · split
    · exact h
    · split
      · split
        · trivial
        · split
          · exact h
          · trivial
          · rename_i i _
            refine (iput_shifted dir [] fs).bind fun fs₁ h₁ => ?_
            exact hs.take (h.trans h₁) (Nat.zero_le 2) i
      · exact h
  · exact h

theorem findEntry_shifted (hs : Sane fs₀) {dir : InodeIx} (name : List Byte)
    (h : Shifted [] [dir] fs₀ fs) :
    IfReturns (fun r => Shifted [] [r.2.1] fs₀ r.2.2) (findEntry dir name fs) := by
  simp only [findEntry]
  split
  · exact h
  · refine (dotDot_shifted hs _ h).bind fun r h₁ => ?_
    obtain ⟨name', dir', fs₁⟩ := r
    have h₁ : Shifted [] [dir'] fs₀ fs₁ := h₁
    dsimp only
    split
    · exact h₁
    · refine (bread_only _ _ fs₁).bind fun r hr => ?_
      obtain ⟨data, fs₂⟩ := r
      have h₂ : Shifted [] [dir'] fs₀ fs₂ := h₁.unmoved (OnlyBuffers.unmoved hr)
      cases data with
      | none => exact h₂
      | some data => exact (findLoop_only _ _ _ _ _ _ _ fs₂).bind fun r h₃ => h₂.unmoved h₃.unmoved

def EndsAt (fs₀ : FileSystem) (r : Option InodeIx × FileSystem) : Prop :=
  Shifted [] (r.1.elim [] fun i => [i]) fs₀ r.2

theorem getDirLoop_shifted (hs : Sane fs₀) (fuel : Nat) (path : List Byte)
    (h : Shifted [] [i] fs₀ fs) :
    IfReturns (EndsAt fs₀) (getDirLoop fuel path i fs) := by
  induction fuel generalizing path i fs with
  | zero => trivial
  | succ fuel ih =>
    refine ifReturns_iff.mpr fun r hr => ?_
    have hput : ∀ (j : InodeIx) (fs₁ : FileSystem), Shifted [] [j] fs₀ fs₁ →
        (do return (none, ← iput j fs₁)) = Except.ok r → EndsAt fs₀ r := by
      intro j fs₁ h₁ hr
      obtain ⟨fs₂, hput, hr⟩ := bind_eq_ok.mp hr
      obtain rfl := Except.ok.inj hr
      exact h₁.trans ((iput_shifted j [] fs₁).of_ok hput)
    unfold getDirLoop at hr
    split at hr
    · exact hput i fs h hr
    · generalize component path = comp at hr
      obtain ⟨name, rest⟩ := comp
      cases rest with
      | none => exact Except.ok.inj hr ▸ h
      | some rest =>
        obtain ⟨⟨de, i', fs₁⟩, hentry, hr⟩ := bind_eq_ok.mp hr
        have h₁ : Shifted [] [i'] fs₀ fs₁ := (findEntry_shifted hs name h).of_ok hentry
        cases de with
        | none => exact hput i' fs₁ h₁ hr
        | some de =>
          obtain ⟨fs₂, hrel, hr⟩ := bind_eq_ok.mp hr
          obtain ⟨fs₃, hfs₃, hr⟩ := bind_eq_ok.mp hr
          obtain ⟨⟨j, fs₄⟩, hget, hr⟩ := bind_eq_ok.mp hr
          have h₂ : Shifted [] [i'] fs₀ fs₂ := h₁.unmoved ((brelse_only _ _ fs₁).of_ok hrel).unmoved
          have h₃ : Shifted [] [] fs₀ fs₃ := h₂.trans ((iput_shifted i' [] fs₂).of_ok hfs₃)
          have h₄ : Shifted [] [j] fs₀ fs₄ := (iget_shifted hs _ _ h₃).of_ok hget
          exact (ih rest h₄).of_ok hr

theorem getDir_shifted (hs : Sane fs) (path : List Byte) :
    IfReturns (EndsAt fs) (getDir path fs) := by
  rw [getDir_eq]
  split
  · trivial
  · split
    · trivial
    · split
      · exact .refl [] fs
      · trivial
      · rename_i i _
        exact getDirLoop_shifted hs _ _ (hs.take (.refl [] fs) (Nat.zero_le 2) i)

end Hios.Fs
