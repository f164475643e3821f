import Hios.Fs.References

/-! When the calls that may free blocks give back the buffers they take: exactly
when `free_block` finds its block held by nobody. `free_block` returns with the
reference of `get_hash_table` otherwise. -/
namespace Hios.Fs
open Hios.Outcome
variable {dev block n : Nat} {k : Fin 9} {i dir : InodeIx} {fs fs' : FileSystem}

/-- `free_block` finds the block held by nobody. -/
def FreeQuiet (dev block : Nat) (fs : FileSystem) : Prop := bufferCount fs dev block = 0

instance : Decidable (FreeQuiet dev block fs) := inferInstanceAs (Decidable (_ = _))

section Loop
variable {α : Type} {q : FileSystem → α → Prop} {f : FileSystem → α → Except Panic FileSystem}

def LoopQuiet (q : FileSystem → α → Prop) (f : FileSystem → α → Except Panic FileSystem) :
    List α → FileSystem → Prop
  | [], _ => True
  | a :: l, fs => q fs a ∧ IfReturns (LoopQuiet q f l) (f fs a)

instance instDecidableLoopQuiet [∀ fs a, Decidable (q fs a)] :
    ∀ (l : List α) (fs : FileSystem), Decidable (LoopQuiet q f l fs)
  | [], _ => .isTrue trivial
  | a :: l, fs =>
    have := instDecidableLoopQuiet l
    inferInstanceAs (Decidable (q fs a ∧ IfReturns (LoopQuiet q f l) (f fs a)))

theorem LoopQuiet.counts (hf : ∀ fs a, CountsFit fs → q fs a → IfReturns (SameCounts fs) (f fs a))
    {l : List α} (hfit : CountsFit fs) (h : LoopQuiet q f l fs) :
    IfReturns (SameCounts fs) (l.foldlM f fs) := by
  induction l generalizing fs with
  | nil => exact .refl fs
  | cons a l ih =>
    obtain ⟨hturn, hrest⟩ := h
    have hturn := hf fs a hfit hturn
    rw [List.foldlM_cons]
    cases hfs : f fs a with
    | error e => trivial
    | ok fs₁ =>
      rw [hfs] at hturn hrest
      exact (ih (hturn.fit hfit) hrest).mono fun _ h₂ => SameCounts.trans hturn h₂

end Loop

def freeEntry (free : Nat → FileSystem → Except Panic FileSystem) (dev block : Nat)
    (fs : FileSystem) (k : Nat) :
    Except Panic FileSystem :=
  match fs.buffer dev block with
  | none => throw .wildPointer
  | some bh => if bh.data.short k ≠ 0 then free (bh.data.short k) fs else return fs

def EntryQuiet (q : Nat → FileSystem → Prop) (dev block : Nat) (fs : FileSystem) (k : Nat) : Prop :=
  match fs.buffer dev block with
  | none => True
  | some bh => bh.data.short k ≠ 0 → q (bh.data.short k) fs

def EntriesQuiet (q : Nat → FileSystem → Prop) (free : Nat → FileSystem → Except Panic FileSystem)
    (dev block : Nat) (fs : FileSystem) : Prop :=
  LoopQuiet (EntryQuiet q dev block) (freeEntry free dev block) (List.range 512) fs

/-- The indirect block held by nobody when it is freed, as is every entry that is. -/
def BehindQuiet (q : Nat → FileSystem → Prop) (free : Nat → FileSystem → Except Panic FileSystem)
    (dev block : Nat) :
    Option Block × FileSystem → Prop
  | (none, fs) => FreeQuiet dev block fs
  | (some _, fs) => EntriesQuiet q free dev block fs ∧
      ∀ fs₁ ∈ (freeEntries free dev block fs).toOption, ∀ fs₂ ∈ (brelse dev block fs₁).toOption,
        FreeQuiet dev block fs₂

def IndirectQuiet (q : Nat → FileSystem → Prop) (free : Nat → FileSystem → Except Panic FileSystem)
    (dev block : Nat) (fs : FileSystem) : Prop :=
  block = 0 ∨ IfReturns (BehindQuiet q free dev block) (bread dev block fs)

def FreeIndQuiet (dev : Nat) : Nat → FileSystem → Prop :=
  IndirectQuiet (FreeQuiet dev) (freeBlock dev) dev

def FreeDindQuiet (dev : Nat) : Nat → FileSystem → Prop :=
  IndirectQuiet (FreeIndQuiet dev) (freeInd dev) dev

def ZoneQuiet (i : InodeIx) (fs : FileSystem) (k : Fin 9) : Prop :=
  (fs.inode i).d.iZone k = 0 ∨ FreeQuiet (fs.inode i).iDev ((fs.inode i).d.iZone k) fs

/-- Every block that `truncate` frees is held by nobody then. -/
def TruncateQuiet (i : InodeIx) (fs : FileSystem) : Prop :=
  ¬ (S_ISREG (fs.inode i).d.iMode ∨ S_ISDIR (fs.inode i).d.iMode) ∨
  LoopQuiet (ZoneQuiet i) (freeZone i) [0, 1, 2, 3, 4, 5, 6] fs ∧
    IfReturns (fun fs => FreeIndQuiet (fs.inode i).iDev ((fs.inode i).d.iZone 7) fs ∧
      IfReturns (fun fs => FreeDindQuiet (fs.inode i).iDev ((fs.inode i).d.iZone 8) fs)
        (freeInd (fs.inode i).iDev ((fs.inode i).d.iZone 7) fs))
      (([0, 1, 2, 3, 4, 5, 6] : List (Fin 9)).foldlM (freeZone i) fs)

section Decided
variable {q : Nat → FileSystem → Prop} [∀ n fs, Decidable (q n fs)]
  {free : Nat → FileSystem → Except Panic FileSystem}

instance : Decidable (EntryQuiet q dev block fs n) := by
  unfold EntryQuiet
  cases fs.buffer dev block <;> infer_instance

instance : Decidable (EntriesQuiet q free dev block fs) :=
  inferInstanceAs (Decidable (LoopQuiet _ _ _ _))

-- not to be unfolded into its 512 turns
attribute [irreducible] EntriesQuiet

instance : ∀ r, Decidable (BehindQuiet q free dev block r)
  | (none, fs) => inferInstanceAs (Decidable (FreeQuiet dev block fs))
  | (some _, _) =>
    inferInstanceAs (Decidable
      (_ ∧ ∀ fs₁ ∈ Except.toOption _, ∀ fs₂ ∈ Except.toOption _, FreeQuiet _ _ _))

instance : Decidable (IndirectQuiet q free dev block fs) := inferInstanceAs (Decidable (_ ∨ _))

instance : Decidable (FreeIndQuiet dev block fs) :=
  inferInstanceAs (Decidable (IndirectQuiet _ _ _ _ _))

instance : Decidable (FreeDindQuiet dev block fs) :=
  inferInstanceAs (Decidable (IndirectQuiet _ _ _ _ _))

instance : Decidable (ZoneQuiet i fs k) := inferInstanceAs (Decidable (_ ∨ _))

instance : Decidable (TruncateQuiet i fs) :=
  inferInstanceAs (Decidable (_ ∨ LoopQuiet _ _ _ _ ∧ IfReturns _ _))

end Decided

theorem clearZone_counts (sb : SuperBlock) (nr : Nat) (fs : FileSystem) :
    IfReturns (SameCounts fs) (match sb.sZmap (Fin.ofNat 8 (nr / 8192)) with
      | none => throw .wildPointer
      | some (d, b) =>
        match fs.buffer d b with
        | none => throw .wildPointer
        | some zmap =>
          if (clearBit (nr % 8192) zmap.data).1 = false then throw .bitAlreadyCleared
          else modify d b (fun data => (clearBit (nr % 8192) data).2) fs) := by
  split
  · trivial
  · split
    · trivial
    · split
      · trivial
      · exact modify_counts _ _ _ fs

theorem freeBlock_counts (dev block : Nat) (hfit : CountsFit fs) :
    IfReturns (fun fs' => SameCounts fs fs' ↔ FreeQuiet dev block fs) (freeBlock dev block fs) := by
  simp only [freeBlock]
  split
  · trivial
  · rename_i sb hsb
    split
    · trivial
    · cases hb : fs.buffer dev block with
      | none =>
        have hquiet : FreeQuiet dev block fs := by simp [FreeQuiet, bufferCount, hb]
        have hsame : SameCounts fs ((fs.setBuffer dev block none).setBuffer dev block none) :=
          fun d b => by
          simp only [bufferCount, setBuffer_buffer]
          split
          · rename_i e
            rw [e.1, e.2, hb]
          · rfl
        exact (clearZone_counts sb _ _).mono fun _ h => iff_of_true (hsame.trans h) hquiet
      | some bh =>
        have hcount := bufferCount_of_some hb
        have hlt := hfit dev block
        by_cases hzero : bh.count = 0
        · have hquiet : FreeQuiet dev block fs := hcount.trans hzero
          simp only [Option.map_some, Option.any_some, hzero]
          rw [if_neg (show ¬ decide ((0 + 1) % 256 ≠ 1) = true by decide)]
          refine (clearZone_counts sb _ _).mono fun _ h =>
            iff_of_true (SameCounts.trans ?_ h) hquiet
          intro d b
          rw [bufferCount_setBuffer]
          split
          · rename_i e
            rw [e.1, e.2, hcount, hzero]
          · rename_i e
            rw [bufferCount_setBuffer, if_neg e]
        · have hleak : (bh.count + 1) % 256 ≠ 1 := by omega
          simp only [Option.map_some, Option.any_some]
          rw [if_pos (decide_eq_true hleak)]
          refine iff_of_false (fun h => ?_) fun h => hzero (hcount.symm.trans h)
          have hself := h dev block
          rw [bufferCount_setBuffer, if_pos ⟨rfl, rfl⟩, hcount] at hself
          have hself : (bh.count + 1) % 256 = bh.count := hself
          omega

theorem freeEntries_eq (free : Nat → FileSystem → Except Panic FileSystem) (dev block : Nat)
    (fs : FileSystem) :
    freeEntries free dev block fs = (List.range 512).foldlM (freeEntry free dev block) fs := rfl

theorem freeEntries_counts {q : Nat → FileSystem → Prop}
    {free : Nat → FileSystem → Except Panic FileSystem} {x : Except Panic FileSystem}
    (hfree : ∀ n fs, CountsFit fs → q n fs → IfReturns (SameCounts fs) (free n fs))
    (hfit : CountsFit fs) (h : EntriesQuiet q free dev block fs)
    (hx : freeEntries free dev block fs = x) :
    IfReturns (SameCounts fs) x := by
  unfold EntriesQuiet at h
  rw [freeEntries_eq] at hx
  rw [← hx]
  generalize List.range 512 = l at h ⊢
  refine LoopQuiet.counts (fun fs k hfit hq => ?_) hfit h
  unfold freeEntry
  split
  · trivial
  · rename_i bh hb
    split
    · rename_i hne
      rw [EntryQuiet, hb] at hq
      exact hfree _ _ hfit (hq hne)
    · exact .refl fs

theorem freeIndirect_counts {q : Nat → FileSystem → Prop}
    {free : Nat → FileSystem → Except Panic FileSystem}
    (hfree : ∀ n fs, CountsFit fs → q n fs → IfReturns (SameCounts fs) (free n fs))
    (hfit : CountsFit fs) (h : IndirectQuiet q free dev block fs) :
    IfReturns (SameCounts fs) (freeIndirect free dev block fs) := by
  refine ifReturns_iff.mpr fun fs' hfs' => ?_
  unfold freeIndirect at hfs'
  split at hfs'
  · exact Except.ok.inj hfs' ▸ .refl fs
  · rename_i hne
    obtain ⟨⟨data, fs₁⟩, hbread, hfs'⟩ := bind_eq_ok.mp hfs'
    have hread := (bread_counts dev block hfit).of_ok hbread
    have h := IfReturns.of_ok (h.resolve_left hne) hbread
    cases data with
    | none =>
      have hread : SameCounts fs fs₁ := hread
      exact hread.trans (((freeBlock_counts dev block (hread.fit hfit)).of_ok hfs').mpr h)
    | some data =>
      have hread : OneMore dev block fs fs₁ := hread
      simp only [BehindQuiet] at h
      obtain ⟨hquiet, hlast⟩ := h
      obtain ⟨fs₂, hentries, hfs'⟩ := bind_eq_ok.mp hfs'
      obtain ⟨fs₃, hrel, hfs'⟩ := bind_eq_ok.mp hfs'
      have hsame : SameCounts fs₁ fs₂ := freeEntries_counts hfree (hread.fit hfit) hquiet hentries
      have hback : SameCounts fs fs₃ := (OneMore.brelse (hread.same hsame) hfit).of_ok hrel
      have hlast := hlast fs₂ (toOption_eq_some.mpr hentries) fs₃ (toOption_eq_some.mpr hrel)
      exact hback.trans (((freeBlock_counts dev block (hback.fit hfit)).of_ok hfs').mpr hlast)

theorem freeInd_counts (dev block : Nat) (hfit : CountsFit fs) (h : FreeIndQuiet dev block fs) :
    IfReturns (SameCounts fs) (freeInd dev block fs) :=
  freeIndirect_counts (fun n _ hfit hq => (freeBlock_counts dev n hfit).mono fun _ hiff =>
    hiff.mpr hq) hfit h

theorem freeDind_counts (dev block : Nat) (hfit : CountsFit fs) (h : FreeDindQuiet dev block fs) :
    IfReturns (SameCounts fs) (freeDind dev block fs) :=
  freeIndirect_counts (fun n _ hfit hq => freeInd_counts dev n hfit hq) hfit h

theorem truncate_counts (i : InodeIx) (hfit : CountsFit fs) (h : TruncateQuiet i fs) :
    IfReturns (SameCounts fs) (truncate i fs) := by
  unfold truncate
  split
  · exact .refl fs
  · rename_i hkind
    obtain ⟨hzones, hrest⟩ := h.resolve_left hkind
    have hdirect := LoopQuiet.counts (fun fs k hfit hq => ?_) hfit hzones
    · cases hfold : ([0, 1, 2, 3, 4, 5, 6] : List (Fin 9)).foldlM (freeZone i) fs with
      | error e => trivial
      | ok fs₁ =>
        rw [hfold] at hdirect hrest
        have hdirect : SameCounts fs fs₁ := hdirect
        obtain ⟨hind, hdind⟩ := hrest
        have h₂ := freeInd_counts _ _ (hdirect.fit hfit) hind
        change IfReturns _ (freeInd (fs₁.inode i).iDev ((fs₁.inode i).d.iZone 7) fs₁ >>= _)
        cases hfs₂ : freeInd (fs₁.inode i).iDev ((fs₁.inode i).d.iZone 7) fs₁ with
        | error e => trivial
        | ok fs₂ =>
          rw [hfs₂] at h₂ hdind
          have h₂ := hdirect.trans h₂
          exact (freeDind_counts _ _ (h₂.fit hfit) hdind).bind fun fs₃ h₃ => h₂.trans h₃
    · unfold freeZone
      split
      · exact .refl fs
      · rename_i hne
        exact (freeBlock_counts _ _ hfit).bind fun fs₁ hiff => hiff.mpr (hq.resolve_left hne)

def IputRepeatQuiet : Nat → InodeIx → FileSystem → Prop
  | 0, _, _ => True
  | fuel + 1, i, fs =>
    if (fs.inode i).iCount > 1 then True
    else if (fs.inode i).d.iNlinks = 0 then TruncateQuiet i fs
    else if (fs.inode i).iDirt then IfReturns (IputRepeatQuiet fuel i) (writeInode i fs)
    else True

def IputQuiet (i : InodeIx) (fs : FileSystem) : Prop :=
  if (fs.inode i).iLock ∨ (fs.inode i).iCount = 0 ∨ (fs.inode i).iPipe ∨
    (fs.inode i).iDev = 0 then True
  else if S_ISBLK (fs.inode i).d.iMode then
    IfReturns (IputRepeatQuiet 2 i) (syncDev ((fs.inode i).d.iZone 0) fs)
  else IputRepeatQuiet 2 i fs

def IgetScanQuiet (empty : InodeIx) : Nat → Nat → Nat → FileSystem → Prop
  | 0, _, _, _ => True
  | fuel + 1, dev, nr, fs =>
    match findInode fs dev nr with
    | none => True
    | some i =>
      if (fs.inode i).iLock then True else
      let fs := fs.setInode i { fs.inode i with iCount := ((fs.inode i).iCount + 1) % 65536 }
      if (fs.inode i).iMount then
        match ((List.finRange NR_SUPER).map fs.super).find? fun s => s.sImount = .entry i with
        | none => IputQuiet empty fs
        | some sb => IputQuiet i fs ∧
          IfReturns (IgetScanQuiet empty fuel sb.sDev ROOT_INO) (iput i fs)
      else IputQuiet empty fs

def IgetQuiet (dev nr : Nat) (fs : FileSystem) : Prop :=
  dev = 0 ∨ IfReturns (fun r => IgetScanQuiet r.1 (NR_SUPER + 2) dev nr r.2) (getEmptyInode fs)

instance instDecidableIputRepeatQuiet : ∀ fuel i fs, Decidable (IputRepeatQuiet fuel i fs)
  | 0, _, _ => .isTrue trivial
  | fuel + 1, i, fs => by
    have := instDecidableIputRepeatQuiet fuel i
    unfold IputRepeatQuiet
    infer_instance

instance : Decidable (IputQuiet i fs) := by
  unfold IputQuiet
  infer_instance

instance instDecidableIgetScanQuiet (empty : InodeIx) :
    ∀ fuel dev nr fs, Decidable (IgetScanQuiet empty fuel dev nr fs)
  | 0, _, _, _ => .isTrue trivial
  | fuel + 1, dev, nr, fs => by
    have := instDecidableIgetScanQuiet empty fuel
    unfold IgetScanQuiet
    cases findInode fs dev nr with
    | none => infer_instance
    | some i =>
      dsimp only
      split
      · infer_instance
      · split
        · split <;> infer_instance
        · infer_instance

instance : Decidable (IgetQuiet dev n fs) := inferInstanceAs (Decidable (_ ∨ IfReturns _ _))

theorem iputRepeat_counts (fuel : Nat) (i : InodeIx) (hfit : CountsFit fs)
    (h : IputRepeatQuiet fuel i fs) :
    IfReturns (SameCounts fs) (iputRepeat fuel i fs) := by
  induction fuel generalizing fs with
  | zero => trivial
  | succ fuel ih =>
    unfold iputRepeat
    unfold IputRepeatQuiet at h
    by_cases hmany : (fs.inode i).iCount > 1
    · rw [if_pos hmany]
      exact .refl fs
    · rw [if_neg hmany] at h ⊢
      by_cases hlinks : (fs.inode i).d.iNlinks = 0
      · rw [if_pos hlinks] at h ⊢
        refine (truncate_counts i hfit h).bind fun fs₁ h₁ => ?_
        exact (freeInode_counts i fs₁).mono fun _ h₂ => h₁.trans h₂
      · rw [if_neg hlinks] at h ⊢
        by_cases hdirt : (fs.inode i).iDirt = true
        · rw [if_pos hdirt] at h ⊢
          refine ifReturns_iff.mpr fun fs' hfs' => ?_
          obtain ⟨fs₁, hwrite, hfs'⟩ := bind_eq_ok.mp hfs'
          obtain ⟨_, -, hfs'⟩ := bind_eq_ok.mp hfs'
          have h₁ : SameCounts fs fs₁ := (writeInode_counts i hfit).of_ok hwrite
          exact h₁.trans ((ih (h₁.fit hfit) (h.of_ok hwrite)).of_ok hfs')
        · rw [if_neg hdirt]
          exact .refl fs

theorem lock_of_waitOnInode {u : Unit} (h : waitOnInode i fs = .ok u) :
    ¬ (fs.inode i).iLock = true := by
  unfold waitOnInode at h
  split at h
  · cases h
  · assumption

theorem iput_counts (i : InodeIx) (hfit : CountsFit fs) (h : IputQuiet i fs) :
    IfReturns (SameCounts fs) (iput i fs) := by
  refine ifReturns_iff.mpr fun fs' hfs' => ?_
  obtain ⟨_, hwait, hfs'⟩ := bind_eq_ok.mp hfs'
  have hlock := lock_of_waitOnInode hwait
  unfold IputQuiet at h
  by_cases hzero : (fs.inode i).iCount = 0
  · rw [if_pos hzero] at hfs'
    cases hfs'
  · rw [if_neg hzero] at hfs'
    by_cases hpipe : (fs.inode i).iPipe = true
    · rw [if_pos hpipe] at hfs'
      split at hfs'
      · exact Except.ok.inj hfs' ▸ .refl fs
      · exact Except.ok.inj hfs' ▸ .refl fs
    · rw [if_neg hpipe] at hfs'
      by_cases hdev : (fs.inode i).iDev = 0
      · rw [if_pos hdev] at hfs'
        exact Except.ok.inj hfs' ▸ .refl fs
      · rw [if_neg hdev] at hfs'
        rw [if_neg (not_or.mpr ⟨hlock, not_or.mpr ⟨hzero, not_or.mpr ⟨hpipe, hdev⟩⟩⟩)] at h
        by_cases hblk : S_ISBLK (fs.inode i).d.iMode
        · rw [if_pos hblk] at h hfs'
          obtain ⟨fs₁, hsync, hfs'⟩ := bind_eq_ok.mp hfs'
          obtain ⟨_, -, hfs'⟩ := bind_eq_ok.mp hfs'
          have h₁ : SameCounts fs fs₁ := (syncDev_counts _ hfit).of_ok hsync
          exact h₁.trans ((iputRepeat_counts 2 i (h₁.fit hfit) (h.of_ok hsync)).of_ok hfs')
        · rw [if_neg hblk] at h hfs'
          exact (iputRepeat_counts 2 i hfit h).of_ok hfs'

theorem igetScan_counts (empty : InodeIx) (fuel dev nr : Nat) (hfit : CountsFit fs)
    (h : IgetScanQuiet empty fuel dev nr fs) :
    IfReturns (fun r => SameCounts fs r.2) (igetScan empty fuel dev nr fs) := by
  induction fuel generalizing dev nr fs with
  | zero => trivial
  | succ fuel ih =>
    unfold igetScan
    unfold IgetScanQuiet at h
    refine ifReturns_iff.mpr fun r hr => ?_
    cases hfind : findInode fs dev nr with
    | none =>
      simp only [hfind] at hr
      obtain ⟨fs₁, hread, hr⟩ := bind_eq_ok.mp hr
      obtain rfl := Except.ok.inj hr
      have hfit₁ : CountsFit
        (fs.setInode empty { fs.inode empty with iDev := dev % 65536, iNum := nr % 65536 }) := hfit
      exact (readInode_counts empty hfit₁).of_ok hread
    | some i =>
      simp only [hfind] at h hr
      obtain ⟨_, hwait, hr⟩ := bind_eq_ok.mp hr
      rw [if_neg (lock_of_waitOnInode hwait)] at h
      generalize hfs₁ : fs.setInode i
        { fs.inode i with iCount := ((fs.inode i).iCount + 1) % 65536 } = fs₁ at h hr
      have h₁ : SameCounts fs fs₁ := hfs₁ ▸ .refl fs
      have hback : ∀ (j : InodeIx) r', IputQuiet empty fs₁ →
        (do return (j, ← iput empty fs₁)) = Except.ok r' →
          SameCounts fs r'.2 := by
        intro j r' hq hr'
        obtain ⟨fs₂, hput, hr'⟩ := bind_eq_ok.mp hr'
        obtain rfl := Except.ok.inj hr'
        exact h₁.trans ((iput_counts empty (h₁.fit hfit) hq).of_ok hput)
      by_cases hmount : (fs₁.inode i).iMount = true
      · rw [if_pos hmount] at h hr
        split at hr
        · rename_i hnone
          simp only [hnone] at h
          exact hback _ r h hr
        · rename_i sb hsome
          simp only [hsome] at h
          obtain ⟨fs₂, hput, hr⟩ := bind_eq_ok.mp hr
          have h₂ := h₁.trans ((iput_counts i (h₁.fit hfit) h.1).of_ok hput)
          exact h₂.trans ((ih _ _ (h₂.fit hfit) (h.2.of_ok hput)).of_ok hr)
      · rw [if_neg hmount] at h hr
        exact hback _ r h hr

theorem iget_counts (dev nr : Nat) (hfit : CountsFit fs) (h : IgetQuiet dev nr fs) :
    IfReturns (fun r => SameCounts fs r.2) (iget dev nr fs) := by
  refine ifReturns_iff.mpr fun r hr => ?_
  unfold iget at hr
  split at hr
  · cases hr
  · rename_i hdev
    have h := h.resolve_left hdev
    obtain ⟨⟨empty, fs₁⟩, hempty, hr⟩ := bind_eq_ok.mp hr
    have h₁ : SameCounts fs fs₁ := (getEmptyInode_counts hfit).of_ok hempty
    exact h₁.trans ((igetScan_counts empty _ dev nr (h₁.fit hfit) (h.of_ok hempty)).of_ok hr)

/-- `find_entry` goes on behind the mount point: `..` at the root of a mounted file
system that is not the root of the process. -/
def leavesMount (dir : InodeIx) (name : List Byte) (fs : FileSystem) : Bool :=
  name = [dot, dot] ∧ fs.root ≠ .entry dir ∧ (fs.inode dir).iNum = ROOT_INO ∧
    (getSuper (fs.inode dir).iDev fs).any fun sb => sb.sImount matches .entry _

def FindEntryQuiet (dir : InodeIx) (name : List Byte) (fs : FileSystem) : Prop :=
  leavesMount dir (name.take NAME_LEN) fs → IputQuiet dir fs

instance (name : List Byte) : Decidable (FindEntryQuiet dir name fs) :=
  inferInstanceAs (Decidable (_ → _))

theorem dotDot_counts (dir : InodeIx) (name : List Byte) (hfit : CountsFit fs)
    (h : leavesMount dir name fs → IputQuiet dir fs) :
    IfReturns (fun r => SameCounts fs r.2.2) (dotDot dir name fs) := by
  unfold dotDot
  by_cases hname : name = [dot, dot]
  · rw [if_pos hname]
    by_cases hroot : fs.root = .entry dir
    · rw [if_pos hroot]
      exact .refl fs
    · rw [if_neg hroot]
      by_cases hino : (fs.inode dir).iNum = ROOT_INO
      · rw [if_pos hino]
        cases hsb : getSuper (fs.inode dir).iDev fs with
        | none => trivial
        | some sb =>
          dsimp only
          cases hmount : sb.sImount with
          | null => exact SameCounts.refl fs
          | wild => trivial
          | entry j =>
            have hleaves : leavesMount dir name fs = true := by
              simp [leavesMount, hname, hroot, hino, hsb, hmount]
            exact (iput_counts dir hfit (h hleaves)).bind fun fs₁ h₁ => h₁
      · rw [if_neg hino]
        exact .refl fs
  · rw [if_neg hname]
    exact .refl fs

theorem findEntry_counts (dir : InodeIx) (name : List Byte) (hfit : CountsFit fs)
    (h : FindEntryQuiet dir name fs) :
    IfReturns (fun r => HandsOut fs r.1 r.2.2) (findEntry dir name fs) := by
  simp only [findEntry]
  split
  · exact SameCounts.refl fs
  · refine (dotDot_counts dir _ hfit h).bind fun r h₁ => ?_
    obtain ⟨name', dir', fs₁⟩ := r
    have h₁ : SameCounts fs fs₁ := h₁
    have hfit₁ := h₁.fit hfit
    dsimp only
    split
    · exact h₁
    · refine ifReturns_iff.mpr fun r hr => ?_
      obtain ⟨⟨data, fs₂⟩, hbread, hr⟩ := bind_eq_ok.mp hr
      have hread := (bread_counts _ _ hfit₁).of_ok hbread
      cases data with
      | none =>
        obtain rfl := Except.ok.inj hr
        exact h₁.trans hread
      | some data =>
        obtain ⟨⟨de, fs₃⟩, hloop, hr⟩ := bind_eq_ok.mp hr
        obtain rfl := Except.ok.inj hr
        have hheld : OneMore (fs₁.inode dir').iDev ((fs₁.inode dir').d.iZone 0) fs fs₂ :=
          h₁.oneMore hread
        have hinode : fs₂.inode = fs₁.inode := OnlyBuffers.inode ((bread_only _ _ fs₁).of_ok hbread)
        have hholding : Holding (some (((fs₂.inode dir').iDev, (fs₁.inode dir').d.iZone 0), data))
            fs fs₂ := by
          rw [hinode]
          exact hheld
        exact (findLoop_counts dir' name' _ _ 0 0 hfit hholding).of_ok hloop

/-- The inodes that `get_dir` puts and gets behind `find_entry`, and `next` behind them. -/
def EnterQuiet (next : InodeIx → FileSystem → Prop) : Option DirEntry × InodeIx × FileSystem → Prop
  | (none, i, fs) => IputQuiet i fs
  | (some de, i, fs) => IfReturns (fun fs₂ => IputQuiet i fs₂ ∧
      IfReturns (fun fs₃ => IgetQuiet (fs.inode i).iDev de.inode fs₃ ∧
        IfReturns (fun r => next r.1 r.2) (iget (fs.inode i).iDev de.inode fs₃)) (iput i fs₂))
      (brelse de.bh.1 de.bh.2 fs)

instance (next : InodeIx → FileSystem → Prop) [∀ i fs, Decidable (next i fs)] :
    ∀ r, Decidable (EnterQuiet next r)
  | (none, i, fs) => inferInstanceAs (Decidable (IputQuiet i fs))
  | (some _, _, _) =>
    inferInstanceAs (Decidable
      (IfReturns (fun _ => _ ∧ IfReturns (fun _ => _ ∧ IfReturns _ _) _) _))

/-- Every inode that the walk puts or gets is one that `iput` and `iget` leave quiet. -/
def GetDirLoopQuiet : Nat → List Byte → InodeIx → FileSystem → Prop
  | 0, _, _, _ => True
  | fuel + 1, path, i, fs =>
    if ¬ S_ISDIR (fs.inode i).d.iMode ∨ permission i MAY_EXEC fs = false then IputQuiet i fs
    else match (component path).2 with
    | none => True
    | some rest => FindEntryQuiet i (component path).1 fs ∧
      IfReturns (EnterQuiet (GetDirLoopQuiet fuel rest)) (findEntry i (component path).1 fs)

instance instDecidableGetDirLoopQuiet : ∀ fuel path i fs, Decidable (GetDirLoopQuiet fuel path i fs)
  | 0, _, _, _ => .isTrue trivial
  | fuel + 1, path, i, fs => by
    have := instDecidableGetDirLoopQuiet fuel
    unfold GetDirLoopQuiet
    split
    · infer_instance
    · split <;> infer_instance

/-- Where `get_dir` starts, and what is left of the path. -/
def startOf (path : List Byte) (fs : FileSystem) : InodePtr × List Byte :=
  match path with
  | [] => (.null, [])
  | c :: cs => if c = slash then (fs.root, cs) else if c = 0 then (.null, []) else (fs.pwd, path)

def GetDirQuiet (path : List Byte) (fs : FileSystem) : Prop :=
  match (startOf path fs).1 with
  | .null | .wild => True
  | .entry i => GetDirLoopQuiet ((startOf path fs).2.length + 1) (startOf path fs).2 i
      (fs.setInode i { fs.inode i with iCount := ((fs.inode i).iCount + 1) % 65536 })

instance (path : List Byte) : Decidable (GetDirQuiet path fs) := by
  unfold GetDirQuiet
  split <;> infer_instance

theorem getDirLoop_counts (fuel : Nat) (path : List Byte) (i : InodeIx) (hfit : CountsFit fs)
    (h : GetDirLoopQuiet fuel path i fs) :
    IfReturns (fun r => SameCounts fs r.2) (getDirLoop fuel path i fs) := by
  induction fuel generalizing path i fs with
  | zero => trivial
  | succ fuel ih =>
    refine ifReturns_iff.mpr fun r hr => ?_
    unfold getDirLoop at hr
    unfold GetDirLoopQuiet at h
    have hput : ∀ (j : InodeIx) (fs₁ : FileSystem), SameCounts fs fs₁ → IputQuiet j fs₁ →
        (do return (none, ← iput j fs₁)) = Except.ok r → SameCounts fs r.2 := by
      intro j fs₁ h₁ hq hr
      obtain ⟨fs₂, hput, hr⟩ := bind_eq_ok.mp hr
      obtain rfl := Except.ok.inj hr
      exact h₁.trans ((iput_counts j (h₁.fit hfit) hq).of_ok hput)
    split at hr
    · rename_i hdir
      rw [if_pos hdir] at h
      exact hput i fs (.refl fs) h hr
    · rename_i hdir
      rw [if_neg hdir] at h
      generalize hcomp : component path = comp at h hr
      obtain ⟨name, rest⟩ := comp
      cases rest with
      | none => exact Except.ok.inj hr ▸ .refl fs
      | some rest =>
        obtain ⟨hfind, hnext⟩ := h
        obtain ⟨⟨de, i', fs₁⟩, hentry, hr⟩ := bind_eq_ok.mp hr
        have hout := (findEntry_counts i name hfit hfind).of_ok hentry
        have hnext := hnext.of_ok hentry
        cases de with
        | none => exact hput i' fs₁ hout hnext hr
        | some de =>
          obtain ⟨fs₂, hrel, hr⟩ := bind_eq_ok.mp hr
          obtain ⟨fs₃, hfs₃, hr⟩ := bind_eq_ok.mp hr
          obtain ⟨⟨j, fs₄⟩, hget, hr⟩ := bind_eq_ok.mp hr
          obtain ⟨hq₂, hnext⟩ := IfReturns.of_ok hnext hrel
          obtain ⟨hq₃, hnext⟩ := hnext.of_ok hfs₃
          have h₂ : SameCounts fs fs₂ := (OneMore.brelse hout hfit).of_ok hrel
          have h₃ := h₂.trans ((iput_counts i' (h₂.fit hfit) hq₂).of_ok hfs₃)
          have h₄ : SameCounts fs fs₄ := h₃.trans ((iget_counts _ _ (h₃.fit hfit) hq₃).of_ok hget)
          exact h₄.trans ((ih rest j (h₄.fit hfit) (hnext.of_ok hget)).of_ok hr)

theorem getDir_eq (path : List Byte) (fs : FileSystem) : getDir path fs =
    if unused fs.root fs then .error .noRoot
    else if unused fs.pwd fs then .error .noCwd
    else match (startOf path fs).1 with
    | .null => .ok (none, fs)
    | .wild => .error .wildPointer
    | .entry i => getDirLoop ((startOf path fs).2.length + 1) (startOf path fs).2 i
        (fs.setInode i { fs.inode i with iCount := ((fs.inode i).iCount + 1) % 65536 }) := by
  unfold getDir startOf
  cases path with
  | nil => rfl
  | cons c cs => rfl

theorem getDir_counts (path : List Byte) (hfit : CountsFit fs) (h : GetDirQuiet path fs) :
    IfReturns (fun r => SameCounts fs r.2) (getDir path fs) := by
  rw [getDir_eq]
  split
  · trivial
  · split
    · trivial
    · split
      · exact .refl fs
      · trivial
      · rename_i i hi
        simp only [GetDirQuiet, hi] at h
        generalize hfs₁ : fs.setInode i
          { fs.inode i with iCount := ((fs.inode i).iCount + 1) % 65536 } = fs₁ at h ⊢
        have h₁ : SameCounts fs fs₁ := hfs₁ ▸ .refl fs
        exact (getDirLoop_counts _ _ i (h₁.fit hfit) h).mono fun _ h₂ => h₁.trans h₂

def OpenFoundQuiet (dir : InodeIx) (de : DirEntry) (flag : Nat) (fs : FileSystem) : Prop :=
  IfReturns (fun fs₁ => IputQuiet dir fs₁ ∧
    IfReturns (fun fs₂ => flag &&& O_EXCL ≠ 0 ∨ IgetQuiet (fs.inode dir).iDev de.inode fs₂ ∧
      IfReturns (fun r => (S_ISDIR (r.2.inode r.1).d.iMode ∧ flag &&& O_ACCMODE ≠ 0) ∨
          permission r.1 (ACC_MODE flag) r.2 = false → IputQuiet r.1 r.2)
        (iget (fs.inode dir).iDev de.inode fs₂)) (iput dir fs₁))
    (brelse de.bh.1 de.bh.2 fs)

def LookedUpQuiet (flag : Nat) : Option DirEntry × InodeIx × FileSystem → Prop
  | (none, dir, fs) => IputQuiet dir fs
  | (some de, dir, fs) => OpenFoundQuiet dir de flag fs

def WalkedQuiet (path : List Byte) (flag : Nat) : Option InodeIx × FileSystem → Prop
  | (none, _) => True
  | (some dir, fs) =>
    if baseName path = [] then flag &&& (O_ACCMODE ||| O_CREAT ||| O_TRUNC) ≠ 0 → IputQuiet dir fs
    else FindEntryQuiet dir (baseName path) fs ∧
      IfReturns (LookedUpQuiet flag) (findEntry dir (baseName path) fs)

def OpenNameiQuiet (path : List Byte) (flag : Nat) (fs : FileSystem) : Prop :=
  GetDirQuiet path fs ∧ IfReturns (WalkedQuiet path (nameiFlag flag)) (getDir path fs)

section Decided
variable (path : List Byte) (flag : Nat)

instance (de : DirEntry) : Decidable (OpenFoundQuiet dir de flag fs) :=
  inferInstanceAs (Decidable
    (IfReturns (fun _ => _ ∧ IfReturns (fun _ => _ ∨ _ ∧ IfReturns (fun _ => _ → _) _) _) _))

instance : ∀ r, Decidable (LookedUpQuiet flag r)
  | (none, dir, fs) => inferInstanceAs (Decidable (IputQuiet dir fs))
  | (some de, dir, fs) => inferInstanceAs (Decidable (OpenFoundQuiet dir de flag fs))

instance : ∀ r, Decidable (WalkedQuiet path flag r)
  | (none, _) => .isTrue trivial
  | (some _, _) => by
    unfold WalkedQuiet
    infer_instance

instance : Decidable (OpenNameiQuiet path flag fs) :=
  inferInstanceAs (Decidable (_ ∧ IfReturns _ _))

end Decided

theorem openFound_counts {fs₀ : FileSystem} (dir : InodeIx) (de : DirEntry) (flag : Nat)
    (hfit : CountsFit fs₀) (hout : OneMore de.bh.1 de.bh.2 fs₀ fs)
    (h : OpenFoundQuiet dir de flag fs) :
    IfReturns (fun r => SameCounts fs₀ r.2.2) (openFound dir de flag fs) := by
  refine ifReturns_iff.mpr fun r hr => ?_
  obtain ⟨fs₁, hrel, hr⟩ := bind_eq_ok.mp hr
  obtain ⟨fs₂, hput, hr⟩ := bind_eq_ok.mp hr
  obtain ⟨hq₁, hnext⟩ := IfReturns.of_ok h hrel
  have h₁ : SameCounts fs₀ fs₁ := (hout.brelse hfit).of_ok hrel
  have h₂ := h₁.trans ((iput_counts dir (h₁.fit hfit) hq₁).of_ok hput)
  by_cases hexcl : flag &&& O_EXCL = 0
  · rw [if_neg (not_not.mpr hexcl)] at hr
    obtain ⟨⟨i, fs₃⟩, hget, hr⟩ := bind_eq_ok.mp hr
    obtain ⟨hq₂, hlast⟩ := (hnext.of_ok hput).resolve_left (not_not.mpr hexcl)
    have h₃ : SameCounts fs₀ fs₃ := h₂.trans ((iget_counts _ _ (h₂.fit hfit) hq₂).of_ok hget)
    dsimp only at hr
    split at hr
    · rename_i hrefused
      obtain ⟨fs₄, hput', hr⟩ := bind_eq_ok.mp hr
      obtain rfl := Except.ok.inj hr
      exact h₃.trans ((iput_counts i (h₃.fit hfit) (hlast.of_ok hget hrefused)).of_ok hput')
    · exact Except.ok.inj hr ▸ h₃
  · rw [if_pos hexcl] at hr
    exact Except.ok.inj hr ▸ h₂

theorem nameiFlag_creat {flag : Nat} (h : flag &&& O_CREAT = 0) :
    nameiFlag flag &&& O_CREAT = 0 := by
  unfold nameiFlag
  split
  · rw [Nat.and_or_distrib_right, h]
    rfl
  · exact h

theorem openNamei_counts (path : List Byte) (flag mode : Nat) (uninit : InodePtr)
    (hfit : CountsFit fs) (hcreat : flag &&& O_CREAT = 0) (h : OpenNameiQuiet path flag fs) :
    IfReturns (fun r => SameCounts fs r.2.2) (openNamei path flag mode uninit fs) := by
  refine ifReturns_iff.mpr fun r hr => ?_
  obtain ⟨hwalk, hnext⟩ := h
  unfold openNamei at hr
  change (dirNamei path fs >>= _) = _ at hr
  obtain ⟨⟨dir, fs₁⟩, hdir, hr⟩ := bind_eq_ok.mp hr
  obtain ⟨⟨dir, fs₁⟩, hget, hdir⟩ := bind_eq_ok.mp hdir
  obtain ⟨rfl, rfl⟩ := Prod.mk.inj (Except.ok.inj hdir)
  have h₁ : SameCounts fs fs₁ := (getDir_counts path hfit hwalk).of_ok hget
  have hput : ∀ (j : InodeIx) (e : Int) (fs₂ : FileSystem), SameCounts fs fs₂ → IputQuiet j fs₂ →
      (do return (e, none, ← iput j fs₂)) = Except.ok r → SameCounts fs r.2.2 := by
    intro j e fs₂ h₂ hq hr
    obtain ⟨fs₃, hput, hr⟩ := bind_eq_ok.mp hr
    obtain rfl := Except.ok.inj hr
    exact h₂.trans ((iput_counts j (h₂.fit hfit) hq).of_ok hput)
  cases dir with
  | none => exact Except.ok.inj hr ▸ h₁
  | some dir =>
    have hwalked : WalkedQuiet path (nameiFlag flag) (some dir, fs₁) := hnext.of_ok hget
    simp only [WalkedQuiet] at hwalked
    simp only [Option.map_some] at hr
    by_cases hname : baseName path = []
    · rw [if_pos hname] at hr hwalked
      split at hr
      · exact Except.ok.inj hr ▸ h₁
      · rename_i hflag
        exact hput dir _ fs₁ h₁ (hwalked hflag) hr
    · rw [if_neg hname] at hr hwalked
      obtain ⟨hfind, hfound⟩ := hwalked
      obtain ⟨⟨de, dir', fs₂⟩, hentry, hr⟩ := bind_eq_ok.mp hr
      have hout := (findEntry_counts dir _ (h₁.fit hfit) hfind).of_ok hentry
      have hfound := hfound.of_ok hentry
      cases de with
      | none =>
        have hr : createEntry dir' (baseName path) (nameiFlag flag) _ uninit fs₂ = .ok r := hr
        unfold createEntry at hr
        rw [if_pos (nameiFlag_creat hcreat)] at hr
        exact hput dir' _ fs₂ (h₁.trans hout) hfound hr
      | some de =>
        have hr : openFound dir' de (nameiFlag flag) fs₂ = .ok r := hr
        exact (openFound_counts dir' de _ hfit (h₁.oneMore hout) hfound).of_ok hr

/-- The buffers that a call takes are given back: by `read_inode`, `write_inode` and
`file_read` always, by `free_block` exactly when nobody else holds the block, and by
the calls that free blocks on their way when every block they free is held by nobody
then. `find_entry` hands out one buffer, held once more. -/
theorem buffer_references_balance (hfit : CountsFit fs) :
    (∀ dev block fs', freeBlock dev block fs = .ok fs' →
      (SameCounts fs fs' ↔ FreeQuiet dev block fs)) ∧
    (∀ i fs', readInode i fs = .ok fs' → SameCounts fs fs') ∧
    (∀ i fs', writeInode i fs = .ok fs' → SameCounts fs fs') ∧
    (∀ i filp count n out fs', fileRead i filp count fs = .ok (n, out, fs') → SameCounts fs fs') ∧
    (∀ i fs', TruncateQuiet i fs → truncate i fs = .ok fs' → SameCounts fs fs') ∧
    (∀ dir name de dir' fs', FindEntryQuiet dir name fs →
      findEntry dir name fs = .ok (de, dir', fs') →
      HandsOut fs de fs') ∧
    (∀ path r fs', GetDirQuiet path fs → getDir path fs = .ok (r, fs') → SameCounts fs fs') ∧
    (∀ path flag mode uninit n res fs', flag &&& O_CREAT = 0 → OpenNameiQuiet path flag fs →
      openNamei path flag mode uninit fs = .ok (n, res, fs') → SameCounts fs fs') :=
  ⟨fun dev block _ h => (freeBlock_counts dev block hfit).of_ok h,
    fun i _ h => (readInode_counts i hfit).of_ok h,
    fun i _ h => (writeInode_counts i hfit).of_ok h,
    fun i filp count _ _ _ h => (fileRead_counts i filp count hfit).of_ok h,
    fun i _ hq h => (truncate_counts i hfit hq).of_ok h,
    fun dir name _ _ _ hq h => (findEntry_counts dir name hfit hq).of_ok h,
    fun path _ _ hq h => (getDir_counts path hfit hq).of_ok h,
    fun path flag mode uninit _ _ _ hcreat hq h =>
      (openNamei_counts path flag mode uninit hfit hcreat hq).of_ok h⟩

section SmallDisk

/-- Device 1 with a zone bitmap in block 3, which is held, and a file in core whose
indirect block 6 lists itself. -/
def selfListing : FileSystem :=
  { smallFs with
    disk := fun _ block j => if block = 6 ∧ j = 0 then 6 else 0
    buffer := fun dev block => if dev = 1 ∧ block = 3 then some ⟨fun _ => 255, true, false, 1⟩
      else none
    inode := fun i => if i = 1 then
        ⟨((DInode.zero.setMode 0o100644).setNlinks 1).setZone 7 6, 1, 2, 1, false, false, false,
          false⟩ else .zero
    super := fun k => if k = 0 then { smallSuper with sZmap := fun _ => some (1, 3) }
      else { smallSuper with sDev := 0 } }

theorem selfListing_fit : CountsFit selfListing := fun d b => by
  simp only [bufferCount, selfListing]
  split
  · decide
  · decide

theorem truncate_pins_buffer :
    bufferCount selfListing 1 6 = 0 ∧
    (truncate 1 selfListing).toOption.map (fun fs => bufferCount fs 1 6) = some 2 ∧
    ¬ ∀ fs', truncate 1 selfListing = .ok fs' → SameCounts selfListing fs' := by
  have hrun : (truncate 1 selfListing).toOption.map (fun fs => bufferCount fs 1 6) = some 2 := by
    decide +kernel
  refine ⟨by decide, hrun, fun h => ?_⟩
  cases hfs : truncate 1 selfListing with
  | error e =>
    rw [hfs] at hrun
    cases hrun
  | ok fs' =>
    rw [hfs] at hrun
    have htwo : bufferCount fs' 1 6 = 2 := Option.some.inj hrun
    rw [h fs' hfs 1 6] at htwo
    cases htwo

/-- The same device with the directory of `smallDisk`, and a file in core with block 7
and the indirect block 6, which lists block 8. -/
def threeZones : FileSystem :=
  { selfListing with
    disk := fun dev block j => if block = 6 then if j = 0 then 8 else 0 else smallDisk dev block j
    inode := fun i => if i = 1 then
        ⟨(((DInode.zero.setMode 0o100644).setNlinks 1).setZone 0 7).setZone 7 6, 1, 3, 1, false,
          false, false, false⟩
      else smallFs.inode i }

theorem buffer_references_balance_small :
    (∃ fs', truncate 1 threeZones = .ok fs' ∧ (fs'.inode 1).d.iZone 7 = 0 ∧
      SameCounts threeZones fs') ∧
    ∃ n res fs', openNamei [102] 0 0 .null threeZones = .ok (n, res, fs') ∧ n = 0 ∧
    SameCounts threeZones fs' := by
  have hfit : CountsFit threeZones := selfListing_fit
  obtain ⟨-, -, -, -, htruncate, -, -, hopen⟩ := buffer_references_balance hfit
  constructor
  · have hrun : (truncate 1 threeZones).toOption.map (fun fs => (fs.inode 1).d.iZone 7) =
      some 0 := by decide +kernel
    have hquiet : TruncateQuiet 1 threeZones := by decide +kernel
    obtain ⟨fs', hfs', hzone⟩ := Option.map_eq_some_iff.mp hrun
    have hfs' := toOption_eq_some.mp hfs'
    exact ⟨fs', hfs', hzone, htruncate 1 fs' hquiet hfs'⟩
  · have hrun : (openNamei [102] 0 0 .null threeZones).toOption.map Prod.fst = some 0 := by
      decide +kernel
    have hquiet : OpenNameiQuiet [102] 0 threeZones := by decide +kernel
    obtain ⟨r, hr, hzero⟩ := Option.map_eq_some_iff.mp hrun
    have hr := toOption_eq_some.mp hr
    exact ⟨r.1, r.2.1, r.2.2, hr, hzero, hopen [102] 0 0 .null r.1 r.2.1 r.2.2 rfl hquiet hr⟩

end SmallDisk

end Hios.Fs
