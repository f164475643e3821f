import Hios.Fs.InodeCalls
import Hios.Fs.Open
import Hios.Lib.Run

/-! The inode table and the disk behind it as one store of inodes: a holder who looks
for an inode finds what was last put into it. -/
namespace Hios.Fs
open Hios.Outcome Hios.Run
variable {fs fs' : FileSystem} {dev nr : Nat} {i : InodeIx} {sb : SuperBlock}

/-- What is done with the table. The fields of an entry are changed with `i_dirt = 1`. -/
inductive TableAct where
  | iget (dev nr : Nat)
  | change (i : InodeIx) (d : DInode)
  | iput (i : InodeIx)
  | syncInodes

/-- `given` are the bytes last given to every inode, `got` is what `iget` was asked for
and the entry it has just returned. -/
structure TableState where
  fs : FileSystem
  given : Nat → Nat → DInode
  got : Option (Nat × Nat × InodeIx)

def tableStep (s : TableState) : TableAct → Option TableState
  | .iget dev nr => (iget dev nr s.fs).toOption.map fun r => ⟨r.2, s.given, some (dev, nr, r.1)⟩
  | .change i d =>
    let m := s.fs.inode i
    some ⟨s.fs.setInode i { m with d, iDirt := true },
      Function.update s.given m.iDev (Function.update (s.given m.iDev) m.iNum d), none⟩
  | .iput i => (iput i s.fs).toOption.map fun fs => ⟨fs, s.given, none⟩
  | .syncInodes => (syncInodes s.fs).toOption.map fun fs => ⟨fs, s.given, none⟩

/-- `iget` asks for an inode of a device while an entry is free, an entry that is changed
holds an inode, and `iput` gives back a reference that there is and deletes nothing. -/
def Allowed (s : TableState) : TableAct → Prop
  | .iget dev nr =>
    (∃ sb, getSuper dev s.fs = some sb ∧ 1 ≤ nr ∧ nr ≤ sb.sNinodes) ∧ ∃ i, (s.fs.inode i).iCount = 0
  | .change i _ => (s.fs.inode i).iDev ≠ 0
  | .iput i => (s.fs.inode i).iCount ≠ 0 ∧
    (1 < (s.fs.inode i).iCount ∨ (s.fs.inode i).d.iNlinks ≠ 0)
  | .syncInodes => True

structure Rested (fs : FileSystem) : Prop where
  table : ∀ i, fs.inode i = .zero
  shorts : ∀ k, (fs.super k).sNinodes < 65536 ∧ (fs.super k).sDev < 65536
  reads : ∀ n d b, fs.readable n d b = true
  counts : ∀ d b, bufferCount fs d b < 255
  dirty : DirtyHolds fs

def WritesApart (fs : FileSystem) (i : InodeIx) : Prop :=
  Returns (fun fs' => ∀ dev nr, Known fs dev nr →
    ¬ (dev = (fs.inode i).iDev ∧ nr = (fs.inode i).iNum) →
    diskInode fs' dev nr = diskInode fs dev nr) (writeInode i fs)

structure StoreRight (s : TableState) : Prop where
  got : ∀ dev nr i, s.got = some (dev, nr, i) →
    (s.fs.inode i).iDev = dev ∧ (s.fs.inode i).iNum = nr ∧ (s.fs.inode i).d = s.given dev nr
  view : ∀ dev nr, Known s.fs dev nr → inodeAt s.fs dev nr = s.given dev nr
  unique : ∀ i j, (s.fs.inode i).iDev ≠ 0 → (s.fs.inode i).iDev = (s.fs.inode j).iDev →
    (s.fs.inode i).iNum = (s.fs.inode j).iNum → i = j
  apart : ∀ i, WritesApart s.fs i

structure StoreInv (s : TableState) : Prop where
  coherent : Coherent s.fs
  shorts : ∀ k, (s.fs.super k).sNinodes < 65536 ∧ (s.fs.super k).sDev < 65536
  reads : ∀ n d b, s.fs.readable n d b = true
  view : ∀ dev nr, Known s.fs dev nr → inodeAt s.fs dev nr = s.given dev nr
  got : ∀ dev nr i, s.got = some (dev, nr, i) →
    (s.fs.inode i).iDev = dev ∧ (s.fs.inode i).iNum = nr ∧ (s.fs.inode i).d = s.given dev nr

theorem Coherent.writesApart (hc : Coherent fs) (i : InodeIx) : WritesApart fs i := by
  by_cases hidle : (fs.inode i).iDirt = false ∨ (fs.inode i).iDev = 0
  · rw [WritesApart, writeInode_idle (hc.unlocked i) hidle]
    exact fun _ _ _ _ => rfl
  · obtain ⟨hdirt, hdev⟩ := not_or.mp hidle
    obtain ⟨fs', heq, -, -, -, -, hother⟩ := hc.writeInode hdev (by simpa using hdirt)
    rw [WritesApart, heq]
    rintro dev nr ⟨_, _, hone, _⟩ hne
    exact hother dev nr hone hne

theorem StoreInv.right {s : TableState} (h : StoreInv s) : StoreRight s :=
  ⟨h.got, h.view, h.coherent.unique, h.coherent.writesApart⟩

theorem Rested.coherent (h : Rested fs) : Coherent fs := by
  have hdev : ∀ i, (fs.inode i).iDev = 0 := fun i => by
    rw [h.table i]
    rfl
  refine ⟨fun i => ?_, fun i => ?_, fun i hi => absurd (hdev i) hi,
    fun i j hi => absurd (hdev i) hi,
    fun i hi => absurd (hdev i) hi, fun i hi => absurd (hdev i) hi, fun i _ => ?_,
      h.counts, h.dirty⟩
  · rw [h.table i]
    rfl
  · rw [h.table i]
    rfl
  · rw [h.table i]
    rfl

theorem Rested.storeInv (h : Rested fs) : StoreInv ⟨fs, diskInode fs, none⟩ := by
  refine ⟨h.coherent, h.shorts, h.reads, fun dev nr hk => ?_, fun _ _ _ hgot => by cases hgot⟩
  refine h.coherent.inodeAt_disk hk.dev_ne fun j _ _ => ?_
  rw [h.table j]
  rfl

theorem StoreInv.known {s : TableState} (h : StoreInv s) (hsb : getSuper dev s.fs = some sb)
    (hone : 1 ≤ nr) (hlast : nr ≤ sb.sNinodes) : Known s.fs dev nr := by
  obtain ⟨k, rfl, hdev⟩ := getSuper_some hsb
  obtain ⟨hnr, hlt⟩ := h.shorts k
  exact ⟨_, hsb, hone, hlast, Nat.lt_of_le_of_lt hlast hnr, hdev ▸ hlt, .inr fun n => h.reads n _ _⟩

theorem StoreInv.kept {s : TableState} (h : StoreInv s) (hc : Coherent fs') (hk : Kept s.fs fs')
    (got : Option (Nat × Nat × InodeIx))
    (hgot : ∀ dev nr i, got = some (dev, nr, i) →
      Known s.fs dev nr ∧ (fs'.inode i).iDev = dev ∧ (fs'.inode i).iNum = nr) :
    StoreInv ⟨fs', s.given, got⟩ := by
  have hsuper : fs'.super = s.fs.super := by rw [hk.rest]
  have hknown : ∀ {dev nr}, Known fs' dev nr → Known s.fs dev nr := by
    rintro dev nr ⟨sb, hsb, hone, hlast, _⟩
    exact h.known ((hk.super dev).symm.trans hsb) hone hlast
  refine ⟨hc, fun k => hsuper ▸ h.shorts k, fun n d b => ?_, fun dev nr hkn => ?_,
    fun dev nr i he => ?_⟩
  · rw [hk.rest]
    exact h.reads n d b
  · exact (hk.view dev nr (hknown hkn)).trans (h.view dev nr (hknown hkn))
  · obtain ⟨hkn, hd, hn⟩ := hgot dev nr i he
    have hentry := hc.inodeAt_entry (i := i) (hd ▸ hkn.dev_ne)
    rw [hd, hn] at hentry
    exact ⟨hd, hn, hentry.symm.trans ((hk.view dev nr hkn).trans (h.view dev nr hkn))⟩

/-- New bytes in an entry are new bytes of its inode, and of no other one. -/
theorem Coherent.change (hc : Coherent fs) (hdev : (fs.inode i).iDev ≠ 0) (d : DInode) :
    Coherent (fs.setInode i { fs.inode i with d, iDirt := true }) ∧
      ∀ dev nr, inodeAt (fs.setInode i { fs.inode i with d, iDirt := true }) dev nr =
        if dev = (fs.inode i).iDev ∧ nr = (fs.inode i).iNum then d else inodeAt fs dev nr := by
  generalize hfs' : fs.setInode i { fs.inode i with d, iDirt := true } = fs'
  have hself : fs'.inode i = { fs.inode i with d, iDirt := true } := by rw [← hfs', setInode_inode]
  have hother : ∀ j, j ≠ i → fs'.inode j = fs.inode j := fun j hj => by
    rw [← hfs']
    exact Function.update_of_ne hj ..
  have hsame : ∀ j, fs'.inode j =
      { fs.inode j with d := (fs'.inode j).d, iDirt := (fs'.inode j).iDirt } := by
    intro j
    by_cases hj : j = i
    · rw [hj, hself]
    · rw [hother j hj]
  have hfind : ∀ dev nr, findInode fs' dev nr = findInode fs dev nr := fun dev nr =>
    findInode_congr fun j => by
      rw [hsame j]
      exact ⟨rfl, rfl⟩
  have hdisk : ∀ dev nr, diskInode fs' dev nr = diskInode fs dev nr := fun dev nr => by
    rw [← hfs', diskInode_setInode]
  have hknown : ∀ dev nr, Known fs dev nr → Known fs' dev nr := fun dev nr hk => by
    rw [← hfs']
    exact hk
  have hc' : Coherent fs' := by
    refine ⟨fun j => ?_, fun j => ?_, fun j => ?_, fun j k => ?_, fun j => ?_, fun j hj hd => ?_,
      fun j hj => ?_, ?_, ?_⟩
    · rw [hsame j]
      exact hc.unlocked j
    · rw [hsame j]
      exact hc.notMount j
    · rw [hsame j]
      exact hc.notPipe j
    · rw [hsame j, hsame k]
      exact hc.unique j k
    · rw [hsame j]
      exact fun hj => hknown _ _ (hc.known j hj)
    · have hji : j ≠ i := fun e => by
        rw [e, hself] at hd
        cases hd
      rw [hother j hji] at hj hd ⊢
      rw [hdisk]
      exact hc.clean j hj hd
    · have hji : j ≠ i := fun e => by
        rw [e, hself] at hj
        exact hdev hj
      rw [hother j hji] at hj ⊢
      exact hc.spare j hj
    · rw [← hfs']
      exact hc.counts
    · rw [← hfs']
      exact hc.dirty
  refine ⟨hc', fun dev nr => ?_⟩
  by_cases he : dev = (fs.inode i).iDev ∧ nr = (fs.inode i).iNum
  · have hentry := hc'.inodeAt_entry (i := i) (by rw [hself]; exact hdev)
    rw [hself] at hentry
    rw [if_pos he, he.1, he.2]
    exact hentry
  · rw [if_neg he]
    simp only [inodeAt, hfind, hdisk]
    cases hf : findInode fs dev nr with
    | none => rfl
    | some j =>
      obtain ⟨hd, hn⟩ := findInode_some hf
      have hji : j ≠ i := fun e => he ⟨by rw [← hd, e], by rw [← hn, e]⟩
      simp only [hother j hji]

theorem StoreInv.change {s : TableState} (h : StoreInv s) (hdev : (s.fs.inode i).iDev ≠ 0)
    (d : DInode) :
    ∃ t, tableStep s (.change i d) = some t ∧ StoreInv t := by
  obtain ⟨hc, hview⟩ := h.coherent.change hdev d
  refine ⟨_, rfl, hc, h.shorts, h.reads, fun dev nr hk => ?_, fun _ _ _ e => by cases e⟩
  rw [hview dev nr]
  by_cases hd : dev = (s.fs.inode i).iDev
  · subst hd
    by_cases hn : nr = (s.fs.inode i).iNum
    · simp [hn]
    · simpa [hn] using h.view _ nr hk
  · simpa [hd] using h.view dev nr hk

theorem storeInv_step (s : TableState) (a : TableAct) (h : StoreInv s) (hallow : Allowed s a) :
    ∃ t, tableStep s a = some t ∧ StoreInv t := by
  cases a with
  | iget dev nr =>
    obtain ⟨⟨sb, hsb, hone, hlast⟩, hfree⟩ := hallow
    have hk := h.known hsb hone hlast
    obtain ⟨i, fs', heq, hc, hkept, -, -, hd, hn⟩ := h.coherent.iget_found hk hfree
    refine ⟨⟨fs', s.given, some (dev, nr, i)⟩,
      by simp [tableStep, heq, Except.toOption], h.kept hc hkept _ ?_⟩
    intro dev' nr' i' he
    obtain ⟨rfl, he'⟩ := Prod.mk.inj (Option.some.inj he)
    obtain ⟨rfl, rfl⟩ := Prod.mk.inj he'
    exact ⟨hk, hd, hn⟩
  | change i d => exact h.change hallow d
  | iput i =>
    obtain ⟨fs', heq, hcount⟩ := (h.coherent.iput hallow.1 (hallow.2.imp_right .inr)).exists_ok
    exact ⟨⟨fs', s.given, none⟩, by simp [tableStep, heq, Except.toOption],
      h.kept hcount.coherent hcount.kept none fun _ _ _ e => by cases e⟩
  | syncInodes =>
    obtain ⟨fs', heq, hback⟩ := h.coherent.syncInodes.exists_ok
    exact ⟨⟨fs', s.given, none⟩, by simp [tableStep, heq, Except.toOption],
      h.kept hback.coherent hback.kept none fun _ _ _ e => by cases e⟩

/-- Over every sequence of calls, `iget` returns an entry with the bytes last given to
its inode, no inode has two entries, and writing one back leaves the others alone. -/
theorem inode_table_is_store (fs : FileSystem) (h : Rested fs) (acts : List TableAct) :
    Serves tableStep Allowed StoreRight ⟨fs, diskInode fs, none⟩ acts :=
  serves_of_inv storeInv_step (fun _ => StoreInv.right) h.storeInv acts

def restedFs : FileSystem := { smallFs with inode := fun _ => .zero }

theorem inode_table_is_store_again :
    Serves tableStep Allowed StoreRight ⟨restedFs, diskInode restedFs, none⟩
      [.iget 1 2, .change 1 (DInode.zero.setNlinks 1), .iput 1, .iget 1 2] :=
  inode_table_is_store restedFs
    ⟨fun _ => rfl, by decide, fun _ _ _ => rfl, fun _ _ => Nat.zero_lt_succ 254,
    fun _ _ _ h => by cases h⟩ _

end Hios.Fs
