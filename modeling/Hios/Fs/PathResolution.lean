import Hios.Fs.PathWalk
import Hios.Fs.Balance

/-! `get_dir` and `dir_namei` lead where the path means to, and take one reference. -/
namespace Hios.Fs
open Hios.Outcome
variable {fs₀ fs fs' fs'' : FileSystem} {dev nr n e : Nat} {i : InodeIx} {d : DInode}
  {name path : List Byte}

/-- A file system without mount points and with no call in progress, as `mount_root` leaves
its super block: directories are whole, their entries name inodes with links, and an entry of the
inode table is free. -/
structure Resolvable (fs : FileSystem) : Prop where
  coherent : Coherent fs
  free : ∃ i, (fs.inode i).iCount = 0
  counts : ∀ i, (fs.inode i).iCount < 65535
  mounted : ∀ k, (fs.super k).sImount = .null ∨ ∃ r, (fs.super k).sImount = .entry r ∧
    (fs.inode r).iDev = (fs.super k).sDev ∧ (fs.inode r).iNum = ROOT_INO ∧ (fs.inode r).iCount ≠ 0
  root : ∃ r, fs.root = .entry r ∧ (fs.inode r).iDev ≠ 0 ∧ (fs.inode r).iCount ≠ 0
  pwd : ∃ p, fs.pwd = .entry p ∧ (fs.inode p).iDev ≠ 0 ∧ (fs.inode p).iCount ≠ 0
  whole : ∀ dev nr, Known fs dev nr → S_ISDIR (inodeAt fs dev nr).iMode →
    WholeDir fs dev (inodeAt fs dev nr)
  named : ∀ dev nr, Known fs dev nr → S_ISDIR (inodeAt fs dev nr).iMode →
    ∀ e < entriesIn (inodeAt fs dev nr),
    entryInode fs dev (inodeAt fs dev nr) e ≠ 0 →
    Known fs dev (entryInode fs dev (inodeAt fs dev nr) e) ∧
      (inodeAt fs dev (entryInode fs dev (inodeAt fs dev nr) e)).iNlinks ≠ 0

structure Back (fs fs' : FileSystem) : Prop where
  coherent : Coherent fs'
  kept : Kept fs fs'
  refs : SameRefs fs fs'
  inUse : InUseKept fs fs'

theorem InUseKept.trans (h : InUseKept fs fs') (h' : InUseKept fs' fs'')
    (hpos : ∀ j, (fs.inode j).iCount ≠ 0 → (fs'.inode j).iCount ≠ 0) : InUseKept fs fs'' := by
  intro j hj
  obtain ⟨hd, hn, hi⟩ := h j hj
  obtain ⟨hd', hn', hi'⟩ := h' j (hpos j hj)
  exact ⟨hd'.trans hd, hn'.trans hn, hi'.trans hi⟩

theorem Got.back (h : Got dev nr i fs fs') (h' : Counted (· - 1) i fs' fs'') : Back fs fs'' := by
  refine ⟨h'.coherent, h.kept.trans h'.kept, fun j => ?_,
    h.inUse.trans h'.same.inUseKept fun j hj => ?_⟩
  · rw [h'.refs j, h.refs j]
    by_cases hji : j = i
    · simp [hji]
    · simp [hji]
  · rw [h.refs j]
    split
    · exact Nat.succ_ne_zero _
    · exact hj

theorem Back.got (h : Back fs fs') (h' : Got dev nr i fs' fs'') : Got dev nr i fs fs'' :=
  ⟨h'.coherent, h.kept.trans h'.kept, fun j => by rw [h'.refs j, h.refs j],
    h.inUse.trans h'.inUse fun j hj => (h.refs j).symm ▸ hj, h'.dev, h'.num⟩

theorem Got.still (h : Got dev nr i fs fs') (h' : Still fs' fs'') : Got dev nr i fs fs'' := by
  obtain ⟨hc, hk⟩ := h.coherent.still h'
  have hinode := h'.only.inode
  refine ⟨hc, h.kept.trans hk, fun j => ?_, fun j hj => ?_, ?_, ?_⟩
  · rw [hinode, h.refs j]
  · rw [hinode]
    exact h.inUse j hj
  · rw [hinode, h.dev]
  · rw [hinode, h.num]

theorem Got.inode (h : Got dev nr i fs₀ fs) (hk : Known fs₀ dev nr) :
    (fs.inode i).d = inodeAt fs₀ dev nr := by
  have hdev : (fs.inode i).iDev ≠ 0 := h.dev.symm ▸ hk.dev_ne
  rw [← h.kept.view dev nr hk, ← h.coherent.inodeAt_entry hdev, h.dev, h.num]

theorem search_bit (mode : Nat) :
    (mode &&& MAY_EXEC &&& 0o7 = MAY_EXEC) ↔ mode.testBit 0 = true := by
  rw [show MAY_EXEC = 1 from rfl, Nat.and_one_is_mod, Nat.testBit_zero]
  have h := Nat.mod_two_eq_zero_or_one mode
  cases h with
  | inl h => simp [h]
  | inr h => simp [h]

theorem permission_exec (hdev : (fs.inode i).iDev ≠ 0) : permission i MAY_EXEC fs = true ↔
    (fs.inode i).d.iNlinks ≠ 0 ∧ ((fs.inode i).d.iMode.testBit
      (if fs.euid = (fs.inode i).d.iUid then 6 else if fs.egid = (fs.inode i).d.iGid then 3
        else 0) = true ∨ suser fs) := by
  unfold permission
  by_cases hn : (fs.inode i).d.iNlinks = 0
  · simp only [if_pos (show (fs.inode i).iDev ≠ 0 ∧ (fs.inode i).d.iNlinks = 0 from ⟨hdev, hn⟩)]
    exact iff_of_false (by simp) fun e => e.1 hn
  · simp only [
      if_neg (show ¬ ((fs.inode i).iDev ≠ 0 ∧ (fs.inode i).d.iNlinks = 0) from fun e => hn e.2),
      decide_eq_true_eq, search_bit]
    refine (and_iff_right hn).symm.trans (and_congr .rfl (or_congr ?_ .rfl))
    split
    · rw [Nat.testBit_shiftRight]
    · split
      · rw [Nat.testBit_shiftRight]
      · rfl

theorem searchable_iff (hdev : (fs.inode i).iDev ≠ 0) :
    ¬ (¬ S_ISDIR (fs.inode i).d.iMode ∨ permission i MAY_EXEC fs = false) ↔
    Searchable fs (fs.inode i).d := by
  rw [not_or, not_not, Bool.not_eq_false, permission_exec hdev]
  rfl

theorem WholeDir.indirect_kept (hw : WholeDir fs dev d) (h : Kept fs fs') {z : Nat}
    (hz : IndirectOf fs dev d z) (hne : z ≠ 0) : content fs' dev z = content fs dev z :=
  h.content dev z (hw.indirect z hz hne).2

theorem WholeDir.fileZone_kept (hw : WholeDir fs dev d) (h : Kept fs fs')
    (hn : n < 7 + 512 + 512 * 512) :
    fileZone fs' dev d n = fileZone fs dev d n := by
  unfold fileZone
  by_cases h7 : n < 7
  · simp only [dif_pos h7]
  · simp only [dif_neg h7]
    by_cases hind : n - 7 < 512
    · simp only [if_pos hind]
      by_cases hz : d.iZone 7 = 0
      · simp only [if_pos hz]
      · simp only [if_neg hz, hw.indirect_kept h (.inl rfl) hz]
    · simp only [if_neg hind]
      by_cases hz : d.iZone 8 = 0
      · simp only [if_pos hz]
      · simp only [if_neg hz, hw.indirect_kept h (.inr (.inl rfl)) hz]
        have hk : (n - 7 - 512) / 512 < 512 := by omega
        by_cases hi : (content fs dev (d.iZone 8)).short ((n - 7 - 512) / 512) = 0
        · simp only [if_pos hi]
        · simp only [if_neg hi, hw.indirect_kept h (.inr (.inr ⟨hz, _, hk, rfl⟩)) hi]

theorem WholeDir.entryBlock_kept (hw : WholeDir fs dev d) (h : Kept fs fs') (he : e < entriesIn d) :
    entryBlock fs' dev d e = entryBlock fs dev d e := by
  rw [entryBlock, entryBlock, hw.fileZone_kept h (hw.reach e he)]
  exact h.content _ _ (hw.block e he).2.2

theorem WholeDir.kept (hw : WholeDir fs dev d) (h : Kept fs fs') : WholeDir fs' dev d := by
  refine ⟨hw.reach, fun e he => ?_, fun z hz hne => ?_⟩
  · obtain ⟨hne, hr, hb⟩ := hw.block e he
    rw [hw.fileZone_kept h (hw.reach e he)]
    exact ⟨hne, h.readable hr, fun hb' => hb (h.inodeBlock.mp hb')⟩
  · have hz' : IndirectOf fs dev d z := by
      refine hz.imp_right fun hz => hz.imp_right fun hz => ?_
      obtain ⟨h8, k, hk, hzk⟩ := hz
      refine ⟨h8, k, hk, ?_⟩
      rw [hzk, hw.indirect_kept h (.inr (.inl rfl)) h8]
    obtain ⟨hr, hb⟩ := hw.indirect z hz' hne
    exact ⟨h.readable hr, fun hb' => hb (h.inodeBlock.mp hb')⟩

theorem find?_congr {α : Type} {p q : α → Bool} {l : List α} (h : ∀ a ∈ l, p a = q a) :
    l.find? p = l.find? q := by
  induction l with
  | nil => rfl
  | cons a l ih =>
    rw [List.find?_cons, List.find?_cons, h a List.mem_cons_self,
      ih fun b hb => h b (List.mem_cons_of_mem a hb)]

theorem WholeDir.entryOf_kept (hw : WholeDir fs dev d) (h : Kept fs fs') (name : List Byte) :
    entryOf fs' dev d name = entryOf fs dev d name := by
  unfold entryOf
  split
  · rfl
  · refine find?_congr fun e he => decide_eq_decide.mpr ?_
    rw [Names, Names, entryInode, entryInode, entryName, entryName,
      hw.entryBlock_kept h (List.mem_range.mp he)]

theorem entryOf_lt {fs : FileSystem} (h : entryOf fs dev d name = some e) :
    e < entriesIn d ∧ entryInode fs dev d e ≠ 0 := by
  unfold entryOf at h
  split at h
  · cases h
  · have hnames : Names fs dev d name e := by simpa using List.find?_some h
    exact ⟨List.mem_range.mp (List.mem_of_find?_eq_some h), hnames.1⟩

/-- At the directory that is held, names mean what they meant in the beginning. -/
theorem Got.nameAt (hR : Resolvable fs₀) (h : Got dev nr i fs₀ fs) (name : List Byte) :
    nameAt fs (dev, nr) name = nameAt fs₀ (dev, nr) name := by
  obtain ⟨r, hr, -, hpos⟩ := hR.root
  obtain ⟨hd, hn, -⟩ := h.inUse r hpos
  have hroot : fs.root = fs₀.root := by rw [h.kept.rest]
  simp only [Fs.nameAt, hroot, hr, inodeId, hd, hn]

theorem Got.searchable (h : Got dev nr i fs₀ fs) (d : DInode) :
    Searchable fs d ↔ Searchable fs₀ d := by
  unfold Searchable suser
  rw [h.kept.rest]

theorem Got.iput (h : Got dev nr i fs₀ fs)
    (hlink : 1 < (fs.inode i).iCount ∨ (fs.inode i).d.iNlinks ≠ 0) :
    ∃ fs', Fs.iput i fs = .ok fs' ∧ Back fs₀ fs' := by
  have hpos : (fs.inode i).iCount ≠ 0 := by
    rw [h.refs i, if_pos rfl]
    exact Nat.succ_ne_zero _
  obtain ⟨fs', heq, h'⟩ := (h.coherent.iput hpos (hlink.imp_right .inr)).exists_ok
  exact ⟨fs', heq, h.back h'⟩

def DirReached (fs₀ : FileSystem) (reached : Option (Nat × Nat)) (r : Option InodeIx)
    (fs : FileSystem) : Prop :=
  match reached, r with
  | none, none => Back fs₀ fs
  | some id, some i => Known fs₀ id.1 id.2 ∧ Got id.1 id.2 i fs₀ fs
  | _, _ => False

theorem walk_stops {id : Nat × Nat} (h : ¬ Searchable fs (inodeAt fs id.1 id.2))
    (names : List (List Byte)) :
    walk fs id names = none := by
  cases names with
  | nil => exact if_neg h
  | cons name names => exact if_neg h

/-- The super block holds a reference to the root inode besides that of the walk. -/
theorem Got.ownMount (hR : Resolvable fs₀) (h : Got dev nr i fs₀ fs) (hk : Known fs₀ dev nr) :
    OwnMount i fs := by
  intro sb hnum hsb
  have hdev : (fs.inode i).iDev ≠ 0 := h.dev.symm ▸ hk.dev_ne
  have hsuper : fs.super = fs₀.super := by rw [h.kept.rest]
  obtain ⟨k, rfl, hsdev⟩ := getSuper_some hsb
  rw [hsuper] at hsdev ⊢
  refine (hR.mounted k).imp_right fun ⟨r, hr, hrdev, hrnum, hrpos⟩ => ?_
  obtain ⟨hd, hn, -⟩ := h.inUse r hrpos
  have hsame : (fs.inode r).iDev = (fs.inode i).iDev := hd.trans (hrdev.trans hsdev)
  obtain rfl : r = i :=
    h.coherent.unique r i (hsame ▸ hdev) hsame (hn.trans (hrnum.trans hnum.symm))
  have hcount := h.refs r
  have hfit := hR.counts r
  rw [if_pos rfl] at hcount
  simp only at hcount
  exact ⟨hr, by omega, by omega⟩

theorem Got.step (hR : Resolvable fs₀) (h : Got dev nr i fs₀ fs) (hk : Known fs₀ dev nr)
    (hs : Searchable fs₀ (inodeAt fs₀ dev nr)) (h0 : 0 ∉ name) :
    match lookup fs₀ dev (inodeAt fs₀ dev nr) (Fs.nameAt fs₀ (dev, nr) name) with
    | none => ∃ fs', findEntry i name fs = .ok (none, i, fs') ∧ Got dev nr i fs₀ fs'
    | some nr' => ∃ de fs₁ fs₂ fs₃ j fs₄, findEntry i name fs = .ok (some de, i, fs₁) ∧
        brelse de.bh.1 de.bh.2 fs₁ = .ok fs₂ ∧ Fs.iput i fs₂ = .ok fs₃ ∧
        iget (fs₁.inode i).iDev de.inode fs₃ = .ok (j, fs₄) ∧
        Known fs₀ dev nr' ∧ Got dev nr' j fs₀ fs₄ ∧ (fs₄.inode j).d.iNlinks ≠ 0 := by
  have hd := h.inode hk
  have hdev : (fs.inode i).iDev ≠ 0 := h.dev.symm ▸ hk.dev_ne
  have hwhole := hR.whole dev nr hk hs.1
  have hw : WholeDir fs (fs.inode i).iDev (fs.inode i).d := by
    rw [h.dev, hd]
    exact hwhole.kept h.kept
  obtain ⟨r, fs₁, heq, hend⟩ := findEntry_eq h.coherent hdev (hd ▸ hs.1) (h.ownMount hR hk) h0 hw
  rw [h.dev, h.num, hd, h.nameAt hR, hwhole.entryOf_kept h.kept] at hend
  unfold lookup
  cases hfound : entryOf fs₀ dev (inodeAt fs₀ dev nr) (Fs.nameAt fs₀ (dev, nr) name) with
  | none =>
    rw [hfound] at hend
    cases r with
    | none => exact ⟨fs₁, heq, h.still hend⟩
    | some de => exact hend.elim
  | some e =>
    rw [hfound] at hend
    cases r with
    | none => exact hend.elim
    | some de =>
      obtain ⟨hinode, htaken⟩ := hend
      obtain ⟨he, hne⟩ := entryOf_lt hfound
      obtain ⟨hknown, hlinks⟩ := hR.named dev nr hk hs.1 e he hne
      have hentry : de.inode = entryInode fs₀ dev (inodeAt fs₀ dev nr) e := by
        rw [hinode, entryInode, entryInode, hwhole.entryBlock_kept h.kept he]
      obtain ⟨fs₂, hrel, hstill⟩ := htaken.brelse (h.coherent.counts _ _)
      have h₂ := h.still hstill
      have hnlinks : (fs₂.inode i).d.iNlinks ≠ 0 := by
        rw [h₂.inode hk]
        exact hs.2.1
      obtain ⟨fs₃, hput, hback⟩ := h₂.iput (.inr hnlinks)
      have hfree : ∃ j, (fs₃.inode j).iCount = 0 := by
        obtain ⟨j, hj⟩ := hR.free
        exact ⟨j, (hback.refs j).trans hj⟩
      obtain ⟨j, fs₄, hget, hgot⟩ := hback.coherent.iget (hback.kept.known hknown) hfree
        fun j => hback.refs j ▸ hR.counts j
      have hgot₀ := hback.got hgot
      refine ⟨de, fs₁, fs₂, fs₃, j, fs₄, heq, hrel, hput, ?_, hknown, hgot₀, ?_⟩
      · rw [htaken.only.inode, h.dev, hentry]
        exact hget
      · rw [hgot₀.inode hknown]
        exact hlinks

theorem getDirLoop_walk (hR : Resolvable fs₀) (fuel : Nat) (path : List Byte)
    (hfuel : path.length < fuel) (h : Got dev nr i fs₀ fs) (hk : Known fs₀ dev nr)
    (hlink : 1 < (fs.inode i).iCount ∨ (fs.inode i).d.iNlinks ≠ 0) :
    ∃ r fs', getDirLoop fuel path i fs = .ok (r, fs') ∧
      DirReached fs₀ (walk fs₀ (dev, nr) (pieces path).dropLast) r fs' := by
  induction fuel generalizing path dev nr i fs with
  | zero => exact absurd hfuel (Nat.not_lt_zero _)
  | succ fuel ih =>
    have hd := h.inode hk
    have hdev : (fs.inode i).iDev ≠ 0 := h.dev.symm ▸ hk.dev_ne
    have hsearch := (searchable_iff hdev).trans (h.searchable _)
    rw [hd] at hsearch
    unfold getDirLoop
    by_cases hs : Searchable fs₀ (inodeAt fs₀ dev nr)
    · rw [if_neg (hd ▸ hsearch.mpr hs), pieces_component path]
      cases hrest : (component path).2 with
      | none =>
        refine ⟨some i, fs, ?_, ?_⟩
        · simp only [hrest]
        · simp only [Option.map_none, Option.getD_none, List.dropLast_singleton, walk, if_pos hs]
          exact ⟨hk, h⟩
      | some rest =>
        obtain ⟨p, ps, hp⟩ := List.exists_cons_of_ne_nil (pieces_ne_nil rest)
        have hstep := h.step hR hk hs (component_no_zero path)
        simp only [Option.map_some, Option.getD_some, hp, List.dropLast_cons_cons, walk,
          if_pos hs, hrest]
        cases hl : lookup fs₀ dev (inodeAt fs₀ dev nr)
          (nameAt fs₀ (dev, nr) (component path).1) with
        | none =>
          rw [hl] at hstep
          obtain ⟨fs₁, hfind, h₁⟩ := hstep
          have hlinks : (fs₁.inode i).d.iNlinks ≠ 0 := by
            rw [h₁.inode hk]
            exact hs.2.1
          obtain ⟨fs₂, hput, hback⟩ := h₁.iput (.inr hlinks)
          exact ⟨none, fs₂, bind_eq_ok.mpr ⟨_, hfind, bind_eq_ok.mpr ⟨fs₂, hput, rfl⟩⟩, hback⟩
        | some nr' =>
          rw [hl] at hstep
          obtain ⟨de, fs₁, fs₂, fs₃, j, fs₄, hfind, hrel, hput, hget, hknown, hgot, hlinks⟩ := hstep
          have hshort := component_shorter hrest
          obtain ⟨r, fs₅, hloop, hreach⟩ := ih rest (by omega) hgot hknown (.inr hlinks)
          refine ⟨r, fs₅, bind_eq_ok.mpr
            ⟨_, hfind, bind_eq_ok.mpr ⟨fs₂, hrel, bind_eq_ok.mpr ⟨fs₃, hput,
            bind_eq_ok.mpr ⟨_, hget, hloop⟩⟩⟩⟩, ?_⟩
          rw [hp] at hreach
          exact hreach
    · rw [if_pos (not_not.mp fun e => hs (hsearch.mp (hd ▸ e))), walk_stops hs]
      obtain ⟨fs₁, heq, hback⟩ := h.iput hlink
      exact ⟨none, fs₁, bind_eq_ok.mpr ⟨fs₁, heq, rfl⟩, hback⟩

theorem Coherent.first (hc : Coherent fs) (hfit : (fs.inode i).iCount < 65535) :
    Got (fs.inode i).iDev (fs.inode i).iNum i fs
      (fs.setInode i { fs.inode i with iCount := ((fs.inode i).iCount + 1) % 65536 }) := by
  have h : Counted (· + 1) i fs
    (fs.setInode i { fs.inode i with iCount := ((fs.inode i).iCount + 1) % 65536 }) :=
    hc.setCount (Nat.mod_eq_of_lt (by omega))
  refine ⟨h.coherent, h.kept, h.refs, h.same.inUseKept, ?_, ?_⟩
  · rw [setInode_inode]
  · rw [setInode_inode]

theorem getDirLoop_start (hR : Resolvable fs) {p : InodePtr} (hp : p = .entry i)
    (hdev : (fs.inode i).iDev ≠ 0) (hpos : (fs.inode i).iCount ≠ 0) (path : List Byte) :
    ∃ r fs', getDirLoop (path.length + 1) path i
        (fs.setInode i { fs.inode i with iCount := ((fs.inode i).iCount + 1) % 65536 }) =
          .ok (r, fs') ∧
      DirReached fs ((inodeId fs p).bind fun id => walk fs id (pieces path).dropLast) r fs' := by
  have hgot := hR.coherent.first (hR.counts i)
  obtain ⟨r, fs', heq, hreach⟩ :=
    getDirLoop_walk hR _ path (Nat.lt_succ_self _) hgot (hR.coherent.known i hdev)
    (.inl (by rw [hgot.refs i, if_pos rfl]; change 1 < (fs.inode i).iCount + 1; omega))
  exact ⟨r, fs', heq, hp ▸ hreach⟩

theorem getDir_walk (hR : Resolvable fs) (hpath : text path ≠ []) :
    ∃ r fs', getDir path fs = .ok (r, fs') ∧ DirReached fs (directoryOf fs path) r fs' := by
  obtain ⟨root, hroot, hrdev, hrpos⟩ := hR.root
  obtain ⟨pwd, hpwd, hpdev, hppos⟩ := hR.pwd
  cases path with
  | nil => exact absurd rfl hpath
  | cons c cs =>
    have h0 : c ≠ 0 := fun e => hpath (e ▸ rfl)
    have hur : unused fs.root fs = false := by
      rw [hroot]
      exact decide_eq_false hrpos
    have hup : unused fs.pwd fs = false := by
      rw [hpwd]
      exact decide_eq_false hppos
    rw [getDir_eq, hur, hup]
    by_cases hs : c = slash
    · subst hs
      obtain ⟨p, ps, hp⟩ := List.exists_cons_of_ne_nil (pieces_ne_nil cs)
      have hstart : pathStart fs (slash :: cs) = (inodeId fs fs.root, pieces cs) := by
        rw [pathStart, pieces_component, component_slash, Option.map_some, Option.getD_some, hp]
      rw [directoryOf, hstart]
      have hfirst : startOf (slash :: cs) fs = (.entry root, cs) := by
        rw [startOf, if_pos rfl, hroot]
      rw [hfirst]
      exact getDirLoop_start hR hroot hrdev hrpos cs
    · have hstart : pathStart fs (c :: cs) = (inodeId fs fs.pwd, pieces (c :: cs)) := by
        rw [pathStart, pieces_component, component_cons h0 hs]
      rw [directoryOf, hstart]
      have hfirst : startOf (c :: cs) fs = (.entry pwd, c :: cs) := by
        rw [startOf, if_neg hs, if_neg h0, hpwd]
      rw [hfirst]
      exact getDirLoop_start hR hpwd hpdev hppos (c :: cs)

/-- What `dir_namei` leaves: where the path leads to a directory, that directory with
one reference more, and the text behind the last slash; else everything as it was. -/
def Resolves (path : List Byte) (fs : FileSystem) (r : Option (InodeIx × List Byte))
    (fs' : FileSystem) : Prop :=
  SameCounts fs fs' ∧ InUseKept fs fs' ∧
    match directoryOf fs path, r with
    | none, none => SameRefs fs fs'
    | some (dev, nr), some (i, name) => (fs'.inode i).iDev = dev ∧ (fs'.inode i).iNum = nr ∧
        (fs'.inode i).d = inodeAt fs dev nr ∧ (pieces path).getLast? = some name ∧
          CountsTo (· + 1) i fs fs'
    | _, _ => False

/-- `dir_namei` succeeds exactly where the path leads to a directory, and hands that out. -/
theorem dir_namei_resolves (path : List Byte) (hpath : text path ≠ []) (fs : FileSystem)
    (hR : Resolvable fs) :
    ∃ r fs', dirNamei path fs = .ok (r, fs') ∧ Resolves path fs r fs' := by
  obtain ⟨r, fs', heq, hreach⟩ := getDir_walk hR hpath
  refine ⟨_, fs', bind_eq_ok.mpr ⟨_, heq, rfl⟩, ?_⟩
  unfold DirReached at hreach
  unfold Resolves
  cases hdir : directoryOf fs path with
  | none =>
    rw [hdir] at hreach
    cases r with
    | none => exact ⟨hreach.kept.counts, hreach.inUse, hreach.refs⟩
    | some i => exact hreach.elim
  | some id =>
    rw [hdir] at hreach
    cases r with
    | none => exact hreach.elim
    | some i =>
      obtain ⟨hk, h⟩ := hreach
      exact ⟨h.kept.counts, h.inUse, h.dev, h.num, h.inode hk, pieces_getLast path, h.refs⟩

section SmallTree

/-- Device 1 with the inodes in block 4: the root directory has the single entry `d`,
an empty directory with `links` links. -/
def treeDisk (links dev block : Nat) : Block :=
  let root : DInode := (((DInode.zero.setMode 0o040755).setSize 16).setNlinks 1).setZone 0 5
  let sub : DInode := (DInode.zero.setMode 0o040755).setNlinks links
  if dev = 1 ∧ block = 4 then (Block.setDInode (fun _ => 0) 0 root).setDInode 1 sub
  else if dev = 1 ∧ block = 5 then fun j => if j = 0 then 2 else if j = 2 then 100 else 0
  else fun _ => 0

def rootSuper : SuperBlock := { smallSuper with sImount := .entry 0 }

/-- The root directory is entry 0, with `count` references; `used` of the other entries
hold the inodes that follow, and block `bad` cannot be read. -/
def treeFs (links used count bad : Nat) : FileSystem :=
  { smallFs with
    disk := treeDisk links
    readable := fun _ _ block => block ≠ bad
    super := fun k => if k = 0 then rootSuper else { smallSuper with sDev := 0 }
    inode := fun i =>
      if i = 0 then ⟨(treeDisk links 1 4).dInode 0, 1, 1, count, false, false, false, false⟩
      else if i.val ≤ used then ⟨(treeDisk links 1 4).dInode (Fin.ofNat 32 i.val), 1, i.val + 1, 1,
        false, false, false, false⟩
      else .zero }

/-- The entry `d` names inode 65, whose block cannot be read; there are 32 inodes. -/
def strayFs : FileSystem :=
  { treeFs 1 0 4 6 with
    disk := fun dev block => if block = 5 then (treeDisk 1 dev block).setDirInode 0 65
      else treeDisk 1 dev block }

def staleFs : FileSystem :=
  { treeFs 1 0 4 0 with
    disk := fun dev block => if block = 4 then (treeDisk 1 dev block).setDInode 1
      (DInode.zero.setNlinks 1) else treeDisk 1 dev block
    inode := fun i => if i = 1 then ⟨(treeDisk 1 1 4).dInode 1, 1, 2, 0, false, false, false, false⟩
      else (treeFs 1 0 4 0).inode i }

def entryBytes : DInode := fun j => if j = 0 then 1 else if j = 2 then 120 else 0

/-- The blocks of inodes are 4 and 5, and the directory `d` has block 5 for its entries. All
entries of the table are in use but that of inode 33, which is to be written there. -/
def overlapFs : FileSystem :=
  { treeFs 1 0 4 0 with
    super := fun k => if k = 0 then { rootSuper with sNinodes := 64, sFirstdatazone := 6 }
      else { smallSuper with sDev := 0 }
    disk := fun _ block =>
      if block = 4 then (Block.setDInode (fun _ => 0) 0
        (((treeDisk 1 1 4).dInode 0).setZone 0 6)).setDInode 1
        (((treeDisk 1 1 4).dInode 0).setZone 0 5)
      else if block = 6 then treeDisk 1 1 5 else fun _ => 0
    inode := fun i =>
      if i = 0 then ⟨((treeDisk 1 1 4).dInode 0).setZone 0 6, 1, 1, 4, false, false, false, false⟩
      else if i.val < 31 then ⟨.zero, 1, i.val + 2, 1, false, false, false, false⟩
      else ⟨entryBytes, 1, 33, 0, false, true, false, false⟩ }

def panicOf {α : Type} : Except Panic α → Option Panic
  | .ok _ => none
  | .error e => some e

/-- `d/` leads to inode 2, but is not resolved where all entries of the table are in
use or the inode's block cannot be read; a reference too many is lost; and without a
link inode 2 is deleted on the way. An inode beyond the last one makes `d/` panic instead
of fail; what the table has for inode 2 is gone where the disk does not have it; and
`d/x/` is found where the entry `x` is the bytes of an inode that are written on the way. -/
theorem dir_namei_panics :
    directoryOf (treeFs 1 31 4 0) [100, 47] = some (1, 2) ∧
    panicOf (dirNamei [100, 47] (treeFs 1 31 4 0)) = some .noFreeInodes ∧
    directoryOf (treeFs 1 0 4 4) [100, 47] = some (1, 2) ∧
    panicOf (dirNamei [100, 47] (treeFs 1 0 4 4)) = some .unableToReadBlock ∧
    directoryOf (treeFs 1 0 65535 0) [100] = some (1, 1) ∧
    ((dirNamei [100] (treeFs 1 0 65535 0)).toOption.map fun r => (r.2.inode 0).iCount) = some 0 ∧
    directoryOf (treeFs 0 0 4 0) [100, 47] = none ∧
    panicOf (dirNamei [100, 47] (treeFs 0 0 4 0)) = some .nonexistentImap ∧
    directoryOf strayFs [100, 47] = none ∧
    panicOf (dirNamei [100, 47] strayFs) = some .unableToReadBlock ∧
    directoryOf staleFs [100, 47] = some (1, 2) ∧
    ((dirNamei [100, 47] staleFs).toOption.map fun r => r.1.isSome) = some false ∧
    directoryOf overlapFs [100, 47, 120, 47] = none ∧
    ((dirNamei [100, 47, 120, 47] overlapFs).toOption.map fun r => r.1.isSome) = some true := by
  refine ⟨by decide +kernel,
    by decide +kernel, by decide +kernel, by decide +kernel, by decide +kernel,
    by decide +kernel, by decide +kernel, by decide +kernel, by decide +kernel, by decide +kernel,
    by decide +kernel, by decide +kernel, by decide +kernel, by decide +kernel⟩

def SingleEntry (d : DInode) : Prop :=
  d.iZone 7 = 0 ∧ d.iZone 8 = 0 ∧
    (entriesIn d = 0 ∨ entriesIn d = 1 ∧ d.iZone 0 = 5 ∧ entryInode (treeFs 1 0 4 0) 1 d 0 = 2)

instance (d : DInode) : Decidable (SingleEntry d) :=
  inferInstanceAs (Decidable (_ ∧ _ ∧ (_ ∨ _ ∧ _ ∧ _)))

theorem treeFs_dirs : ∀ nr < 33, nr = 0 ∨ ¬ S_ISDIR (inodeAt (treeFs 1 0 4 0) 1 nr).iMode ∨
    SingleEntry (inodeAt (treeFs 1 0 4 0) 1 nr) := by
  decide +kernel

theorem treeFs_single {nr e : Nat} (hone : 1 ≤ nr) (hlt : nr < 33)
    (hdir : S_ISDIR (inodeAt (treeFs 1 0 4 0) 1 nr).iMode)
    (he : e < entriesIn (inodeAt (treeFs 1 0 4 0) 1 nr)) :
    e = 0 ∧ (inodeAt (treeFs 1 0 4 0) 1 nr).iZone 0 = 5 ∧
      entryInode (treeFs 1 0 4 0) 1 (inodeAt (treeFs 1 0 4 0) 1 nr) 0 = 2 := by
  obtain ⟨-, -, hentries⟩ := ((treeFs_dirs nr hlt).resolve_left (by omega)).resolve_left
    (not_not.mpr hdir)
  obtain ⟨hn, h⟩ := hentries.resolve_left (by omega)
  exact ⟨by omega, h⟩

theorem treeFs_known {dev nr : Nat} (h : Known (treeFs 1 0 4 0) dev nr) :
    dev = 1 ∧ 1 ≤ nr ∧ nr < 33 := by
  obtain ⟨sb, hsb, hone, hlast, -⟩ := h
  have hdev : dev = 1 := by
    by_contra hne
    have hnone : getSuper dev (treeFs 1 0 4 0) = none := by
      unfold getSuper
      split
      · rfl
      · rename_i h0
        refine List.find?_eq_none.mpr fun s hs => ?_
        obtain ⟨k, -, rfl⟩ := List.mem_map.mp hs
        have hk : ∀ k, ((treeFs 1 0 4 0).super k).sDev = 0 ∨
          ((treeFs 1 0 4 0).super k).sDev = 1 := by decide
        cases hk k with
        | inl hk => simpa [hk] using Ne.symm h0
        | inr hk => simpa [hk] using Ne.symm hne
    rw [hnone] at hsb
    cases hsb
  subst hdev
  obtain rfl : rootSuper = sb := Option.some.inj hsb
  exact ⟨rfl, hone, Nat.lt_succ_of_le hlast⟩

theorem dir_namei_resolves_small :
    ∃ r fs', dirNamei [100, 47] (treeFs 1 0 4 0) = .ok (r, fs') ∧
    Resolves [100, 47] (treeFs 1 0 4 0) r fs' := by
  have hread : ∀ block, block ≠ 0 → Readable (treeFs 1 0 4 0) 1 block :=
    fun block hb => .inr fun _ => decide_eq_true hb
  have hsuper : getSuper 1 (treeFs 1 0 4 0) = some rootSuper := rfl
  have hknown : ∀ nr, 1 ≤ nr → nr < 33 → Known (treeFs 1 0 4 0) 1 nr := fun nr hone hlt =>
    ⟨rootSuper, hsuper, hone, Nat.le_of_lt_succ hlt,
      by omega, by decide, hread _ (by simp [inodeBlock])⟩
  have hblock : ¬ InodeBlock (treeFs 1 0 4 0) 1 5 := by
    rintro ⟨sb, nr, hsb, hone, hlast, hb⟩
    obtain rfl : rootSuper = sb := Option.some.inj hsb
    have hlast : nr ≤ 32 := hlast
    simp only [inodeBlock, rootSuper, smallSuper, INODES_PER_BLOCK] at hb
    omega
  have honly : ∀ i, ((treeFs 1 0 4 0).inode i).iDev ≠ 0 → i = 0 := by decide
  have hcoherent : Coherent (treeFs 1 0 4 0) := by
    refine ⟨by decide, by decide, by decide, fun i j hi hd _ => ?_, fun i hi => ?_,
      fun i hi _ => ?_, by decide, fun _ _ => Nat.zero_lt_succ 254, fun _ _ _ h => by cases h⟩
    · rw [honly i hi, honly j (hd ▸ hi)]
    · obtain rfl := honly i hi
      exact hknown 1 (by decide) (by decide)
    · obtain rfl := honly i hi
      rfl
  have hmounted : ∀ k, ((treeFs 1 0 4 0).super k).sImount = .null ∨
    ∃ r, ((treeFs 1 0 4 0).super k).sImount = .entry r ∧
      ((treeFs 1 0 4 0).inode r).iDev = ((treeFs 1 0 4 0).super k).sDev ∧
        ((treeFs 1 0 4 0).inode r).iNum = ROOT_INO ∧
      ((treeFs 1 0 4 0).inode r).iCount ≠ 0 := by
    intro k
    by_cases hk : k = 0
    · exact hk ▸ .inr ⟨0, rfl, by decide⟩
    · exact .inl (by simp [treeFs, hk, smallSuper])
  refine dir_namei_resolves [100, 47] (by decide) (treeFs 1 0 4 0)
    ⟨hcoherent, ⟨1, by decide⟩, by decide, hmounted,
    ⟨0, rfl, by decide⟩, ⟨0, rfl, by decide⟩, fun dev nr hk hdir => ?_,
      fun dev nr hk hdir e he _ => ?_⟩
  · obtain ⟨rfl, hone, hlt⟩ := treeFs_known hk
    obtain ⟨h7, h8, -⟩ := ((treeFs_dirs nr hlt).resolve_left (by omega)).resolve_left
      (not_not.mpr hdir)
    refine ⟨fun e he => ?_, fun e he => ?_, fun z hz hne => absurd ?_ hne⟩
    · rw [(treeFs_single hone hlt hdir he).1]
      decide
    · obtain ⟨rfl, hzone, -⟩ := treeFs_single hone hlt hdir he
      rw [show fileZone (treeFs 1 0 4 0) 1 (inodeAt (treeFs 1 0 4 0) 1 nr) (0 / 64) = 5 from hzone]
      exact ⟨by decide, hread 5 (by decide), hblock⟩
    · cases hz with
      | inl hz => exact hz.trans h7
      | inr hz =>
        cases hz with
        | inl hz => exact hz.trans h8
        | inr hz => exact absurd h8 hz.1
  · obtain ⟨rfl, hone, hlt⟩ := treeFs_known hk
    obtain ⟨rfl, -, hentry⟩ := treeFs_single hone hlt hdir he
    rw [hentry]
    exact ⟨hknown 2 (by decide) (by decide), by decide +kernel⟩

end SmallTree

end Hios.Fs
