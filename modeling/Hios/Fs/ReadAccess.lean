import Hios.Fs.InodeHolds

/-! Who may read: what `sys_open` has checked of a file when `sys_read` returns bytes of it. -/
namespace Hios.Fs
open Hios.Outcome Hios.Run
variable {fs fs' : FileSystem} {i dir : InodeIx} {flag : Nat} {path : List Byte}
  {inode uninit : InodePtr}

def O_RDONLY : Nat := 0o0
def O_RDWR : Nat := 0o2

def GrantsRead (fs : FileSystem) (m : MInode) : Prop :=
  (if fs.euid = m.d.iUid then m.d.iMode >>> 6
    else if fs.egid = m.d.iGid then m.d.iMode >>> 3
    else m.d.iMode) &&& 0o4 ≠ 0

def ForReading (flag : Nat) : Prop := flag &&& O_ACCMODE = O_RDONLY ∨ flag &&& O_ACCMODE = O_RDWR

instance (fs : FileSystem) (m : MInode) : Decidable (GrantsRead fs m) :=
  inferInstanceAs (Decidable (_ ≠ _))
instance (flag : Nat) : Decidable (ForReading flag) := inferInstanceAs (Decidable (_ ∨ _))

/-- The inode that `open_namei` comes to by a path, in the state it comes to it: where the path
ends in a slash, the directory. -/
def namedInode (path : List Byte) (fs : FileSystem) : Except Panic (Option InodeIx × FileSystem) :=
  do
  let (r, fs) ← dirNamei path fs
  match r with
  | none => return (none, fs)
  | some (dir, basename) =>
    if basename = [] then return (some dir, fs)
    else
      let (de, dir, fs) ← findEntry dir basename fs
      match de with
      | none => return (none, fs)
      | some de =>
        let dev := (fs.inode dir).iDev
        let fs ← brelse de.bh.1 de.bh.2 fs
        let fs ← iput dir fs
        let (i, fs) ← iget dev de.inode fs
        return (some i, fs)

def Accepts (path : List Byte) (flag : Nat) (i : InodeIx) (fs : FileSystem) : Prop :=
  if baseName path = [] then nameiFlag flag &&& (O_ACCMODE ||| O_CREAT ||| O_TRUNC) = 0
  else nameiFlag flag &&& O_EXCL = 0 ∧ ¬ refused flag i fs

/-- How `open_namei` ends: with nothing kept, or with a reference to the inode the path names,
which is stored through `res_inode` only if the path ends in a slash. -/
def OpensNamed (path : List Byte) (flag : Nat) (fs : FileSystem)
    (r : Int × Option InodePtr × FileSystem) : Prop :=
  r.1 < 0 ∧ Shifted [] [] fs r.2.2 ∨
    ∃ i, namedInode path fs = .ok (some i, r.2.2) ∧ Accepts path flag i r.2.2 ∧
      Shifted [] [i] fs r.2.2 ∧
      r.1 = 0 ∧ r.2.1 = if baseName path = [] then some (.entry i) else none

theorem openFound_named {de : DirEntry} {fs₀ : FileSystem} (hs : Sane fs₀)
    (h : Shifted [] [dir] fs₀ fs) {r : Int × Option InodePtr × FileSystem}
    (hr : openFound dir de (nameiFlag flag) fs = .ok r) :
    r.1 < 0 ∧ Shifted [] [] fs₀ r.2.2 ∨
      ∃ i fs₁ fs₂, brelse de.bh.1 de.bh.2 fs = .ok fs₁ ∧ iput dir fs₁ = .ok fs₂ ∧
        iget (fs.inode dir).iDev de.inode fs₂ = .ok (i, r.2.2) ∧ nameiFlag flag &&& O_EXCL = 0 ∧
        ¬ refused flag i r.2.2 ∧ Shifted [] [i] fs₀ r.2.2 ∧ r.1 = 0 ∧ r.2.1 = none := by
  obtain ⟨fs₁, hrel, hr⟩ := bind_eq_ok.mp hr
  obtain ⟨fs₂, hput, hr⟩ := bind_eq_ok.mp hr
  have h₁ : Shifted [] [dir] fs₀ fs₁ := h.unmoved ((brelse_only _ _ fs).of_ok hrel).unmoved
  have h₂ : Shifted [] [] fs₀ fs₂ := h₁.trans ((iput_shifted dir [] fs₁).of_ok hput)
  by_cases hexcl : nameiFlag flag &&& O_EXCL = 0
  · rw [if_neg (not_not.mpr hexcl)] at hr
    obtain ⟨⟨i, fs₃⟩, hget, hr⟩ := bind_eq_ok.mp hr
    have h₃ : Shifted [] [i] fs₀ fs₃ := (iget_shifted hs _ _ h₂).of_ok hget
    dsimp only at hr
    split at hr
    · obtain ⟨fs₄, hput', hr⟩ := bind_eq_ok.mp hr
      obtain rfl := Except.ok.inj hr
      exact .inl ⟨(by decide : -EPERM < 0), h₃.trans ((iput_shifted i [] fs₃).of_ok hput')⟩
    · rename_i href
      obtain rfl := Except.ok.inj hr
      exact .inr ⟨i, fs₁, fs₂, hrel, hput, hget, hexcl, href, h₃, rfl, rfl⟩
  · rw [if_pos hexcl] at hr
    obtain rfl := Except.ok.inj hr
    exact .inl ⟨(by decide : -EEXIST < 0), h₂⟩

theorem createEntry_named {fs₀ : FileSystem} {basename : List Byte} {mode : Nat}
    (h : Shifted [] [dir] fs₀ fs)
    (huninit : nameiFlag flag &&& O_CREAT ≠ 0 → ∀ j, uninit ≠ .entry j)
    {r : Int × Option InodePtr × FileSystem}
    (hr : createEntry dir basename (nameiFlag flag) mode uninit fs = .ok r) :
    r.1 < 0 ∧ Shifted [] [] fs₀ r.2.2 := by
  have hput : ∀ e : Int, e < 0 → (do return (e, none, ← iput dir fs)) = Except.ok r → r.1 < 0 ∧
      Shifted [] [] fs₀ r.2.2 := by
    intro e he hr
    obtain ⟨fs₁, hput, hr⟩ := bind_eq_ok.mp hr
    obtain rfl := Except.ok.inj hr
    exact ⟨he, h.trans ((iput_shifted dir [] fs).of_ok hput)⟩
  unfold createEntry at hr
  split at hr
  · exact hput _ (by decide) hr
  · rename_i hcreat
    split at hr
    · exact hput _ (by decide) hr
    · cases uninit with
      | null => exact hput _ (by decide) hr
      | wild => cases hr
      | entry j => exact absurd rfl (huninit hcreat j)

theorem openNamei_named (hs : Sane fs) (mode : Nat)
    (huninit : nameiFlag flag &&& O_CREAT ≠ 0 → ∀ j, uninit ≠ .entry j) :
    IfReturns (OpensNamed path flag fs) (openNamei path flag mode uninit fs) := by
  refine ifReturns_iff.mpr fun r hr => ?_
  unfold openNamei at hr
  change (dirNamei path fs >>= _) = _ at hr
  obtain ⟨⟨d, fs₁⟩, hnamei, hr⟩ := bind_eq_ok.mp hr
  obtain ⟨⟨dir, fs₁⟩, hget, hdir⟩ := bind_eq_ok.mp hnamei
  obtain ⟨rfl, rfl⟩ := Prod.mk.inj (Except.ok.inj hdir)
  have h₁ : EndsAt fs (dir, fs₁) := (getDir_shifted hs path).of_ok hget
  cases dir with
  | none =>
    obtain rfl := Except.ok.inj hr
    exact .inl ⟨(by decide : -ENOENT < 0), h₁⟩
  | some dir =>
    have h₁ : Shifted [] [dir] fs fs₁ := h₁
    simp only [Option.map_some] at hr hnamei
    by_cases hname : baseName path = []
    · rw [if_pos hname] at hr
      by_cases hflag : nameiFlag flag &&& (O_ACCMODE ||| O_CREAT ||| O_TRUNC) = 0
      · rw [if_pos hflag] at hr
        obtain rfl := Except.ok.inj hr
        refine .inr ⟨dir, ?_, ?_, h₁, rfl, (if_pos hname).symm⟩
        · rw [namedInode, hnamei]
          exact if_pos hname
        · rw [Accepts, if_pos hname]
          exact hflag
      · rw [if_neg hflag] at hr
        obtain ⟨fs₂, hput, hr⟩ := bind_eq_ok.mp hr
        obtain rfl := Except.ok.inj hr
        exact .inl ⟨(by decide : -EISDIR < 0), h₁.trans ((iput_shifted dir [] fs₁).of_ok hput)⟩
    · rw [if_neg hname] at hr
      obtain ⟨⟨de, dir', fs₂⟩, hentry, hr⟩ := bind_eq_ok.mp hr
      have h₂ : Shifted [] [dir'] fs fs₂ := (findEntry_shifted hs _ h₁).of_ok hentry
      cases de with
      | none => exact .inl (createEntry_named h₂ huninit hr)
      | some de =>
        cases openFound_named hs h₂ hr with
        | inl h => exact .inl h
        | inr h =>
          obtain ⟨i, fs₃, fs₄, hrel, hput, higet, hexcl, href, h₅, hzero, hnone⟩ := h
          refine .inr ⟨i, ?_, ?_, h₅, hzero, hnone.trans (if_neg hname).symm⟩
          · rw [namedInode, hnamei]
            refine (if_neg hname).trans ?_
            refine bind_eq_ok.mpr ⟨_, hentry, ?_⟩
            refine bind_eq_ok.mpr ⟨fs₃, hrel, ?_⟩
            refine bind_eq_ok.mpr ⟨fs₄, hput, ?_⟩
            exact bind_eq_ok.mpr ⟨_, higet, rfl⟩
          · rw [Accepts, if_neg hname]
            exact ⟨hexcl, href⟩

/-- `sys_open` up to `open_namei`: with a descriptor and a file reserved. -/
def reserved (fs : FileSystem) : FileSystem :=
  fs.withFiles (openReserve (descriptorsOf fs) fs.file).2.1
    (openReserve (descriptorsOf fs) fs.file).2.2

def Unchecked (path : List Byte) (flag : Nat) : Prop :=
  baseName path = [] ∨ flag &&& O_TRUNC ≠ 0 ∧ flag &&& O_ACCMODE = 0

/-- A `sys_open` that does no harm: the uninitialised locals are as if they had been set, and an
inode that goes unchecked may be read. -/
structure CarefulOpen (path : List Byte) (flag : Nat) (inode uninit : InodePtr) (fs : FileSystem) :
  Prop where
  create : nameiFlag flag &&& O_CREAT ≠ 0 → ∀ j, uninit ≠ .entry j
  named : ∀ i fs', namedInode path (reserved fs) = .ok (some i, fs') → Accepts path flag i fs' →
    (baseName path ≠ [] → inode = .entry i) ∧ (Unchecked path flag → GrantsRead fs' (fs'.inode i))

theorem grantsRead_of_permission (hsuper : ¬ suser fs) (hread : ForReading flag)
    (hwrite : ¬ (flag &&& O_TRUNC ≠ 0 ∧ flag &&& O_ACCMODE = 0))
    (h : permission i (ACC_MODE (nameiFlag flag)) fs = true) : GrantsRead fs (fs.inode i) := by
  have hflag : nameiFlag flag = flag := if_neg hwrite
  have hmask : ACC_MODE flag &&& 0o7 &&& 0o4 = 0o4 ∧ ACC_MODE flag &&& 0o4 = 0o4 := by
    cases hread with
    | inl h =>
      have hmode : ACC_MODE flag = 0o4 := by rw [ACC_MODE, h]; rfl
      rw [hmode]
      decide
    | inr h =>
      have hmode : ACC_MODE flag = 0o6 := by rw [ACC_MODE, h]; rfl
      rw [hmode]
      decide
  rw [hflag, permission] at h
  simp only at h
  split at h
  · cases h
  · have hbits := (of_decide_eq_true h).resolve_right hsuper
    unfold GrantsRead
    generalize (if fs.euid = (fs.inode i).d.iUid then (fs.inode i).d.iMode >>> 6
      else if fs.egid = (fs.inode i).d.iGid then (fs.inode i).d.iMode >>> 3
      else (fs.inode i).d.iMode) = mode at hbits ⊢
    have hbit : mode &&& 0o4 = 0o4 := calc
      mode &&& 0o4 = mode &&& (ACC_MODE flag &&& 0o7 &&& 0o4) := by rw [hmask.1]
      _ = (mode &&& ACC_MODE flag &&& 0o7) &&& 0o4 := by simp only [Nat.and_assoc]
      _ = 0o4 := by rw [hbits, hmask.2]
    rw [hbit]
    decide

/-- What a system call leaves of the inodes in use, `l` being the references it adds. -/
structure Lasting (l : List InodeIx) (fs fs' : FileSystem) : Prop where
  euid : fs'.euid = fs.euid
  super : fs'.super = fs.super
  count : ∀ j, (fs'.inode j).iCount = (fs.inode j).iCount + l.count j
  inode : ∀ j, 0 < (fs.inode j).iCount →
    (fs'.inode j).iDev = (fs.inode j).iDev ∧ (fs'.inode j).iNum = (fs.inode j).iNum
  mount : ∀ j, (fs'.inode j).iMount = true → (fs.inode j).iMount = true

theorem Shifted.lasting {l : List InodeIx} (h : Shifted [] l fs fs') : Lasting l fs fs' :=
  ⟨by rw [h.only], by rw [h.only], h.balanced, h.inode, h.mount⟩

theorem Sane.reserved (hs : Sane fs) : Sane (reserved fs) := ⟨hs.room, hs.mounts⟩

structure SameFiles (fs fs' : FileSystem) : Prop where
  filp : fs'.filp = fs.filp
  fInode : ∀ g, (fs'.file g).fInode = (fs.file g).fInode
  fFlags : ∀ g, (fs'.file g).fFlags = (fs.file g).fFlags

structure OpenedAs (fd : Fin NR_OPEN) (f : Fin NR_FILE) (i : InodeIx) (flag : Nat)
  (fs fs' : FileSystem) : Prop where
  free : fs.filp fd = none
  filp : fs'.filp = Function.update fs.filp fd (some f)
  fInode : (fs'.file f).fInode = .entry i
  fFlags : (fs'.file f).fFlags = flag % 65536
  other : ∀ g, g ≠ f → (fs'.file g).fInode = (fs.file g).fInode ∧
    (fs'.file g).fFlags = (fs.file g).fFlags
  lasting : Lasting [i] fs fs'
  grants : ForReading flag → GrantsRead fs' (fs'.inode i)

theorem openReserve_some {fd : Fin NR_OPEN} {f : Fin NR_FILE} {d d' : Descriptors}
    {table table' : FileTable} (h : openReserve d table = (some (fd, f), d', table')) :
    d.filp fd = none ∧ d'.filp = Function.update d.filp fd (some f) ∧
    table' = incCount table f := by
  unfold openReserve at h
  cases hfd : lowestFd d 0 with
  | none =>
    rw [hfd] at h
    cases h
  | some fd' =>
    simp only [hfd] at h
    cases hf : lowestFile table with
    | none =>
      rw [hf] at h
      cases h
    | some f' =>
      rw [hf] at h
      cases h
      exact ⟨lowestFd_free hfd, rfl, rfl⟩

theorem openReserve_none {d d' : Descriptors} {table table' : FileTable}
    (h : openReserve d table = (none, d', table')) :
    d'.filp = d.filp ∧ table' = table := by
  unfold openReserve at h
  cases hfd : lowestFd d 0 with
  | none =>
    rw [hfd] at h
    cases h
    exact ⟨rfl, rfl⟩
  | some fd' =>
    simp only [hfd] at h
    cases hf : lowestFile table with
    | none =>
      rw [hf] at h
      cases h
      exact ⟨rfl, rfl⟩
    | some f' =>
      rw [hf] at h
      cases h

/-- An inode that is accepted, and that may be read where it goes unchecked. -/
theorem Accepts.grants (h : Accepts path flag i fs) (hsuper : ¬ suser fs) (hread : ForReading flag)
    (hcare : Unchecked path flag → GrantsRead fs (fs.inode i)) : GrantsRead fs (fs.inode i) := by
  by_cases hunchecked : Unchecked path flag
  · exact hcare hunchecked
  obtain ⟨hname, hwrite⟩ := not_or.mp hunchecked
  rw [Accepts, if_neg hname] at h
  refine grantsRead_of_permission hsuper hread hwrite ?_
  exact Bool.not_eq_false _ ▸ fun hno => h.2 (.inr hno)

theorem Lasting.of_eq {l : List InodeIx} {fs₀ fs₁ : FileSystem} (h : Lasting l fs₀ fs₁)
    (heuid : fs₀.euid = fs.euid) (hsuper : fs₀.super = fs.super) (hinode : fs₀.inode = fs.inode)
    (heuid' : fs'.euid = fs₁.euid) (hsuper' : fs'.super = fs₁.super)
    (hinode' : fs'.inode = fs₁.inode) : Lasting l fs fs' := by
  refine ⟨heuid'.trans (h.euid.trans heuid), hsuper'.trans (h.super.trans hsuper), ?_, ?_, ?_⟩
  · rw [hinode', ← hinode]
    exact h.count
  · rw [hinode', ← hinode]
    exact h.inode
  · rw [hinode', ← hinode]
    exact h.mount

section Finish
variable {fd : Fin NR_OPEN} {f : Fin NR_FILE} {d : Descriptors} {fs₁ : FileSystem}

theorem openFinish_back (hfree : fs.filp fd = none)
    (hfilp : d.filp = Function.update fs.filp fd (some f))
    (h : OnlyInodes (fs.withFiles d (incCount fs.file f)) fs₁) {e : OpenEnd}
    (he : e = .failed ∨ ∃ p, e = .noTerminal p) :
    SameFiles fs (fs₁.openFinish fd f e) := by
  have hends : (fs₁.openFinish fd f e).filp = Function.update fs₁.filp fd none ∧
      (fs₁.openFinish fd f e).file = setCount fs₁.file f 0 := by
    cases he with
    | inl he =>
      subst he
      exact ⟨rfl, rfl⟩
    | inr he =>
      obtain ⟨p, rfl⟩ := he
      exact ⟨rfl, rfl⟩
  have hfile : fs₁.file = incCount fs.file f := by rw [h]; rfl
  have hfilp₁ : fs₁.filp = d.filp := by rw [h]; rfl
  have hentry : ∀ g, ∃ n, (fs₁.openFinish fd f e).file g = { fs.file g with fCount := n } := by
    intro g
    rw [hends.2, hfile]
    by_cases hg : g = f
    · exact ⟨0, by simp [setCount, incCount, hg]⟩
    · exact ⟨(fs.file g).fCount, by simp [setCount, incCount, hg]⟩
  refine ⟨?_, fun g => ?_, fun g => ?_⟩
  · rw [hends.1, hfilp₁, hfilp, Function.update_idem, ← hfree]
    exact Function.update_eq_self ..
  · obtain ⟨n, hg⟩ := hentry g
    rw [hg]
  · obtain ⟨n, hg⟩ := hentry g
    rw [hg]

theorem openFinish_opened (hfree : fs.filp fd = none)
    (hfilp : d.filp = Function.update fs.filp fd (some f))
    (h : Shifted [] [i] (fs.withFiles d (incCount fs.file f)) fs₁)
    (hgrants : ForReading flag → GrantsRead fs₁ (fs₁.inode i)) (tty : Int) (ttyPgrp : Nat → Int)
    (iMode : Nat) :
    OpenedAs fd f i flag fs
      ({ fs₁ with tty, ttyPgrp }.openFinish fd f (.opened (.entry i) iMode flag)) := by
  have hfile : ∀ g, ({ fs₁ with tty, ttyPgrp }.openFinish fd f (.opened (.entry i) iMode flag)).file
    g =
      if g = f then ⟨iMode, flag % 65536, 1, .entry i, 0⟩ else fs₁.file g :=
        fun g => Function.update_apply ..
  have hother : fs₁.file = incCount fs.file f := by rw [h.only]; rfl
  refine ⟨hfree, ?_, ?_, ?_, fun g hg => ?_, h.lasting.of_eq rfl rfl rfl rfl rfl rfl, hgrants⟩
  · change fs₁.filp = _
    rw [h.only]
    exact hfilp
  · rw [hfile, if_pos rfl]
  · rw [hfile, if_pos rfl]
  · rw [hfile, if_neg hg, hother, incCount, setCount, Function.update_of_ne hg]
    exact ⟨rfl, rfl⟩

end Finish

/-- A `sys_open` fails and leaves everything, or opens an inode that may be read if the file is
open for reading. -/
theorem sysOpen_ends {mode : Nat} {r : Int} (hs : Sane fs) (hsuper : ¬ suser fs)
    (hcare : CarefulOpen path flag inode uninit fs)
    (hr : sysOpen path flag mode inode uninit fs = .ok (r, fs')) :
    r < 0 ∧ SameFiles fs fs' ∧ Lasting [] fs fs' ∨ ∃ fd f i, r = fd.val ∧
    OpenedAs fd f i flag fs fs' := by
  have hnamei : ∀ mode, IfReturns (OpensNamed path flag (reserved fs))
    (openNamei path flag mode uninit (reserved fs)) :=
    fun mode => openNamei_named hs.reserved mode hcare.create
  have hnamed := hcare.named
  rw [sysOpen_eq] at hr
  unfold reserved at hnamei hnamed
  generalize hres : openReserve (descriptorsOf fs) fs.file = res at hr hnamei hnamed
  obtain ⟨res, d, table⟩ := res
  simp only at hr hnamei hnamed
  cases res with
  | none =>
    obtain ⟨hfilp, rfl⟩ := openReserve_none hres
    obtain ⟨rfl, rfl⟩ := Prod.mk.inj (Except.ok.inj hr)
    refine .inl ⟨by decide, ⟨hfilp, fun _ => rfl, fun _ => rfl⟩, ?_⟩
    exact ⟨rfl, rfl, fun _ => rfl, fun _ _ => ⟨rfl, rfl⟩, fun _ => id⟩
  | some res =>
    obtain ⟨fd, f⟩ := res
    obtain ⟨hfree, hfilp, rfl⟩ := openReserve_some hres
    obtain ⟨⟨err, stored, fs₁⟩, hopen, hr⟩ := bind_eq_ok.mp hr
    simp only at hr
    cases (hnamei _).of_ok hopen with
    | inl hends =>
      obtain ⟨hneg, hshift⟩ := hends
      simp only at hneg hshift
      rw [if_pos hneg] at hr
      obtain ⟨rfl, rfl⟩ := Prod.mk.inj (Except.ok.inj hr)
      exact .inl ⟨hneg, openFinish_back hfree hfilp hshift.only (.inl rfl),
        hshift.lasting.of_eq rfl rfl rfl rfl rfl rfl⟩
    | inr hends =>
      obtain ⟨i, hname, haccepts, hshift, hzero, hstored⟩ := hends
      simp only at hname haccepts hshift hzero hstored
      obtain ⟨hinode, hgrants⟩ := hnamed i fs₁ hname haccepts
      have hentry : stored.getD inode = .entry i := by
        rw [hstored]
        split
        · rfl
        · rename_i hname
          exact hinode hname
      rw [if_neg (by omega)] at hr
      simp only [hentry] at hr
      cases openInode_eq hr with
      | inl h =>
        obtain ⟨rfl, tty, ttyPgrp, rfl⟩ := h
        have hsuper₁ : ¬ suser fs₁ := by
          rw [suser, hshift.lasting.euid]
          exact hsuper
        exact .inr ⟨fd, f, i, rfl,
          openFinish_opened hfree hfilp hshift (fun hread => haccepts.grants hsuper₁ hread hgrants)
          tty ttyPgrp _⟩
      | inr h =>
        obtain ⟨rfl, fs₂, hput, rfl⟩ := h
        have hshift₂ := hshift.trans ((iput_shifted i [] fs₁).of_ok hput)
        exact .inl ⟨by decide, openFinish_back hfree hfilp hshift₂.only (.inr ⟨_, rfl⟩),
          hshift₂.lasting.of_eq rfl rfl rfl rfl rfl rfl⟩

/-- `sys_read` leaves everything but the cache and the position of the file. -/
theorem sysRead_keeps {fd : Nat} {count : Int} {r : Int × List Byte × FileSystem}
    (hr : sysRead fd count fs = .ok r) :
    SameFiles fs r.2.2 ∧ Lasting [] fs r.2.2 := by
  have hstay : SameFiles fs fs ∧ Lasting [] fs fs :=
    ⟨⟨rfl, fun _ => rfl, fun _ => rfl⟩, rfl, rfl, fun _ => rfl, fun _ _ => ⟨rfl, rfl⟩, fun _ => id⟩
  have hread : ∀ (i : InodeIx) (filp : Fin NR_FILE) (n : Int), fileRead i filp n fs = .ok r →
      SameFiles fs r.2.2 ∧ Lasting [] fs r.2.2 := by
    intro i filp n hr
    unfold fileRead at hr
    split at hr
    · obtain rfl := Except.ok.inj hr
      exact hstay
    · obtain ⟨⟨out, pos, fs₁⟩, hloop, hr⟩ := bind_eq_ok.mp hr
      obtain rfl := Except.ok.inj hr
      have honly : OnlyBuffers fs fs₁ := (fileReadLoop_only ..).of_ok hloop
      have hfile : fs₁.file = fs.file := by rw [honly]
      have hl : Lasting [] fs fs₁ :=
        ⟨by rw [honly], by rw [honly], fun j => by rw [honly.inode]; rfl,
        fun j _ => by rw [honly.inode]; exact ⟨rfl, rfl⟩, fun j hj => by rwa [honly.inode] at hj⟩
      refine ⟨⟨by rw [honly]; rfl, fun g => ?_, fun g => ?_⟩, hl.of_eq rfl rfl rfl rfl rfl rfl⟩
      · change (Function.update fs₁.file filp _ g).fInode = _
        by_cases hg : g = filp
        · rw [hg, Function.update_self, hfile]
        · rw [Function.update_of_ne hg, hfile]
      · change (Function.update fs₁.file filp _ g).fFlags = _
        by_cases hg : g = filp
        · rw [hg, Function.update_self, hfile]
        · rw [Function.update_of_ne hg, hfile]
  have hnone : ∀ e : Int, Except.ok (e, [], fs) = (Except.ok r : Except Panic _) →
      SameFiles fs r.2.2 ∧ Lasting [] fs r.2.2 := by
    intro e hr
    obtain rfl := Except.ok.inj hr
    exact hstay
  unfold sysRead sysReadWith at hr
  split at hr
  · split at hr
    · exact hnone _ hr
    · split at hr
      · cases hr
      · cases hr
      · dsimp only at hr
        split at hr
        · split at hr
          · split at hr
            · exact hnone _ hr
            · exact hread _ _ _ hr
          · split at hr
            · exact hnone _ hr
            · exact hread _ _ _ hr
        · exact hnone _ hr
  · exact hnone _ hr

theorem sysDup_shares (fildes : Nat) (fs : FileSystem) :
    ((sysDup fildes fs).2 = fs ∨ ∃ fd arg f, fs.filp fd = some f ∧ fs.filp arg = none ∧
      (sysDup fildes fs).2.filp = Function.update fs.filp arg (some f)) ∧
    (∀ g, ((sysDup fildes fs).2.file g).fInode = (fs.file g).fInode ∧
      ((sysDup fildes fs).2.file g).fFlags = (fs.file g).fFlags) ∧
      Lasting [] fs (sysDup fildes fs).2 := by
  have hstay : Lasting [] fs fs := ⟨rfl, rfl, fun _ => rfl, fun _ _ => ⟨rfl, rfl⟩, fun _ => id⟩
  unfold sysDup
  split
  · rename_i hfd
    cases hf : fs.filp ⟨fildes, hfd⟩ with
    | none => exact ⟨.inl rfl, fun _ => ⟨rfl, rfl⟩, hstay⟩
    | some f =>
      cases harg : freeFd fs with
      | none => exact ⟨.inl rfl, fun _ => ⟨rfl, rfl⟩, hstay⟩
      | some arg =>
        have hfree : fs.filp arg = none := by simpa [freeFd] using List.find?_some harg
        refine ⟨.inr ⟨_, arg, f, hf, hfree, rfl⟩, fun g => ?_, hstay.of_eq rfl rfl rfl rfl rfl rfl⟩
        change (Function.update fs.file f _ g).fInode = _ ∧
          (Function.update fs.file f _ g).fFlags = _
        by_cases hg : g = f
        · rw [hg, Function.update_self]
          exact ⟨rfl, rfl⟩
        · rw [Function.update_of_ne hg]
          exact ⟨rfl, rfl⟩
  · exact ⟨.inl rfl, fun _ => ⟨rfl, rfl⟩, hstay⟩

/-- A process and, for each file it has opened, the state then and the flags. -/
structure Reader where
  fs : FileSystem
  opened : Fin NR_FILE → Option (FileSystem × Nat)

inductive ReaderAct where
  /-- `inode` and `uninit` are the values of the uninitialised locals. -/
  | openFile (path : List Byte) (flag mode : Nat) (inode uninit : InodePtr)
  | dup (fildes : Nat)
  | read (fd : Nat) (count : Int)

def descriptor (fs : FileSystem) (fd : Nat) : Option (Fin NR_FILE) :=
  if h : fd < NR_OPEN then fs.filp ⟨fd, h⟩ else none

def Reader.opens (s : Reader) (flag : Nat) (r : Int) (fs : FileSystem) : Reader :=
  match (if 0 ≤ r then descriptor fs r.toNat else none) with
  | none => { s with fs := fs }
  | some f => ⟨fs, Function.update s.opened f (some (fs, flag))⟩

/-- `none` is a panic. -/
def readerStep (s : Reader) : ReaderAct → Option Reader
  | .openFile path flag mode inode uninit =>
    (sysOpen path flag mode inode uninit s.fs).toOption.map fun r => s.opens flag r.1 r.2
  | .dup fildes => some { s with fs := (sysDup fildes s.fs).2 }
  | .read fd count => (sysRead fd count s.fs).toOption.map fun r => { s with fs := r.2.2 }

/-- The entry of the file's inode held the same inode when the file was opened for reading, and its
mode granted read permission to the process. -/
def OpenedToRead (s : Reader) (f : Fin NR_FILE) : Prop :=
  ∃ i fs flag, (s.fs.file f).fInode = .entry i ∧ s.opened f = some (fs, flag) ∧
    (fs.inode i).iDev = (s.fs.inode i).iDev ∧ (fs.inode i).iNum = (s.fs.inode i).iNum ∧
    GrantsRead fs (fs.inode i) ∧ ForReading flag

/-- `sys_read` returns bytes only through a descriptor whose file was opened to be read. -/
def ReadAllowed (s : Reader) : ReaderAct → Prop
  | .read fd count => ∀ r out fs', sysRead fd count s.fs = .ok (r, out, fs') → out ≠ [] →
      ∃ f, descriptor s.fs fd = some f ∧ OpenedToRead s f
  | _ => True

/-- Files are opened with care, and read through descriptors that are open for reading. -/
def Careful (s : Reader) : ReaderAct → Prop
  | .openFile path flag _ inode uninit => CarefulOpen path flag inode uninit s.fs
  | .dup _ => True
  | .read fd _ => ∀ f, descriptor s.fs fd = some f → ForReading (s.fs.file f).fFlags

def freeFds (fs : FileSystem) : Nat := (Finset.univ.filter fun fd => fs.filp fd = none).card

def FileGuarded (s : Reader) (f : Fin NR_FILE) : Prop :=
  ∃ i fs flag, (s.fs.file f).fInode = .entry i ∧ (s.fs.file f).fFlags = flag % 65536 ∧
    s.opened f = some (fs, flag) ∧
    0 < (s.fs.inode i).iCount ∧ (fs.inode i).iDev = (s.fs.inode i).iDev ∧
      (fs.inode i).iNum = (s.fs.inode i).iNum ∧
    (ForReading flag → GrantsRead fs (fs.inode i))

structure Guarded (s : Reader) : Prop where
  user : ¬ suser s.fs
  room : ∀ j, (s.fs.inode j).iCount + freeFds s.fs + 3 < 65536
  mounts : ∀ j, (s.fs.inode j).iMount = true → (mountedOn s.fs j).isSome
  files : ∀ fd f, s.fs.filp fd = some f → FileGuarded s f

variable {s t : Reader}

theorem Guarded.sane (h : Guarded s) : Sane s.fs := ⟨fun j => by have := h.room j; omega, h.mounts⟩

theorem freeFds_update {fd : Fin NR_OPEN} {f : Fin NR_FILE} (hfree : fs.filp fd = none)
    (hfilp : fs'.filp = Function.update fs.filp fd (some f)) : freeFds fs' + 1 = freeFds fs := by
  have herase : (Finset.univ.filter fun k => fs'.filp k = none) =
      (Finset.univ.filter fun k => fs.filp k = none).erase fd := by
    ext k
    rw [hfilp]
    by_cases hk : k = fd
    · simp [hk]
    · simp [hk]
  unfold freeFds
  rw [herase]
  exact Finset.card_erase_add_one (by simp [hfree])

theorem Lasting.mounts {l : List InodeIx} (h : Lasting l fs fs')
    (hmounts : ∀ j, (fs.inode j).iMount = true → (mountedOn fs j).isSome) (j : InodeIx)
    (hj : (fs'.inode j).iMount = true) : (mountedOn fs' j).isSome := by
  have hon : mountedOn fs' j = mountedOn fs j := by simp only [mountedOn, h.super]
  rw [hon]
  exact hmounts j (h.mount j hj)

theorem FileGuarded.lasting {f : Fin NR_FILE} {l : List InodeIx} (h : FileGuarded s f)
    (hl : Lasting l s.fs t.fs) (hinode : (t.fs.file f).fInode = (s.fs.file f).fInode)
    (hflags : (t.fs.file f).fFlags = (s.fs.file f).fFlags) (hopened : t.opened f = s.opened f) :
    FileGuarded t f := by
  obtain ⟨i, fs, flag, hi, hflag, ho, hpos, hdev, hnum, hgrants⟩ := h
  obtain ⟨hdev', hnum'⟩ := hl.inode i hpos
  have hcount := hl.count i
  exact ⟨i, fs, flag, hinode.trans hi, hflags.trans hflag, hopened.trans ho,
    by omega, hdev.trans hdev'.symm,
    hnum.trans hnum'.symm, hgrants⟩

theorem Guarded.same (h : Guarded s) (hfiles : SameFiles s.fs t.fs) (hl : Lasting [] s.fs t.fs)
    (hopened : t.opened = s.opened) : Guarded t := by
  have hfds : freeFds t.fs = freeFds s.fs := by simp only [freeFds, hfiles.filp]
  refine ⟨?_, fun j => ?_, hl.mounts h.mounts, fun fd f hf => ?_⟩
  · rw [suser, hl.euid]
    exact h.user
  · have hroom := h.room j
    have hcount : (t.fs.inode j).iCount = (s.fs.inode j).iCount := hl.count j
    omega
  · rw [hfiles.filp] at hf
    exact (h.files fd f hf).lasting hl (hfiles.fInode f) (hfiles.fFlags f) (by rw [hopened])

theorem Guarded.opens (h : Guarded s) {fd : Fin NR_OPEN} {f : Fin NR_FILE} {i : InodeIx}
    (ho : OpenedAs fd f i flag s.fs fs') :
    Guarded ⟨fs', Function.update s.opened f (some (fs', flag))⟩ := by
  have hfds := freeFds_update ho.free ho.filp
  refine ⟨?_, fun j => ?_, ho.lasting.mounts h.mounts, fun k g hg => ?_⟩
  · rw [suser, ho.lasting.euid]
    exact h.user
  · have hroom := h.room j
    have hcount := ho.lasting.count j
    have hle : [i].count j ≤ 1 := List.count_le_length
    dsimp only
    omega
  · by_cases hgf : g = f
    · subst hgf
      have hcount := ho.lasting.count i
      rw [List.count_singleton_self] at hcount
      refine ⟨i, fs', flag, ho.fInode, ho.fFlags, Function.update_self .., ?_, rfl, rfl, ho.grants⟩
      dsimp only
      omega
    · have hk : k ≠ fd := fun e => by
        rw [e, ho.filp, Function.update_self] at hg
        exact hgf (Option.some.inj hg).symm
      rw [ho.filp, Function.update_of_ne hk] at hg
      obtain ⟨hinode, hflags⟩ := ho.other g hgf
      exact (h.files k g hg).lasting ho.lasting hinode hflags (Function.update_of_ne hgf ..)

theorem Guarded.dup (h : Guarded s) (fildes : Nat) :
    Guarded { s with fs := (sysDup fildes s.fs).2 } := by
  obtain ⟨hshare, hfile, hl⟩ := sysDup_shares fildes s.fs
  cases hshare with
  | inl hstay =>
    rw [hstay]
    exact h
  | inr hshare =>
    obtain ⟨fd, arg, f, hf, hfree, hfilp⟩ := hshare
    have hfds := freeFds_update hfree hfilp
    refine ⟨?_, fun j => ?_, hl.mounts h.mounts, fun k g hg => ?_⟩
    · rw [suser, hl.euid]
      exact h.user
    · have hroom := h.room j
      have hcount : ((sysDup fildes s.fs).2.inode j).iCount = (s.fs.inode j).iCount := hl.count j
      dsimp only
      omega
    · have hold : ∃ k, s.fs.filp k = some g := by
        dsimp only at hg
        rw [hfilp] at hg
        by_cases hk : k = arg
        · rw [hk, Function.update_self] at hg
          exact ⟨fd, hf.trans hg⟩
        · rw [Function.update_of_ne hk] at hg
          exact ⟨k, hg⟩
      obtain ⟨k, hk⟩ := hold
      exact (h.files k g hk).lasting hl (hfile g).1 (hfile g).2 rfl

theorem forReading_mod : ForReading (flag % 65536) ↔ ForReading flag := by
  have hmod : flag % 65536 &&& O_ACCMODE = flag &&& O_ACCMODE := by
    rw [show (65536 : Nat) = 2 ^ 16 from rfl, ← Nat.and_two_pow_sub_one_eq_mod, Nat.and_assoc]
    rfl
  rw [ForReading, ForReading, hmod]

theorem Guarded.step (h : Guarded s) {a : ReaderAct} (hcare : Careful s a)
    (hst : readerStep s a = some t) :
    ReadAllowed s a ∧ Guarded t := by
  cases a with
  | openFile path flag mode inode uninit =>
    obtain ⟨⟨r, fs'⟩, hopen, rfl⟩ := Option.map_eq_some_iff.mp hst
    refine ⟨trivial, ?_⟩
    cases hres : sysOpen path flag mode inode uninit s.fs with
    | error e =>
      rw [hres] at hopen
      cases hopen
    | ok r' =>
      rw [hres] at hopen
      obtain rfl := Option.some.inj hopen
      cases sysOpen_ends h.sane h.user hcare hres with
      | inl hfail =>
        obtain ⟨hneg, hfiles, hl⟩ := hfail
        rw [Reader.opens, if_neg (by omega)]
        exact h.same hfiles hl rfl
      | inr hopened =>
        obtain ⟨fd, f, i, rfl, ho⟩ := hopened
        have hfd : descriptor fs' (fd.val : Int).toNat = some f := by
          rw [Int.toNat_natCast, descriptor, dif_pos fd.isLt, ho.filp]
          exact Function.update_self ..
        rw [Reader.opens, if_pos (Int.natCast_nonneg _), hfd]
        exact h.opens ho
  | dup fildes =>
    obtain rfl := Option.some.inj hst
    exact ⟨trivial, h.dup fildes⟩
  | read fd count =>
    obtain ⟨r, hread, rfl⟩ := Option.map_eq_some_iff.mp hst
    cases hres : sysRead fd count s.fs with
    | error e =>
      rw [hres] at hread
      cases hread
    | ok r' =>
      rw [hres] at hread
      obtain rfl := Option.some.inj hread
      obtain ⟨hfiles, hl⟩ := sysRead_keeps hres
      refine ⟨fun n out fs' hok hsome => ?_, h.same hfiles hl rfl⟩
      cases hf : descriptor s.fs fd with
      | none =>
        -- without a file `sys_read` returns nothing
        rw [descriptor] at hf
        unfold sysRead sysReadWith at hok
        split at hok
        · rename_i hfd
          rw [dif_pos hfd.1] at hf
          simp only [hf] at hok
          cases hok
          exact absurd rfl hsome
        · cases hok
          exact absurd rfl hsome
      | some f =>
        have hopen : ∃ k, s.fs.filp k = some f := by
          unfold descriptor at hf
          split at hf
          · exact ⟨_, hf⟩
          · cases hf
        obtain ⟨k, hk⟩ := hopen
        obtain ⟨i, fs, flag, hi, hflags, ho, -, hdev, hnum, hgrants⟩ := h.files k f hk
        have hreading : ForReading flag := forReading_mod.mp (hflags ▸ hcare f hf)
        exact ⟨f, rfl, i, fs, flag, hi, ho, hdev, hnum, hgrants hreading, hreading⟩

structure FreshReader (s : Reader) : Prop where
  user : ¬ suser s.fs
  room : ∀ j, (s.fs.inode j).iCount + NR_OPEN + 3 < 65536
  mounts : ∀ j, (s.fs.inode j).iMount = true → (mountedOn s.fs j).isSome
  files : ∀ fd, s.fs.filp fd = none

theorem FreshReader.guarded (h : FreshReader s) : Guarded s := by
  refine ⟨h.user, fun j => ?_, h.mounts, fun fd f hf => ?_⟩
  · have hroom := h.room j
    have hle : freeFds s.fs ≤ NR_OPEN := (Finset.card_filter_le ..).trans (by simp)
    omega
  · rw [h.files fd] at hf
    cases hf

/-- In every run whose steps are careful, `sys_read` returns bytes of an inode only if its mode
granted read permission when it was opened for reading. -/
theorem reads_allowed (s : Reader) (hfresh : FreshReader s) (as : List ReaderAct)
    (hcare : StepsMeet readerStep Careful s as) : StepsMeet readerStep ReadAllowed s as :=
  stepsMeet_of_stepsMeet (fun _ _ _ h hcare hst => h.step hcare hst) hfresh.guarded hcare

section Root

def rootReader (mode : Nat) : Reader where
  fs := { smallFs with
    euid := 1
    egid := 1
    inode := fun i => if i = 0 then
        ⟨(((DInode.zero.setMode mode).setSize 16).setNlinks 1).setZone 0 5, 1, 1, 3, false, false,
          false, false⟩
      else .zero }
  opened := fun _ => none

def readRoot : List ReaderAct := [.openFile [slash] 0 0 .null .null, .read 0 16]

theorem freshReader_root (mode : Nat) : FreshReader (rootReader mode) := by
  have hentry : ∀ j, ((rootReader mode).fs.inode j).iCount ≤ 3 ∧
      ((rootReader mode).fs.inode j).iMount = false := by
    intro j
    simp only [rootReader]
    split
    · exact ⟨Nat.le_refl 3, rfl⟩
    · exact ⟨Nat.zero_le 3, rfl⟩
  refine ⟨(by decide : (1 : Nat) ≠ 0), fun j => ?_, fun j hj => ?_, fun _ => rfl⟩
  · have hcount := (hentry j).1
    have hopen : NR_OPEN = 20 := rfl
    omega
  · rw [(hentry j).2] at hj
    cases hj

theorem reads_allowed_root : StepsMeet readerStep ReadAllowed (rootReader 0o040755) readRoot := by
  have hnamed : (namedInode [slash] (reserved (rootReader 0o040755).fs)).toOption.all fun r =>
      r.1.all fun i => decide (GrantsRead r.2 (r.2.inode i)) := by
    decide +kernel
  have hflags : (readerStep (rootReader 0o040755) (.openFile [slash] 0 0 .null .null)).all fun t =>
      (descriptor t.fs 0).all fun f => decide (ForReading (t.fs.file f).fFlags) := by
    decide +kernel
  refine reads_allowed (rootReader 0o040755) (freshReader_root _) readRoot fun t ht =>
    ⟨⟨?_, ?_⟩, fun u _ => ⟨?_, trivial⟩⟩
  · exact fun hcreat => absurd rfl hcreat
  · intro i fs' h _
    rw [h] at hnamed
    exact ⟨fun hname => absurd rfl hname, fun _ => of_decide_eq_true hnamed⟩
  · intro f hf
    rw [ht] at hflags
    have hflags : (descriptor t.fs 0).all (fun f => decide (ForReading (t.fs.file f).fFlags)) =
      true := hflags
    rw [hf] at hflags
    exact of_decide_eq_true hflags

theorem root_read_unchecked :
    FreshReader (rootReader 0o040711) ∧
    ¬ StepsMeet readerStep ReadAllowed (rootReader 0o040711) readRoot := by
  refine ⟨freshReader_root _, ?_⟩
  have hrun : (readerStep (rootReader 0o040711) (.openFile [slash] 0 0 .null .null)).any fun t =>
      (sysRead 0 16 t.fs).toOption.any (fun r => decide (r.2.1 ≠ [])) &&
        (descriptor t.fs 0).all fun f => (t.opened f).all fun x =>
          decide (∀ i, ¬ GrantsRead x.1 (x.1.inode i)) := by
    decide +kernel
  intro h
  obtain ⟨t, ht, hcheck⟩ := (Option.any_eq_true _ _).mp hrun
  obtain ⟨hread, hgrants⟩ := (Bool.and_eq_true _ _).mp hcheck
  obtain ⟨⟨n, out, fs'⟩, hok, hsome⟩ := (Option.any_eq_true _ _).mp hread
  have hok : sysRead 0 16 t.fs = .ok (n, out, fs') := by
    cases hres : sysRead 0 16 t.fs with
    | error e =>
      rw [hres] at hok
      cases hok
    | ok r =>
      rw [hres] at hok
      rw [Option.some.inj hok]
  have hstep : readerStep t (.read 0 16) = some { t with fs := fs' } := by rw [readerStep, hok]; rfl
  obtain ⟨f, hf, i, fs, flag, -, ho, -, -, hgrant, -⟩ :=
    ((h t ht).2 _ hstep).1 n out fs' hok (of_decide_eq_true hsome)
  rw [hf] at hgrants
  have hgrants : (t.opened f).all (fun x => decide (∀ i, ¬ GrantsRead x.1 (x.1.inode i))) = true :=
    hgrants
  rw [ho] at hgrants
  exact of_decide_eq_true hgrants i hgrant

end Root

end Hios.Fs
