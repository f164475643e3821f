import Hios.Fs.OpenRefs

/-! A `sys_open` that fails has changed nothing: what its steps, taken among those of
the other processes, add to each count comes to 0. -/
namespace Hios.Fs
open Hios.Run Hios.Holdings

variable {ι : Type*} [DecidableEq ι]

def ownChange (p : ι) (count : OpenSystem ι → Nat) : OpenSystem ι → List (SysAct ι) → Int
  | _, [] => 0
  | s, a :: as =>
    match sysStep s a with
    | none => 0
    | some t => (if a.process = some p then (count t : Int) - count s else 0) +
      ownChange p count t as

def OpenSystem.iCount (i : InodeIx) (s : OpenSystem ι) : Nat := (s.fs.inode i).iCount

def OpenSystem.fCount (f : Fin NR_FILE) (s : OpenSystem ι) : Nat := (s.files.file f).fCount

def returnsAt (p : ι) : OpenSystem ι → List (SysAct ι) → Bool
  | s, [] => (s.call p).isNone
  | s, a :: as => (s.call p).isSome && (sysStep s a).all fun t => returnsAt p t as

/-- After the run the files of `p` are as before, and `p` has added nothing to a count. -/
structure NoTrace (p : ι) (s : OpenSystem ι) (as : List (SysAct ι)) (t : OpenSystem ι) : Prop where
  filp : (t.files.proc p).map Descriptors.filp = (s.files.proc p).map Descriptors.filp
  fCount : ∀ f, ownChange p (OpenSystem.fCount f) s as = 0
  iCount : ∀ i, ownChange p (OpenSystem.iCount i) s as = 0

def FileAct.changes : FileAct ι → ι
  | .openStart p | .openEnd p _ | .close p _ | .dup p _ => p
  | .fork _ child => child

variable {s t : OpenSystem ι} {p q : ι} {flag : Nat} {pc : CallPc} {a : SysAct ι}
  {as : List (SysAct ι)}
  {pinned : List InodeIx}

theorem put_keeps {files : OpenFiles ι} (hq : p ≠ q) (d : Descriptors)
    (o : Option (Fin NR_OPEN × Fin NR_FILE)) (table : FileTable) :
    (files.put q d o table).proc p = files.proc p ∧
    (files.put q d o table).opening p = files.opening p :=
  ⟨Function.update_of_ne hq .., Function.update_of_ne hq ..⟩

theorem fileStep_keeps {files files' : OpenFiles ι} {b : FileAct ι} {ev : Option FileEvent}
    (hst : fileStep files b = some (ev, files')) (hp : p ≠ b.changes) :
    files'.proc p = files.proc p ∧ files'.opening p = files.opening p := by
  cases b with
  | openStart q =>
    obtain ⟨d, -, hs⟩ := Option.map_eq_some_iff.mp hst
    obtain rfl := (Prod.mk.inj hs).2
    exact put_keeps hp _ _ _
  | openEnd q e =>
    obtain ⟨d, -, hs⟩ := Option.bind_eq_some_iff.mp hst
    obtain ⟨r, -, hs⟩ := Option.map_eq_some_iff.mp hs
    obtain rfl := (Prod.mk.inj hs).2
    exact put_keeps hp _ _ _
  | close q fd =>
    obtain ⟨d, -, hs⟩ := Option.bind_eq_some_iff.mp hst
    obtain ⟨r, -, hs⟩ := Option.map_eq_some_iff.mp hs
    obtain rfl := (Prod.mk.inj hs).2
    exact put_keeps hp _ _ _
  | dup q fildes =>
    obtain ⟨d, -, hs⟩ := Option.map_eq_some_iff.mp hst
    obtain rfl := (Prod.mk.inj hs).2
    exact put_keeps hp _ _ _
  | fork q child =>
    obtain ⟨d, -, hs⟩ := Option.bind_eq_some_iff.mp hst
    by_cases hchild : files.proc child = none
    · rw [if_pos hchild] at hs
      obtain rfl := (Prod.mk.inj (Option.some.inj hs)).2
      exact put_keeps hp _ _ _
    · rw [if_neg hchild] at hs
      cases hs

theorem sysStep_other (hcall : s.call p = some (flag, pc)) (ha : a.process ≠ some p)
    (hst : sysStep s a = some t) :
    t.call p = s.call p ∧ t.files.proc p = s.files.proc p ∧
    t.files.opening p = s.files.opening p := by
  cases a with
  | openStart q path flag =>
    have hq : p ≠ q := fun e => ha (by rw [e]; rfl)
    by_cases hidle : (s.call q).isSome = true
    · simp [sysStep, hidle] at hst
    simp only [sysStep, if_neg hidle] at hst
    obtain ⟨⟨ev, files'⟩, hfile, hst⟩ := Option.map_eq_some_iff.mp hst
    have hkeep := fileStep_keeps hfile hq
    cases hopen : files'.opening q with
    | none =>
      simp only [hopen] at hst
      subst hst
      exact ⟨rfl, hkeep⟩
    | some r =>
      simp only [hopen] at hst
      subst hst
      exact ⟨Function.update_of_ne hq .., hkeep⟩
  | close q fd =>
    have hq : p ≠ q := fun e => ha (by rw [e]; rfl)
    by_cases hidle : (s.call q).isSome = true
    · simp [sysStep, hidle] at hst
    simp only [sysStep, if_neg hidle] at hst
    obtain ⟨⟨ev, files'⟩, hfile, hst⟩ := Option.bind_eq_some_iff.mp hst
    have hkeep := fileStep_keeps hfile hq
    simp only at hst
    split at hst
    · obtain rfl := Option.some.inj hst
      exact ⟨rfl, hkeep⟩
    · obtain rfl := Option.some.inj hst
      exact ⟨Function.update_of_ne hq .., hkeep⟩
    · cases hst
  | dup q fildes =>
    have hq : p ≠ q := fun e => ha (by rw [e]; rfl)
    by_cases hidle : (s.call q).isSome = true
    · simp [sysStep, hidle] at hst
    simp only [sysStep, if_neg hidle] at hst
    obtain ⟨⟨ev, files'⟩, hfile, rfl⟩ := Option.map_eq_some_iff.mp hst
    exact ⟨rfl, fileStep_keeps hfile hq⟩
  | fork q child =>
    by_cases hidle : (s.call q).isSome = true ∨ (s.call child).isSome = true
    · simp [sysStep, hidle] at hst
    simp only [sysStep, if_neg hidle] at hst
    obtain ⟨⟨ev, files'⟩, hfile, rfl⟩ := Option.map_eq_some_iff.mp hst
    have hchild : p ≠ child := fun e => hidle (.inr (by rw [← e, hcall]; rfl))
    exact ⟨rfl, fileStep_keeps hfile hchild⟩
  | go q c =>
    have hq : p ≠ q := fun e => ha (by rw [e]; rfl)
    obtain ⟨flag', pc', fs', o, -, -, hwent⟩ := sysStep_go hst
    refine ⟨hwent.other p hq, ?_⟩
    have hended := hwent.ended
    cases o with
    | «at» pc'' => rw [hended.2]; exact ⟨rfl, rfl⟩
    | failed err =>
      obtain ⟨-, -, ev, hfile⟩ := hended
      exact fileStep_keeps hfile hq
    | opened i =>
      obtain ⟨-, ev, fd, f, iMode, -, -, hfile⟩ := hended
      exact fileStep_keeps hfile hq
    | closed => rw [hended.2.2]; exact ⟨rfl, rfl⟩
  | io fs =>
    obtain rfl := Option.some.inj hst
    exact ⟨rfl, rfl, rfl⟩

theorem own_step_go (hcall : s.call p = some (flag, pc)) (ha : a.process = some p)
    (hst : sysStep s a = some t) :
    ∃ c, a = .go p c := by
  cases a with
  | openStart q path flag =>
    obtain rfl := Option.some.inj ha
    simp [sysStep, hcall] at hst
  | close q fd =>
    obtain rfl := Option.some.inj ha
    simp [sysStep, hcall] at hst
  | dup q fildes =>
    obtain rfl := Option.some.inj ha
    simp [sysStep, hcall] at hst
  | fork q child =>
    obtain rfl := Option.some.inj ha
    simp [sysStep, hcall] at hst
  | go q c =>
    obtain rfl := Option.some.inj ha
    exact ⟨c, rfl⟩
  | io fs => cases ha

theorem returnsAt_none (h : returnsAt p s as = true) (hcall : s.call p = none) : as = [] := by
  cases as with
  | nil => rfl
  | cons a as => simp [returnsAt, hcall] at h

theorem returnsAt_step (h : returnsAt p s (a :: as) = true) (hst : sysStep s a = some t) :
    returnsAt p t as = true := by
  simp only [returnsAt, hst, Option.all_some, Bool.and_eq_true] at h
  exact h.2

theorem ownChange_cons (hst : sysStep s a = some t) (count : OpenSystem ι → Nat) :
    ownChange p count s (a :: as) =
    (if a.process = some p then (count t : Int) - count s else 0) + ownChange p count t as := by
  rw [ownChange, hst]

section Open
variable [Fintype ι] (htasks : Fintype.card ι ≤ 64) (hpinned : pinned.length ≤ 16)

theorem openEnd_failed {files files' : OpenFiles ι} (h : FilesCounted files) {d : Descriptors}
    {fd : Fin NR_OPEN} {f : Fin NR_FILE} {ev : Option FileEvent} (hp : files.proc p = some d)
    (ho : files.opening p = some (fd, f))
    (hst : fileStep files (.openEnd p .failed) = some (ev, files')) :
    (files'.proc p).map Descriptors.filp = some (Function.update d.filp fd none) ∧
      ∀ g, (files.file g).fCount = (files'.file g).fCount + if g = f then 1 else 0 := by
  obtain ⟨d', hp', hs⟩ := Option.bind_eq_some_iff.mp hst
  obtain ⟨⟨fd', f'⟩, ho', hs⟩ := Option.map_eq_some_iff.mp hs
  obtain rfl := Option.some.inj (hp.symm.trans hp')
  obtain ⟨rfl, rfl⟩ := Prod.mk.inj (Option.some.inj (ho.symm.trans ho'))
  obtain rfl := (Prod.mk.inj hs).2
  constructor
  · simp [OpenFiles.put, Descriptors.set]
  · intro g
    by_cases hg : g = f
    · simp [OpenFiles.put, setCount, hg, h.sole ho]
    · simp [OpenFiles.put, setCount, hg]

omit [Fintype ι] in
theorem openStart_reserves {files files' : OpenFiles ι} {ev : Option FileEvent}
    (hst : fileStep files (.openStart p) = some (ev, files')) :
    ∃ d d', files.proc p = some d ∧ files'.proc p = some d' ∧
      ((files'.opening p = none ∧ d'.filp = d.filp ∧ files'.file = files.file) ∨
        ∃ fd f, files'.opening p = some (fd, f) ∧ d.filp fd = none ∧
        d'.filp = Function.update d.filp fd (some f) ∧
          ∀ g, (files'.file g).fCount = (files.file g).fCount + if g = f then 1 else 0) := by
  obtain ⟨d, hd, hs⟩ := Option.map_eq_some_iff.mp hst
  obtain ⟨ho, hp⟩ := caller_some hd
  obtain rfl := (Prod.mk.inj hs).2
  refine ⟨d, _, hp, Function.update_self .., ?_⟩
  simp only
  cases hfd : lowestFd d 0 with
  | none => exact .inl ⟨Function.update_self .., rfl, rfl⟩
  | some fd =>
    cases hf : lowestFile files.file with
    | none => exact .inl ⟨Function.update_self .., rfl, rfl⟩
    | some f =>
      refine .inr ⟨fd, f, Function.update_self .., lowestFd_free hfd, rfl, fun g => ?_⟩
      have hzero := lowestFile_free hf
      by_cases hg : g = f
      · simp [OpenFiles.put, incCount, setCount, hg, hzero]
      · simp [OpenFiles.put, incCount, setCount, hg]

include htasks hpinned in
/-- From anywhere inside a `sys_open` that fails on: the reservation is given back, and
so is every inode that the call holds. -/
theorem open_gives_back (h : RefsCounted pinned s) (hcall : s.call p = some (flag, pc))
    {d : Descriptors} {fd : Fin NR_OPEN} {f : Fin NR_FILE} (hp : s.files.proc p = some d)
    (ho : s.files.opening p = some (fd, f)) (hsound : StepsMeet sysStep Sound s as)
    (hreturns : returnsAt p s as = true) (hrun : run sysStep s as = some t) (hneg : t.ret p < 0) :
    (t.files.proc p).map Descriptors.filp = some (Function.update d.filp fd none) ∧
      (∀ g, ownChange p (OpenSystem.fCount g) s as = -(if g = f then 1 else 0)) ∧
      ∀ i, ownChange p (OpenSystem.iCount i) s as = -(pc.held.count i : Int) := by
  induction as generalizing s flag pc d with
  | nil =>
    simp [returnsAt, hcall] at hreturns
  | cons a as ih =>
    obtain ⟨u, hu, ht⟩ := run_cons_some.mp hrun
    obtain ⟨hs, hrest⟩ := hsound u hu
    have hback := returnsAt_step hreturns hu
    have hcounted := h.step htasks hpinned hs hu
    simp only [ownChange_cons hu]
    by_cases ha : a.process = some p
    · obtain ⟨c, rfl⟩ := own_step_go hcall ha hu
      obtain ⟨flag', pc', fs', o, hcall', hstep, hwent⟩ := sysStep_go hu
      obtain ⟨rfl, rfl⟩ := Prod.mk.inj (Option.some.inj (hcall.symm.trans hcall'))
      simp only [Sound, hcall] at hs
      have hok : pc.Ok (s.fs.seenBy (s.task p)) := (h.ok p flag pc hcall).mono fun _ _ hne => hne
      have hm := callStep_moved (h.ready htasks hpinned hcall) hok hs hstep
      have hbal : ∀ i, (u.iCount i : Int) - s.iCount i = o.held.count i - pc.held.count i := by
        intro i
        have hi : (fs'.inode i).iCount + pc.held.count i = (s.fs.inode i).iCount + o.held.count i :=
          hm.balanced i
        simp only [OpenSystem.iCount, hwent.inode]
        omega
      have hended := hwent.ended
      cases o with
      | «at» pc' =>
        obtain ⟨hself, hfiles⟩ := hended
        obtain ⟨hfilp, hf, hi⟩ := ih hcounted hself (hfiles ▸ hp) (hfiles ▸ ho) hrest hback ht
        refine ⟨hfilp, fun g => ?_, fun i => ?_⟩
        · simp [hf g, OpenSystem.fCount, hfiles]
        · rw [hi i, if_pos ha, hbal i, Onward.held]
          omega
      | failed err =>
        obtain ⟨hself, -, ev, hfile⟩ := hended
        obtain rfl := returnsAt_none hback hself
        obtain rfl := Option.some.inj ht
        obtain ⟨hfilp, hcount⟩ := openEnd_failed h.files hp ho hfile
        refine ⟨hfilp, fun g => ?_, fun i => ?_⟩
        · have hg := hcount g
          simp only [ownChange, OpenSystem.fCount, if_pos ha]
          by_cases hgf : g = f
          · simp only [if_pos hgf] at hg ⊢
            omega
          · simp only [if_neg hgf] at hg ⊢
            omega
        · rw [if_pos ha, hbal i]
          simp [ownChange, Onward.held]
      | opened i =>
        obtain ⟨hself, ev, fd', f', iMode, -, hret, -⟩ := hended
        obtain rfl := returnsAt_none hback hself
        obtain rfl := Option.some.inj ht
        omega
      | closed =>
        obtain ⟨hself, hret, -⟩ := hended
        obtain rfl := returnsAt_none hback hself
        obtain rfl := Option.some.inj ht
        omega
    · obtain ⟨hsame, hproc, hopening⟩ := sysStep_other hcall ha hu
      obtain ⟨hfilp, hf, hi⟩ :=
        ih hcounted (hsame.trans hcall) (hproc.trans hp) (hopening.trans ho) hrest hback ht
      refine ⟨hfilp, fun g => ?_, fun i => ?_⟩
      · rw [if_neg ha, zero_add]
        exact hf g
      · rw [if_neg ha, zero_add]
        exact hi i

include htasks hpinned in
theorem RefsCounted.failed_open (h : RefsCounted pinned s) {path : List Byte} {u : OpenSystem ι}
    (hopen : sysStep s (.openStart p path flag) = some u) (hsound : StepsMeet sysStep Sound u as)
    (hreturns : returnsAt p u as = true) (hrun : run sysStep u as = some t) (hneg : t.ret p < 0) :
    NoTrace p s (.openStart p path flag :: as) t := by
  have hcounted := h.openStart htasks hopen
  have hown : (SysAct.openStart p path flag).process = some p := rfl
  have hst := hopen
  by_cases hidle : (s.call p).isSome = true
  · simp [sysStep, hidle] at hst
  have hcall : s.call p = none := by simpa using hidle
  simp only [sysStep, if_neg hidle] at hst
  obtain ⟨⟨ev, files'⟩, hfile, hst⟩ := Option.map_eq_some_iff.mp hst
  obtain ⟨d, d', hp, hp', hcase⟩ := openStart_reserves hfile
  obtain ⟨hnone, hfilp, hsame⟩ | ⟨fd, f, hr, hempty, hfilp, hcount⟩ := hcase
  · simp only [hnone] at hst
    subst hst
    obtain rfl := returnsAt_none hreturns hcall
    obtain rfl := Option.some.inj hrun
    refine ⟨?_, fun g => ?_, fun i => ?_⟩
    · rw [hp, hp', Option.map_some, Option.map_some, hfilp]
    · rw [ownChange_cons hopen]
      simp [ownChange, OpenSystem.fCount, hsame]
    · rw [ownChange_cons hopen]
      simp [ownChange, OpenSystem.iCount]
  · simp only [hr] at hst
    subst hst
    obtain ⟨hback, hf, hi⟩ :=
      open_gives_back htasks hpinned hcounted (Function.update_self ..) hp' hr hsound hreturns
      hrun hneg
    refine ⟨?_, fun g => ?_, fun i => ?_⟩
    · rw [hback, hp, hfilp, Function.update_idem, Option.map_some]
      exact congrArg some (Function.update_eq_self_iff.mpr hempty.symm)
    · rw [ownChange_cons hopen, hf g, if_pos hown]
      have hg := hcount g
      simp only [OpenSystem.fCount]
      by_cases hgf : g = f
      · simp only [if_pos hgf] at hg ⊢
        omega
      · simp only [if_neg hgf] at hg ⊢
        omega
    · rw [ownChange_cons hopen, hi i, if_pos hown]
      simp [OpenSystem.iCount, CallPc.held]

structure Started (pinned : List InodeIx) (s : OpenSystem ι) : Prop where
  files : NoFiles s.files
  call : ∀ p, s.call p = none
  count : ∀ i, (s.fs.inode i).iCount = total s.kept i + pinned.count i
  range : ∀ i, (s.fs.inode i).iDev < 65536

omit [DecidableEq ι] in
theorem Started.refsCounted (h : Started pinned s) : RefsCounted pinned s := by
  refine ⟨filesCounted_noFiles h.files, fun i => ?_, h.range, fun q hq => ?_,
    fun q flag pc hq => ?_⟩
  · have hfile : ∀ f, fileInode s.files f = [] := fun f => if_pos (.inl (h.files.count f))
    have htotal : total (holdings s) i = total s.kept i := by
      simp [total, Fintype.sum_sum_type, holdings, hfile, held_idle (h.call _)]
    rw [h.count i, htotal]
  · rw [h.call q] at hq
    cases hq
  · rw [h.call q] at hq
    cases hq

end Open

/-- In every run whose steps are sound, a `sys_open` that returns a negative value has
left no trace: the descriptors of the process are as before the call, and its steps have
changed no `f_count` and no `i_count`. -/
theorem failed_open_leaves_no_trace [Fintype ι] (htasks : Fintype.card ι ≤ 64)
    (hpinned : pinned.length ≤ 16) (s₀ s u t : OpenSystem ι) (hstart : Started pinned s₀)
    (before as : List (SysAct ι)) (p : ι) (path : List Byte) (flag : Nat)
    (hsound : StepsMeet sysStep Sound s₀ (before ++ .openStart p path flag :: as))
    (hbefore : run sysStep s₀ before = some s)
    (hopen : sysStep s (.openStart p path flag) = some u) (hrun : run sysStep u as = some t)
    (hreturns : returnsAt p u as = true) (hneg : t.ret p < 0) :
    NoTrace p s (.openStart p path flag :: as) t := by
  obtain ⟨hfirst, hlast⟩ := stepsMeet_append hsound hbefore
  have hcounted : RefsCounted pinned s :=
    run_inv_of_stepsMeet (fun _ _ _ h hs hst => h.step htasks hpinned hs hst) hstart.refsCounted
      hfirst hbefore
  exact hcounted.failed_open htasks hpinned hopen (hlast u hopen).2 hreturns hrun hneg

section TwoFiles

/-- The root directory, the terminal device `t` and the regular file `f`, in the entries
they are read into. -/
def twoFiles (i : InodeIx) : DInode :=
  if i = 0 then (DInode.zero.setMode 0o040755).setNlinks 1
  else if i = 1 then ((DInode.zero.setMode 0o020666).setNlinks 1).setZone 0 (5 * 256)
  else (DInode.zero.setMode 0o100644).setNlinks 1

/-- The first process, without a terminal, and the root inode, which its super block
refers to twice. -/
def twoFilesSystem : OpenSystem (Fin 64) where
  files := firstProcess
  fs := { smallFs with
    inode := fun i => if i = 0 then ⟨twoFiles 0, 1, 1, 4, false, false, false, false⟩ else .zero }
  task := fun _ => ⟨.entry 0, .entry 0, .null, 0, 0, false, -1, 0⟩
  call := fun _ => none
  ret := fun _ => 0

def twoFilesRead : FileSystem :=
  { smallFs with inode := fun i => ⟨twoFiles i, 0, 0, 0, false, false, false, false⟩ }

/-- `open` of a file in the root directory: its inode number, and the uninitialised
local of `sys_open`. -/
def openNamed (path : List Byte) (nr : Nat) (inode : InodePtr) : List (SysAct (Fin 64)) :=
  let f : Finds := ⟨some nr, inode, .null⟩
  [.openStart 0 path 0, .go 0 f, .go 0 f, .go 0 f, .go 0 f, .go 0 f, .go 0 f, .io twoFilesRead,
    .go 0 f, .go 0 f]

def openMissing (path : List Byte) : List (SysAct (Fin 64)) :=
  let f : Finds := ⟨none, .null, .null⟩
  [.openStart 0 path 0, .go 0 f, .go 0 f, .go 0 f, .go 0 f]

theorem started_twoFiles : Started [0, 0] twoFilesSystem :=
  ⟨noFiles_firstProcess, fun _ => rfl, by decide +kernel, by decide +kernel⟩

theorem missing_file_leaves_no_trace :
    ∃ t, run sysStep twoFilesSystem (openMissing [120]) = some t ∧
    t.ret 0 = -ENOENT ∧ NoTrace 0 twoFilesSystem (openMissing [120]) t := by
  have hrun : (run sysStep twoFilesSystem (openMissing [120])).any fun t => t.ret 0 = -ENOENT := by
    decide +kernel
  have hreturns : (sysStep twoFilesSystem (.openStart 0 [120] 0)).any fun u =>
      returnsAt 0 u (openMissing [120]).tail := by
    decide +kernel
  obtain ⟨t, ht, hret⟩ := (Option.any_eq_true _ _).mp hrun
  obtain ⟨u, hu, hback⟩ := (Option.any_eq_true _ _).mp hreturns
  have hneg : t.ret 0 = -ENOENT := of_decide_eq_true hret
  obtain ⟨u', hu', htail⟩ := run_cons_some.mp ht
  obtain rfl := Option.some.inj (hu.symm.trans hu')
  have hsound : StepsMeet sysStep Sound twoFilesSystem ([] ++ openMissing [120]) := by
    intro t₁ h₁
    obtain rfl := Option.some.inj h₁
    refine ⟨trivial, fun t₂ h₂ => ?_⟩
    obtain rfl := Option.some.inj h₂
    refine ⟨trivial, fun t₃ h₃ => ?_⟩
    obtain rfl := Option.some.inj h₃
    refine ⟨trivial, fun t₄ h₄ => ?_⟩
    obtain rfl := Option.some.inj h₄
    refine ⟨fun hcreat => absurd rfl hcreat, fun t₅ h₅ => ?_⟩
    exact ⟨trivial, trivial⟩
  refine ⟨t, ht, hneg, ?_⟩
  exact failed_open_leaves_no_trace (by decide) (by decide) twoFilesSystem twoFilesSystem u t
    started_twoFiles []
    (openMissing [120]).tail 0 [120] 0 hsound rfl hu htail hback (by rw [hneg]; decide)

/-- `t` is opened, and stays in core. The next `open` finds its inode in the local that
`open_namei` does not set, and puts it back instead of that of `f`. -/
theorem stale_inode_put_back :
    ∃ s t, run sysStep twoFilesSystem (openNamed [116] 2 (.entry 0)) = some s ∧
    run sysStep s (openNamed [102] 3 (.entry 1) ++ [.go 0 ⟨none, .null, .null⟩]) = some t ∧
    t.ret 0 = -EPERM ∧
    ownChange 0 (OpenSystem.iCount 1) s
      (openNamed [102] 3 (.entry 1) ++ [.go 0 ⟨none, .null, .null⟩]) = -1 ∧
    ¬ NoTrace 0 s (openNamed [102] 3 (.entry 1) ++ [.go 0 ⟨none, .null, .null⟩]) t := by
  have hrun : (run sysStep twoFilesSystem (openNamed [116] 2 (.entry 0))).any fun s =>
      (run sysStep s (openNamed [102] 3 (.entry 1) ++ [.go 0 ⟨none, .null, .null⟩])).any
        (fun t => t.ret 0 = -EPERM) ∧
        ownChange 0 (OpenSystem.iCount 1) s
          (openNamed [102] 3 (.entry 1) ++ [.go 0 ⟨none, .null, .null⟩]) = -1 := by
    decide +kernel
  obtain ⟨s, hs, hcall⟩ := (Option.any_eq_true _ _).mp hrun
  obtain ⟨hret, hown⟩ := of_decide_eq_true hcall
  obtain ⟨t, ht, hperm⟩ := (Option.any_eq_true _ _).mp hret
  refine ⟨s, t, hs, ht, of_decide_eq_true hperm, hown, fun h => ?_⟩
  rw [h.iCount 1] at hown
  cases hown

end TwoFiles

end Hios.Fs
