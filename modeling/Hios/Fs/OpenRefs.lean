import Hios.Fs.OpenCalls
import Hios.Fs.FileInodes
import Hios.Lib.Holdings

/-! The references to inodes: each `i_count` is the number of pointers that processes,
open files and calls under way hold, as long as the steps are sound. -/
namespace Hios.Fs
open Hios.Run Hios.Holdings Hios.RefCount

def AfterPut.held : AfterPut → List InodeIx
  | .got i _ => [i]
  | .putDir dir => [dir]
  | _ => []

def GetPc.held : GetPc → List InodeIx
  | .found e _ | .reading e => [e]
  | _ => []

def CallPc.held : CallPc → List InodeIx
  | .start _ => []
  | .dir _ i | .find _ i | .name i => [i]
  | .get _ _ _ pc => pc.held
  | .put i _ next => i :: next.held

def Onward.held : Onward → List InodeIx
  | .at pc => pc.held
  | .opened i => [i]
  | _ => []

def AfterPut.Ok : AfterPut → Prop
  | .iget dev _ _ => dev < 65536
  | _ => True

def CallPc.Ok (fs : FileSystem) : CallPc → Prop
  | .get dev _ _ .start => dev < 65536
  | .get dev _ _ _ => dev ≠ 0 ∧ dev < 65536
  | .put _ .wait next => next.Ok
  | .put i _ next => (fs.inode i).iDev ≠ 0 ∧ next.Ok
  | _ => True

def Onward.Ok (fs : FileSystem) : Onward → Prop
  | .at pc => pc.Ok fs
  | _ => True

/-- A stretch of code is sound if `get_empty_inode` takes an entry that is still unused,
and the uninitialised variables are as if they had been set. -/
def SoundStep (flag : Nat) (c : Finds) (fs : FileSystem) : CallPc → Prop
  | .get _ _ _ (.empty e) => (fs.inode e).iLock = false → (fs.inode e).iDirt = false →
    (fs.inode e).iCount = 0
  | .name i => ¬ refused flag i fs → c.inode = .entry i
  | .find _ _ => nameiFlag flag &&& O_CREAT ≠ 0 → ∀ j, c.uninit ≠ .entry j
  | _ => True

def Balanced (l l' : List InodeIx) (fs fs' : FileSystem) : Prop :=
  ∀ j, (fs'.inode j).iCount + l.count j = (fs.inode j).iCount + l'.count j

variable {fs fs' : FileSystem} {i e : InodeIx} {l l' : List InodeIx} {o : Onward} {next : AfterPut}

theorem Balanced.same (h : ∀ j, (fs'.inode j).iCount = (fs.inode j).iCount) : Balanced l l fs fs' :=
  fun j => by rw [h j]

theorem Balanced.perm (h : Balanced l l' fs fs') {l'' : List InodeIx} (hp : l'.Perm l'') :
    Balanced l l'' fs fs' :=
  fun j => (h j).trans (by rw [hp.count_eq])

theorem Balanced.trans {l'' : List InodeIx} {fs'' : FileSystem} (h : Balanced l l' fs fs')
    (h' : Balanced l' l'' fs' fs'') :
    Balanced l l'' fs fs'' := by
  intro j
  have hj := h j
  have hj' := h' j
  omega

theorem balanced_drop {m : MInode} (h : m.iCount + 1 = (fs.inode i).iCount) (l : List InodeIx) :
    Balanced (i :: l) l fs (fs.setInode i m) := by
  intro j
  by_cases hj : j = i
  · subst hj
    simp only [FileSystem.setInode, Function.update_self, List.count_cons_self]
    omega
  · have hne : i ≠ j := fun e => hj e.symm
    simp [FileSystem.setInode, hj, List.count_cons_of_ne hne]

theorem balanced_take {m : MInode} (h : m.iCount = (fs.inode i).iCount + 1) (l : List InodeIx) :
    Balanced l (i :: l) fs (fs.setInode i m) := by
  intro j
  by_cases hj : j = i
  · subst hj
    simp only [FileSystem.setInode, Function.update_self, List.count_cons_self]
    omega
  · have hne : i ≠ j := fun e => hj e.symm
    simp [FileSystem.setInode, hj, List.count_cons_of_ne hne]

@[simp] theorem AfterPut.held_onward (next : AfterPut) : next.onward.held = next.held := by
  cases next with
  | fail err => rfl
  | iget dev nr g => rfl
  | got i g =>
    cases g with
    | dir path => rfl
    | name => rfl
  | putDir dir => rfl
  | closed => rfl

theorem AfterPut.ok_onward (h : next.Ok) : next.onward.Ok fs := by
  cases next with
  | fail err => trivial
  | iget dev nr g => exact h
  | got i g =>
    cases g with
    | dir path => trivial
    | name => trivial
  | putDir dir => trivial
  | closed => trivial

structure Ready (l : List InodeIx) (fs : FileSystem) : Prop where
  pos : ∀ i ∈ l, (fs.inode i).iCount ≠ 0
  fit : ∀ i, (fs.inode i).iCount < 65535
  range : ∀ i, (fs.inode i).iDev < 65536

/-- What a step of a call brings about. An entry that loses its device was in use by
this call only. -/
structure Moved (l : List InodeIx) (fs fs' : FileSystem) (o : Onward) : Prop where
  balanced : Balanced l o.held fs fs'
  ok : o.Ok fs'
  range : ∀ j, (fs'.inode j).iDev < 65536
  device : ∀ j, (fs.inode j).iDev ≠ 0 → (fs'.inode j).iDev = 0 →
    (fs.inode j).iCount = 0 ∨ (fs.inode j).iCount = 1 ∧ j ∈ l

theorem Moved.stay (hr : Ready l fs) (hl : o.held = l) (hok : o.Ok fs) : Moved l fs fs o :=
  ⟨hl ▸ .same fun _ => rfl, hok, hr.range, fun _ h h' => absurd h' h⟩

theorem Moved.drop {m : MInode} (hr : Ready (i :: next.held) fs)
    (hm : m.iCount + 1 = (fs.inode i).iCount) (hdev : m.iDev = (fs.inode i).iDev) (hok : next.Ok) :
    Moved (i :: next.held) fs (fs.setInode i m) next.onward := by
  refine ⟨?_, next.ok_onward hok, fun j => ?_, fun j h h' => ?_⟩
  · rw [next.held_onward]
    exact balanced_drop hm next.held
  · by_cases hj : j = i
    · simpa [FileSystem.setInode, hj, hdev] using hr.range i
    · simpa [FileSystem.setInode, hj] using hr.range j
  · by_cases hj : j = i
    · simp [FileSystem.setInode, hj, hdev] at h'
      exact absurd h' (hj ▸ h)
    · simp [FileSystem.setInode, hj] at h'
      exact absurd h' h

theorem putRepeat_moved (hr : Ready (i :: next.held) fs) (hdev : (fs.inode i).iDev ≠ 0)
    (hok : next.Ok) :
    Moved (i :: next.held) fs (putRepeat i next fs).1 (putRepeat i next fs).2 := by
  have hpos := hr.pos i List.mem_cons_self
  by_cases hcount : (fs.inode i).iCount > 1
  · simp only [putRepeat, if_pos hcount]
    exact .drop hr (by simp only; omega) rfl hok
  by_cases hlink : (fs.inode i).d.iNlinks = 0
  · simp only [putRepeat, if_neg hcount, if_pos hlink]
    exact .stay hr rfl ⟨hdev, hok⟩
  by_cases hdirt : (fs.inode i).iDirt = true
  · simp only [putRepeat, if_neg hcount, if_neg hlink, if_pos hdirt]
    exact .stay hr rfl ⟨hdev, hok⟩
  · simp only [putRepeat, if_neg hcount, if_neg hlink, if_neg hdirt]
    exact .drop hr (by simp only; omega) rfl hok

theorem putStep_moved {pc : PutPc} (hr : Ready (i :: next.held) fs)
    (hok : (CallPc.put i pc next).Ok fs) (h : putStep i next fs pc = some (fs', o)) :
    Moved (i :: next.held) fs fs' o := by
  have hpos := hr.pos i List.mem_cons_self
  cases pc with
  | wait =>
    simp only [putStep] at h
    by_cases hlock : (fs.inode i).iLock = true
    · simp only [if_pos hlock, Option.some.injEq, Prod.mk.injEq] at h
      obtain ⟨rfl, rfl⟩ := h
      exact .stay hr rfl hok
    simp only [if_neg hlock, if_neg hpos] at h
    by_cases hpipe : (fs.inode i).iPipe = true
    · by_cases hcount : (fs.inode i).iCount > 1
      · simp only [if_pos hpipe, if_pos hcount, Option.some.injEq, Prod.mk.injEq] at h
        obtain ⟨rfl, rfl⟩ := h
        exact .drop hr (by simp only; omega) rfl hok
      · simp only [if_pos hpipe, if_neg hcount, Option.some.injEq, Prod.mk.injEq] at h
        obtain ⟨rfl, rfl⟩ := h
        exact .drop hr (by simp only; omega) rfl hok
    by_cases hdev : (fs.inode i).iDev = 0
    · simp only [if_neg hpipe, if_pos hdev, Option.some.injEq, Prod.mk.injEq] at h
      obtain ⟨rfl, rfl⟩ := h
      exact .drop hr (by simp only; omega) rfl hok
    by_cases hblk : S_ISBLK (fs.inode i).d.iMode
    · simp only [if_neg hpipe, if_neg hdev, if_pos hblk, Option.some.injEq, Prod.mk.injEq] at h
      obtain ⟨rfl, rfl⟩ := h
      exact .stay hr rfl ⟨hdev, hok⟩
    · simp only [if_neg hpipe, if_neg hdev, if_neg hblk, Option.some.injEq] at h
      have hmoved := putRepeat_moved hr hdev hok
      rwa [h] at hmoved
  | again =>
    simp only [putStep] at h
    split at h
    · cases h
      exact .stay hr rfl hok
    · rw [Option.some.injEq] at h
      have hmoved := putRepeat_moved hr hok.1 hok.2
      rwa [h] at hmoved
  | free =>
    simp only [putStep, if_neg hok.1] at h
    split at h
    · cases h
    rename_i hone
    split at h
    · cases h
    · cases h
      refine ⟨?_, next.ok_onward hok.2, fun j => ?_, fun j hj hj' => ?_⟩
      · rw [next.held_onward]
        exact balanced_drop (show MInode.zero.iCount + 1 = _ by simp only [MInode.zero]; omega)
          next.held
      · by_cases hj : j = i
        · simp [FileSystem.setInode, hj, MInode.zero]
        · simpa [FileSystem.setInode, hj] using hr.range j
      · by_cases hji : j = i
        · rw [hji]
          exact .inr ⟨by omega, List.mem_cons_self⟩
        · simp [FileSystem.setInode, hji] at hj'
          exact absurd hj' hj

theorem getScan_moved {dev : Nat} (nr : Nat) (g : Getter) (hr : Ready [e] fs)
    (hdev : dev ≠ 0 ∧ dev < 65536) :
    Moved [e] fs (getScan dev nr g e fs).1 (getScan dev nr g e fs).2 := by
  unfold getScan
  cases findInode fs dev nr with
  | some i => exact .stay hr rfl hdev
  | none =>
    have hmod : dev % 65536 = dev := Nat.mod_eq_of_lt hdev.2
    refine ⟨.same fun j => ?_, hdev, fun j => ?_, fun j h h' => ?_⟩
    · by_cases hj : j = e
      · simp [FileSystem.setInode, hj]
      · simp [FileSystem.setInode, hj]
    · by_cases hj : j = e
      · simpa [FileSystem.setInode, hj] using Nat.mod_lt dev (by decide)
      · simpa [FileSystem.setInode, hj] using hr.range j
    · by_cases hj : j = e
      · simp [FileSystem.setInode, hj, hmod] at h'
        exact absurd h' hdev.1
      · simp [FileSystem.setInode, hj] at h'
        exact absurd h' h

theorem getEmpty_moved {dev : Nat} (nr : Nat) (g : Getter) (hr : Ready [] fs)
    (hdev : dev ≠ 0 ∧ dev < 65536) (hzero : (fs.inode e).iCount = 0) :
    let fs₁ := fs.setInode e { MInode.zero with iCount := 1 }
    Moved [] fs (getScan dev nr g e fs₁).1 (getScan dev nr g e fs₁).2 := by
  intro fs₁
  have hself : fs₁.inode e = { MInode.zero with iCount := 1 } := Function.update_self ..
  have hrest : ∀ j, j ≠ e → fs₁.inode j = fs.inode j := fun j hj => Function.update_of_ne hj ..
  have htake : Balanced [] [e] fs fs₁ := balanced_take (by rw [hzero]) []
  have hr₁ : Ready [e] fs₁ := by
    refine ⟨fun j hj => ?_, fun j => ?_, fun j => ?_⟩
    · rw [List.mem_singleton.mp hj, hself]
      exact Nat.one_ne_zero
    · by_cases hj : j = e
      · rw [hj, hself]
        decide
      · rw [hrest j hj]
        exact hr.fit j
    · by_cases hj : j = e
      · rw [hj, hself]
        decide
      · rw [hrest j hj]
        exact hr.range j
  have hscan := getScan_moved nr g hr₁ hdev
  have hheld : (getScan dev nr g e fs₁).2.held = [e] := by
    unfold getScan
    cases findInode fs₁ dev nr with
    | none => rfl
    | some i => rfl
  refine ⟨?_, hscan.ok, hscan.range, fun j h h' => ?_⟩
  · have hback := hscan.balanced
    rw [hheld] at hback ⊢
    exact htake.trans hback
  · by_cases hj : j = e
    · exact .inl (hj ▸ hzero)
    · have hdev' := hscan.device j (by rwa [hrest j hj]) h'
      rw [hrest j hj] at hdev'
      exact hdev'.imp id fun h => absurd (List.mem_singleton.mp h.2) hj

theorem Moved.take {m : MInode} (hr : Ready l fs) (hm : m.iCount = (fs.inode i).iCount + 1)
    (hdev : m.iDev = (fs.inode i).iDev) (hl : (i :: l).Perm o.held) (hok : o.Ok (fs.setInode i m)) :
    Moved l fs (fs.setInode i m) o := by
  refine ⟨(balanced_take hm l).perm hl, hok, fun j => ?_, fun j h h' => ?_⟩
  · by_cases hj : j = i
    · simpa [FileSystem.setInode, hj, hdev] using hr.range i
    · simpa [FileSystem.setInode, hj] using hr.range j
  · by_cases hj : j = i
    · simp [FileSystem.setInode, hj, hdev] at h'
      exact absurd h' (hj ▸ h)
    · simp [FileSystem.setInode, hj] at h'
      exact absurd h' h

theorem getStep_moved {dev nr flag : Nat} {g : Getter} {c : Finds} {pc : GetPc}
    (hr : Ready pc.held fs) (hok : (CallPc.get dev nr g pc).Ok fs)
    (hsound : SoundStep flag c fs (.get dev nr g pc)) (h : getStep dev nr g fs pc = some (fs', o)) :
    Moved pc.held fs fs' o := by
  cases pc with
  | start =>
    by_cases hdev : dev = 0
    · simp [getStep, hdev] at h
    · simp only [getStep, if_neg hdev] at h
      obtain ⟨e, -, hpair⟩ := Option.map_eq_some_iff.mp h
      obtain ⟨rfl, rfl⟩ := Prod.mk.inj hpair
      exact ⟨.same fun _ => rfl, ⟨hdev, hok⟩, hr.range, fun _ h h' => absurd h' h⟩
  | empty e =>
    by_cases hwait : (fs.inode e).iLock = true ∨ (fs.inode e).iDirt = true
    · simp only [getStep, if_pos hwait, Option.some.injEq, Prod.mk.injEq] at h
      obtain ⟨rfl, rfl⟩ := h
      exact .stay hr rfl hok
    · simp only [getStep, if_neg hwait, Option.some.injEq] at h
      simp only [not_or, Bool.not_eq_true] at hwait
      have hmoved := getEmpty_moved nr g hr hok (hsound hwait.1 hwait.2)
      simp only [h] at hmoved
      exact hmoved
  | found e i =>
    simp only [getStep] at h
    by_cases hlock : (fs.inode i).iLock = true
    · simp only [if_pos hlock, Option.some.injEq, Prod.mk.injEq] at h
      obtain ⟨rfl, rfl⟩ := h
      exact .stay hr rfl hok
    by_cases hother : (fs.inode i).iDev ≠ dev ∨ (fs.inode i).iNum ≠ nr
    · simp only [if_neg hlock, if_pos hother, Option.some.injEq] at h
      have hmoved := getScan_moved nr g hr hok
      rwa [h] at hmoved
    by_cases hmount : (fs.inode i).iMount = true
    · simp [hlock, hother, hmount] at h
    · simp only [if_neg hlock, if_neg hother, if_neg hmount, Option.some.injEq, Prod.mk.injEq] at h
      obtain ⟨rfl, rfl⟩ := h
      have hfit := hr.fit i
      exact .take hr (Nat.mod_eq_of_lt (by omega)) rfl (List.Perm.swap e i []) trivial
  | reading e =>
    obtain ⟨rfl, rfl⟩ := Prod.mk.inj (Option.some.inj h)
    exact .stay hr (AfterPut.held_onward _) (AfterPut.ok_onward trivial)

theorem openEntry_moved (hr : Ready [i] fs) : Moved [i] fs fs (openEntry i fs) := by
  unfold openEntry
  simp only
  split
  · exact .stay hr rfl trivial
  · exact .stay hr rfl trivial

theorem dirStart_moved {path : List Byte} (hr : Ready [] fs)
    (h : dirStart path fs = some (fs', o)) : Moved [] fs fs' o := by
  by_cases hpanic : unused fs.root fs = true ∨ unused fs.pwd fs = true
  · simp [dirStart, hpanic] at h
  · simp only [dirStart, if_neg hpanic] at h
    split at h
    · obtain ⟨rfl, rfl⟩ := Prod.mk.inj (Option.some.inj h)
      exact .stay hr rfl trivial
    · cases h
    · rename_i i _
      obtain ⟨rfl, rfl⟩ := Prod.mk.inj (Option.some.inj h)
      have hfit := hr.fit i
      exact .take hr (Nat.mod_eq_of_lt (by omega)) rfl (List.Perm.refl _) trivial

theorem dirStep_moved {flag : Nat} {path : List Byte} (hr : Ready [i] fs) :
    Moved [i] fs fs (dirStep flag path i fs) := by
  unfold dirStep
  split
  · exact .stay hr rfl trivial
  split
  · split
    · exact openEntry_moved hr
    · exact .stay hr rfl trivial
  · exact .stay hr rfl trivial

theorem findStep_moved {flag : Nat} {path : List Byte} {c : Finds} (hr : Ready [i] fs)
    (hsound : SoundStep flag c fs (.find path i)) (h : findStep flag path i c fs = some (fs', o)) :
    Moved [i] fs fs' o := by
  have hput : ∀ {next : AfterPut}, some (fs, Onward.at (.put i .wait next)) = some (fs', o) →
      next.held = [] → next.Ok → Moved [i] fs fs' o := by
    intro next he hheld hok
    obtain ⟨rfl, rfl⟩ := Prod.mk.inj (Option.some.inj he)
    exact .stay hr (by simp [Onward.held, CallPc.held, hheld]) hok
  unfold findStep at h
  simp only at h
  split at h
  · exact hput h rfl trivial
  · exact hput h rfl (hr.range i)
  · split at h
    · exact hput h rfl trivial
    · exact hput h rfl (hr.range i)
  · split at h
    · exact hput h rfl trivial
    rename_i hcreat
    split at h
    · exact hput h rfl trivial
    split at h
    · exact hput h rfl trivial
    · cases h
    · rename_i j huninit
      exact absurd huninit (hsound hcreat j)

theorem nameStep_moved {flag : Nat} {c : Finds} (hr : Ready [i] fs)
    (hsound : SoundStep flag c fs (.name i)) (h : nameStep flag i c fs = some (fs', o)) :
    Moved [i] fs fs' o := by
  by_cases href : refused flag i fs
  · simp only [nameStep, if_pos href, Option.some.injEq, Prod.mk.injEq] at h
    obtain ⟨rfl, rfl⟩ := h
    exact .stay hr rfl trivial
  · simp only [nameStep, if_neg href, hsound href, Option.some.injEq, Prod.mk.injEq] at h
    obtain ⟨rfl, rfl⟩ := h
    exact openEntry_moved hr

theorem callStep_moved {flag : Nat} {c : Finds} {pc : CallPc} (hr : Ready pc.held fs)
    (hok : pc.Ok fs) (hsound : SoundStep flag c fs pc) (h : callStep flag c fs pc = some (fs', o)) :
    Moved pc.held fs fs' o := by
  cases pc with
  | start path => exact dirStart_moved hr h
  | dir path i =>
    obtain ⟨rfl, rfl⟩ := Prod.mk.inj (Option.some.inj h)
    exact dirStep_moved hr
  | find path i => exact findStep_moved hr hsound h
  | get dev nr g pc => exact getStep_moved hr hok hsound h
  | name i => exact nameStep_moved hr hsound h
  | put i pc next => exact putStep_moved hr hok h

section System
variable {ι : Type*} [Fintype ι] [DecidableEq ι] {s t : OpenSystem ι} {p q : ι} {flag : Nat}
  {pc : CallPc}
  {pinned : List InodeIx}

def Task.inodes (t : Task) : List InodeIx := t.pwd.entries ++ t.root.entries ++ t.executable.entries

def OpenSystem.kept (s : OpenSystem ι) (p : ι) : List InodeIx :=
  if (s.files.proc p).isSome then (s.task p).inodes else []

def OpenSystem.held (s : OpenSystem ι) (p : ι) : List InodeIx :=
  (s.call p).elim [] fun c => c.2.held

def holdings (s : OpenSystem ι) : ι ⊕ Fin NR_FILE → List InodeIx :=
  Sum.elim (fun p => s.kept p ++ s.held p) (fileInode s.files)

/-- Every reference to an inode is counted, and none besides. `pinned` are those of the
super blocks, which these calls leave alone. -/
structure RefsCounted (pinned : List InodeIx) (s : OpenSystem ι) : Prop where
  files : FilesCounted s.files
  count : ∀ i, (s.fs.inode i).iCount = total (holdings s) i + pinned.count i
  range : ∀ i, (s.fs.inode i).iDev < 65536
  process : ∀ p, (s.call p).isSome → (s.files.proc p).isSome
  ok : ∀ p flag pc, s.call p = some (flag, pc) → pc.Ok s.fs

def Sound (s : OpenSystem ι) : SysAct ι → Prop
  | .go p c =>
    match s.call p with
    | none => True
    | some (flag, pc) => SoundStep flag c (s.fs.seenBy (s.task p)) pc
  | _ => True

omit [Fintype ι] [DecidableEq ι] in
theorem held_of_call (hcall : s.call p = some (flag, pc)) :
    s.held p = pc.held := by rw [OpenSystem.held, hcall]; rfl

omit [Fintype ι] [DecidableEq ι] in
theorem held_idle (hcall : s.call p = none) : s.held p = [] := by rw [OpenSystem.held, hcall]; rfl

theorem CallPc.held_length (pc : CallPc) : pc.held.length ≤ 2 := by
  cases pc with
  | start path => exact Nat.zero_le 2
  | dir path i => exact Nat.le_succ 1
  | find path i => exact Nat.le_succ 1
  | get dev nr g pc =>
    cases pc with
    | start => exact Nat.zero_le 2
    | empty e => exact Nat.zero_le 2
    | found e i => exact Nat.le_succ 1
    | reading e => exact Nat.le_succ 1
  | name i => exact Nat.le_succ 1
  | put i pc next =>
    cases next with
    | fail err => exact Nat.le_succ 1
    | iget dev nr g => exact Nat.le_succ 1
    | got i g => exact Nat.le_refl 2
    | putDir dir => exact Nat.le_refl 2
    | closed => exact Nat.le_succ 1

omit [Fintype ι] [DecidableEq ι] in
theorem kept_length (s : OpenSystem ι) (p : ι) : (s.kept p).length ≤ 3 := by
  unfold OpenSystem.kept
  split
  · have hpwd := entries_length (s.task p).pwd
    have hroot := entries_length (s.task p).root
    have hexec := entries_length (s.task p).executable
    simp only [Task.inodes, List.length_append]
    omega
  · exact Nat.zero_le 3

omit [DecidableEq ι] in
theorem holdings_length (s : OpenSystem ι) (k : ι ⊕ Fin NR_FILE) : (holdings s k).length ≤ 5 := by
  cases k with
  | inl p =>
    have hkept := kept_length s p
    have hheld : (s.held p).length ≤ 2 := by
      unfold OpenSystem.held
      cases s.call p with
      | none => exact Nat.zero_le 2
      | some c => exact c.2.held_length
    simp only [holdings, Sum.elim_inl, List.length_append]
    omega
  | inr f =>
    have hfile := fileInode_length s.files f
    simp only [holdings, Sum.elim_inr]
    omega

theorem CallPc.Ok.mono {fs fs' : FileSystem} (h : pc.Ok fs)
    (hdev : ∀ i ∈ pc.held, (fs.inode i).iDev ≠ 0 → (fs'.inode i).iDev ≠ 0) : pc.Ok fs' := by
  cases pc with
  | start path => trivial
  | dir path i => trivial
  | find path i => trivial
  | get dev nr g pc =>
    cases pc with
    | start => exact h
    | empty e => exact h
    | found e i => exact h
    | reading e => exact h
  | name i => trivial
  | put i pc next =>
    cases pc with
    | wait => exact h
    | again => exact ⟨hdev i List.mem_cons_self h.1, h.2⟩
    | free => exact ⟨hdev i List.mem_cons_self h.1, h.2⟩

variable (htasks : Fintype.card ι ≤ 64) (hpinned : pinned.length ≤ 16)

include htasks hpinned in
omit [DecidableEq ι] in
theorem RefsCounted.few (h : RefsCounted pinned s) (i : InodeIx) : (s.fs.inode i).iCount ≤ 656 := by
  have htotal := total_le (holdings_length s) i
  have hpin : pinned.count i ≤ pinned.length := List.count_le_length
  rw [Fintype.card_sum, Fintype.card_fin] at htotal
  rw [h.count i]
  have hfile : NR_FILE = 64 := rfl
  omega

omit [DecidableEq ι] in
theorem RefsCounted.held_pos (h : RefsCounted pinned s) (hcall : s.call p = some (flag, pc))
    {i : InodeIx} (hi : i ∈ pc.held) : (s.fs.inode i).iCount ≠ 0 := by
  have hle := count_le_total (holdings s) (.inl p) i
  have hmem : 0 < ((holdings s) (.inl p)).count i := by
    refine List.count_pos_iff.mpr (List.mem_append_right _ ?_)
    rw [OpenSystem.held, hcall]
    exact hi
  rw [h.count i]
  omega

include htasks hpinned in
omit [DecidableEq ι] in
theorem RefsCounted.ready (h : RefsCounted pinned s) (hcall : s.call p = some (flag, pc)) :
    Ready pc.held (s.fs.seenBy (s.task p)) :=
  ⟨fun _ hi => h.held_pos hcall hi, fun i => Nat.lt_of_le_of_lt (h.few htasks hpinned i)
    (by decide), h.range⟩

theorem RefsCounted.moved_count (h : RefsCounted pinned s) (hcall : s.call p = some (flag, pc))
    {fs' : FileSystem} {o : Onward} (hm : Moved pc.held (s.fs.seenBy (s.task p)) fs' o)
    (i : InodeIx) :
    (fs'.inode i).iCount = total (Function.update (holdings s) (.inl p) (s.kept p ++ o.held)) i +
      pinned.count i := by
  have hbal : (fs'.inode i).iCount + pc.held.count i = (s.fs.inode i).iCount + o.held.count i :=
    hm.balanced i
  have hupd := total_update (holdings s) (.inl p) (s.kept p ++ o.held) i
  have hold : holdings s (.inl p) = s.kept p ++ pc.held := by
    simp [holdings, OpenSystem.held, hcall]
  have hcount := h.count i
  simp only [hold, List.count_append] at hupd
  omega

theorem RefsCounted.other_ok (h : RefsCounted pinned s) (hcall : s.call p = some (flag, pc))
    {fs' : FileSystem} {o : Onward} (hm : Moved pc.held (s.fs.seenBy (s.task p)) fs' o)
    (hq : q ≠ p) {flag' : Nat} {pc' : CallPc} (hcall' : s.call q = some (flag', pc')) :
    pc'.Ok fs' := by
  refine (h.ok q flag' pc' hcall').mono fun i hi hdev hzero => ?_
  have hmem : i ∈ holdings s (.inl q) := by
    refine List.mem_append_right _ ?_
    rw [OpenSystem.held, hcall']
    exact hi
  cases hm.device i hdev hzero with
  | inl hfree => exact h.held_pos hcall' hi hfree
  | inr hone =>
    have hmem' : i ∈ holdings s (.inl p) := by
      refine List.mem_append_right _ ?_
      rw [OpenSystem.held, hcall]
      exact hone.2
    have hcount := h.count i
    have hone' : (s.fs.inode i).iCount = 1 := hone.1
    have hsame := sole_holder (by omega : total (holdings s) i ≤ 1) hmem hmem'
    exact hq (Sum.inl.inj hsame)

theorem RefsCounted.of_moved (h : RefsCounted pinned s) (hcall : s.call p = some (flag, pc))
    {fs' : FileSystem} {o : Onward} (hm : Moved pc.held (s.fs.seenBy (s.task p)) fs' o)
    (hfiles : FilesCounted t.files) (hin : t.fs.inode = fs'.inode)
    (hother : ∀ q, q ≠ p → t.call q = s.call q)
    (hproc : ∀ q, (t.files.proc q).isSome = (s.files.proc q).isSome)
    (hself : ∀ flag pc, t.call p = some (flag, pc) → pc.Ok fs')
    (htotal : ∀ i, total (holdings t) i =
      total (Function.update (holdings s) (.inl p) (s.kept p ++ o.held)) i) :
    RefsCounted pinned t := by
  have hdev : ∀ {pc : CallPc}, pc.Ok fs' → pc.Ok t.fs := fun hok => hok.mono fun i _ hne => by
    rwa [hin]
  refine ⟨hfiles, fun i => ?_, fun i => ?_, fun q hq => ?_, fun q flag' pc' hq => ?_⟩
  · rw [hin, htotal i]
    exact h.moved_count hcall hm i
  · rw [hin]
    exact hm.range i
  · rw [hproc q]
    by_cases hqp : q = p
    · rw [hqp]
      exact h.process p (by rw [hcall]; rfl)
    · exact h.process q (by rwa [hother q hqp] at hq)
  · by_cases hqp : q = p
    · exact hdev (hself flag' pc' (hqp ▸ hq))
    · rw [hother q hqp] at hq
      exact hdev (h.other_ok hcall hm hqp hq)

omit [Fintype ι] in
theorem put_proc {files : OpenFiles ι} {d d' : Descriptors} (hp : files.proc p = some d)
    (o : Option (Fin NR_OPEN × Fin NR_FILE)) (table : FileTable) (q : ι) :
    ((files.put p d' o table).proc q).isSome = (files.proc q).isSome := by
  by_cases hq : q = p
  · simp [OpenFiles.put, hq, hp]
  · simp [OpenFiles.put, hq]

omit [Fintype ι] in
theorem fileStep_openEnd_proc {files files' : OpenFiles ι} {e : OpenEnd} {ev : Option FileEvent}
    (hst : fileStep files (.openEnd p e) = some (ev, files')) (q : ι) :
    (files'.proc q).isSome = (files.proc q).isSome := by
  obtain ⟨d, hp, hs⟩ := Option.bind_eq_some_iff.mp hst
  obtain ⟨⟨fd, f⟩, ho, hs⟩ := Option.map_eq_some_iff.mp hs
  obtain rfl := (Prod.mk.inj hs).2
  exact put_proc hp _ _ q

omit [Fintype ι] in
theorem fileStep_openStart_proc {files files' : OpenFiles ι} {ev : Option FileEvent}
    (hst : fileStep files (.openStart p) = some (ev, files')) :
    (files.proc p).isSome ∧ ∀ q, (files'.proc q).isSome = (files.proc q).isSome := by
  obtain ⟨d, hd, hs⟩ := Option.map_eq_some_iff.mp hst
  obtain ⟨-, hp⟩ := caller_some hd
  obtain rfl := (Prod.mk.inj hs).2
  exact ⟨by rw [hp]; rfl, put_proc hp _ _⟩

omit [Fintype ι] in
theorem fileStep_close_proc {files files' : OpenFiles ι} {fd : Nat} {ev : Option FileEvent}
    (hst : fileStep files (.close p fd) = some (ev, files')) :
    (files.proc p).isSome ∧ ∀ q, (files'.proc q).isSome = (files.proc q).isSome := by
  obtain ⟨d, hd, hs⟩ := Option.bind_eq_some_iff.mp hst
  obtain ⟨-, hp⟩ := caller_some hd
  obtain ⟨r, -, hs⟩ := Option.map_eq_some_iff.mp hs
  obtain rfl := (Prod.mk.inj hs).2
  exact ⟨by rw [hp]; rfl, put_proc hp _ _⟩

omit [Fintype ι] in
theorem fileStep_dup_proc {files files' : OpenFiles ι} {fildes : Nat} {ev : Option FileEvent}
    (hst : fileStep files (.dup p fildes) = some (ev, files')) (q : ι) :
    (files'.proc q).isSome = (files.proc q).isSome := by
  obtain ⟨d, hd, hs⟩ := Option.map_eq_some_iff.mp hst
  obtain ⟨-, hp⟩ := caller_some hd
  obtain rfl := (Prod.mk.inj hs).2
  exact put_proc hp _ _ q

/-- The holdings where only `p` is inside another call, or none, and a file may have
been filled in or given up. -/
theorem holdings_update_file {f : Fin NR_FILE} {m : List InodeIx}
    (hfile : fileInode t.files = Function.update (fileInode s.files) f m)
    (hother : ∀ q, q ≠ p → t.call q = s.call q)
    (hproc : ∀ q, (t.files.proc q).isSome = (s.files.proc q).isSome)
    (htask : ∀ q, (t.task q).inodes = (s.task q).inodes) (hl : t.held p = l) :
    holdings t = Function.update (Function.update (holdings s) (.inl p) (s.kept p ++ l))
      (.inr f) m := by
  have hkept : ∀ q, t.kept q = s.kept q := fun q => by simp only [OpenSystem.kept, hproc, htask]
  funext k
  cases k with
  | inl q =>
    rw [Function.update_of_ne (fun e => by cases e)]
    by_cases hq : q = p
    · simp [holdings, hq, hkept, hl]
    · rw [Function.update_of_ne (fun e => hq (Sum.inl.inj e))]
      simp [holdings, hkept, OpenSystem.held, hother q hq]
  | inr g =>
    have hnew : holdings t (.inr g) = Function.update (fileInode s.files) f m g := congrFun hfile g
    by_cases hg : g = f
    · rw [hnew, hg, Function.update_self, Function.update_self]
    · rw [hnew, Function.update_of_ne hg, Function.update_of_ne (fun e => hg (Sum.inr.inj e)),
        Function.update_of_ne (fun e => by cases e)]
      rfl

theorem holdings_update (hfile : fileInode t.files = fileInode s.files)
    (hother : ∀ q, q ≠ p → t.call q = s.call q)
    (hproc : ∀ q, (t.files.proc q).isSome = (s.files.proc q).isSome)
    (htask : ∀ q, (t.task q).inodes = (s.task q).inodes) (hl : t.held p = l) :
    holdings t = Function.update (holdings s) (.inl p) (s.kept p ++ l) := by
  let f : Fin NR_FILE := ⟨0, by decide⟩
  have hsame : fileInode t.files = Function.update (fileInode s.files) f (fileInode s.files f) := by
    rw [hfile, Function.update_eq_self]
  rw [holdings_update_file hsame hother hproc htask hl]
  refine Function.update_eq_self_iff.mpr ?_
  rw [Function.update_of_ne (fun e => by cases e)]
  rfl

theorem total_handed {L : ι ⊕ Fin NR_FILE → List InodeIx} {f : Fin NR_FILE}
    {kept m m' : List InodeIx} (a b : List InodeIx) (hf : L (.inr f) = m)
    (hsum : ∀ j, a.count j + m.count j = b.count j + m'.count j) (j : InodeIx) :
    total (Function.update (Function.update L (.inl p) (kept ++ b)) (.inr f) m') j =
      total (Function.update L (.inl p) (kept ++ a)) j := by
  have hfile := total_update (Function.update L (.inl p) (kept ++ b)) (.inr f) m' j
  have ha := total_update L (.inl p) (kept ++ a) j
  have hb := total_update L (.inl p) (kept ++ b) j
  have hj := hsum j
  rw [Function.update_of_ne (fun e => by cases e), hf] at hfile
  simp only [List.count_append] at ha hb
  omega

theorem getTerminal_inodes (m : MInode) (t : Task) (fs : FileSystem) :
    (getTerminal m t fs).1.inodes = t.inodes ∧ (getTerminal m t fs).2.inode = fs.inode := by
  unfold getTerminal
  split
  · exact ⟨rfl, rfl⟩
  · exact ⟨rfl, rfl⟩

omit [DecidableEq ι] in
include htasks in
theorem fewFiles : Fintype.card ι * NR_OPEN < 65536 := by
  have hle : Fintype.card ι * NR_OPEN ≤ 64 * 20 := Nat.mul_le_mul_right 20 htasks
  omega

/-- What is left of a step inside a call once its stretch of code has ended in `o`. -/
def Ended (s t : OpenSystem ι) (p : ι) (flag : Nat) : Onward → Prop
  | .at pc => t.call p = some (flag, pc) ∧ t.files = s.files
  | .failed err => t.call p = none ∧ t.ret p = -err ∧
      ∃ ev, fileStep s.files (.openEnd p .failed) = some (ev, t.files)
  | .opened i => t.call p = none ∧ ∃ ev fd f iMode, s.files.opening p = some (fd, f) ∧
    t.ret p = (fd.val : Int) ∧
      fileStep s.files (.openEnd p (.opened (.entry i) iMode flag)) = some (ev, t.files)
  | .closed => t.call p = none ∧ t.ret p = 0 ∧ t.files = s.files

structure Went (s t : OpenSystem ι) (p : ι) (flag : Nat) (fs' : FileSystem) (o : Onward) :
  Prop where
  inode : t.fs.inode = fs'.inode
  task : ∀ q, (t.task q).inodes = (s.task q).inodes
  other : ∀ q, q ≠ p → t.call q = s.call q
  ended : Ended s t p flag o

omit [Fintype ι] in
theorem sysStep_go {c : Finds} (hst : sysStep s (.go p c) = some t) :
    ∃ flag pc fs' o, s.call p = some (flag, pc) ∧
    callStep flag c (s.fs.seenBy (s.task p)) pc = some (fs', o) ∧
      Went s t p flag fs' o := by
  obtain ⟨⟨flag, pc⟩, hcall, hst⟩ := Option.bind_eq_some_iff.mp hst
  obtain ⟨⟨fs', o⟩, hstep, hst⟩ := Option.bind_eq_some_iff.mp hst
  refine ⟨flag, pc, fs', o, hcall, hstep, ?_⟩
  have hother : ∀ (x : Option (Nat × CallPc)) (q : ι), q ≠ p →
    Function.update s.call p x q = s.call q :=
    fun x q hq => Function.update_of_ne hq ..
  cases o with
  | «at» pc' =>
    obtain rfl := Option.some.inj hst
    exact ⟨rfl, fun _ => rfl, hother _, Function.update_self .., rfl⟩
  | failed err =>
    obtain ⟨⟨ev, files'⟩, hfile, rfl⟩ := Option.map_eq_some_iff.mp hst
    exact ⟨rfl, fun _ => rfl, hother _, Function.update_self .., Function.update_self .., ev, hfile⟩
  | opened i =>
    obtain ⟨⟨fd, f⟩, hopen, hst⟩ := Option.bind_eq_some_iff.mp hst
    obtain ⟨⟨ev, files'⟩, hfile, rfl⟩ := Option.map_eq_some_iff.mp hst
    obtain ⟨hinodes, hfs⟩ := getTerminal_inodes (fs'.inode i) (s.task p) fs'
    refine ⟨hfs, fun q => ?_, hother _, Function.update_self .., ev, fd, f, _, hopen,
      Function.update_self .., hfile⟩
    by_cases hq : q = p
    · simp only [hq, Function.update_self]
      exact hinodes
    · simp only [Function.update_of_ne hq]
  | closed =>
    obtain rfl := Option.some.inj hst
    exact ⟨rfl, fun _ => rfl, hother _, Function.update_self .., Function.update_self .., rfl⟩

include htasks hpinned in
theorem RefsCounted.go (h : RefsCounted pinned s) {c : Finds} (hsound : Sound s (.go p c))
    (hst : sysStep s (.go p c) = some t) : RefsCounted pinned t := by
  obtain ⟨flag, pc, fs', o, hcall, hstep, hwent⟩ := sysStep_go hst
  simp only [Sound, hcall] at hsound
  have hok : pc.Ok (s.fs.seenBy (s.task p)) := (h.ok p flag pc hcall).mono fun _ _ hne => hne
  have hm := callStep_moved (h.ready htasks hpinned hcall) hok hsound hstep
  have hended := hwent.ended
  cases o with
  | «at» pc' =>
    obtain ⟨hself, hfiles⟩ := hended
    have hproc : ∀ q, (t.files.proc q).isSome = (s.files.proc q).isSome := fun q => by rw [hfiles]
    refine h.of_moved hcall hm (hfiles ▸ h.files) hwent.inode hwent.other hproc ?_ fun i => ?_
    · intro flag' pc'' hp
      obtain ⟨rfl, rfl⟩ := Prod.mk.inj (Option.some.inj (hself.symm.trans hp))
      exact hm.ok
    · rw [holdings_update (by rw [hfiles]) hwent.other hproc hwent.task (held_of_call hself)]
      rfl
  | failed err =>
    obtain ⟨hself, -, ev, hfile⟩ := hended
    refine h.of_moved hcall hm (h.files.step (fewFiles htasks) hfile) hwent.inode hwent.other
      (fileStep_openEnd_proc hfile) ?_ fun i => ?_
    · intro flag' pc' hp
      rw [hself] at hp
      cases hp
    · rw [holdings_update (fileInode_failed h.files hfile) hwent.other
        (fileStep_openEnd_proc hfile) hwent.task
        (held_idle hself)]
      rfl
  | opened i =>
    obtain ⟨hself, ev, fd, f, iMode, hopen, -, hfile⟩ := hended
    obtain ⟨hempty, hnew⟩ := fileInode_opened h.files hopen hfile
    refine h.of_moved hcall hm (h.files.step (fewFiles htasks) hfile) hwent.inode hwent.other
      (fileStep_openEnd_proc hfile) ?_ fun j => ?_
    · intro flag' pc' hp
      rw [hself] at hp
      cases hp
    · rw [holdings_update_file hnew hwent.other (fileStep_openEnd_proc hfile) hwent.task
        (held_idle hself)]
      exact total_handed [i] [] hempty (fun j => by simp) j
  | closed =>
    obtain ⟨hself, -, hfiles⟩ := hended
    have hproc : ∀ q, (t.files.proc q).isSome = (s.files.proc q).isSome := fun q => by rw [hfiles]
    refine h.of_moved hcall hm (hfiles ▸ h.files) hwent.inode hwent.other hproc ?_ fun i => ?_
    · intro flag' pc' hp
      rw [hself] at hp
      cases hp
    · rw [holdings_update (by rw [hfiles]) hwent.other hproc hwent.task (held_idle hself)]
      rfl

theorem RefsCounted.of_files (h : RefsCounted pinned s) (hfs : t.fs = s.fs)
    (hfiles : FilesCounted t.files) (hother : ∀ q, q ≠ p → t.call q = s.call q)
    (hproc : ∀ q, (t.files.proc q).isSome = (s.files.proc q).isSome)
    (hself : ∀ flag pc, t.call p = some (flag, pc) → pc.Ok s.fs ∧ (s.files.proc p).isSome)
    (htotal : ∀ i, total (holdings t) i = total (holdings s) i) : RefsCounted pinned t := by
  refine ⟨hfiles, fun i =>
    by rw [hfs, htotal i, h.count i], hfs ▸ h.range, fun q hq => ?_, fun q flag' pc' hq => ?_⟩
  · rw [hproc q]
    by_cases hqp : q = p
    · obtain ⟨⟨flag', pc'⟩, hc⟩ := Option.isSome_iff_exists.mp hq
      exact hqp ▸ (hself flag' pc' (hqp ▸ hc)).2
    · exact h.process q (by rwa [hother q hqp] at hq)
  · rw [hfs]
    by_cases hqp : q = p
    · exact (hself flag' pc' (hqp ▸ hq)).1
    · exact h.ok q flag' pc' (by rwa [hother q hqp] at hq)

/-- The process has no call under way and comes into none that holds something. -/
theorem holdings_idle (hcall : s.call p = none) (hfile : fileInode t.files = fileInode s.files)
    (hother : ∀ q, q ≠ p → t.call q = s.call q)
    (hproc : ∀ q, (t.files.proc q).isSome = (s.files.proc q).isSome)
    (htask : ∀ q, (t.task q).inodes = (s.task q).inodes) (hl : t.held p = []) :
    holdings t = holdings s := by
  rw [holdings_update hfile hother hproc htask hl]
  refine Function.update_eq_self_iff.mpr ?_
  simp [holdings, OpenSystem.held, hcall]

include htasks in
theorem RefsCounted.openStart (h : RefsCounted pinned s) {path : List Byte}
    (hst : sysStep s (.openStart p path flag) = some t) : RefsCounted pinned t := by
  by_cases hidle : (s.call p).isSome = true
  · simp [sysStep, hidle] at hst
  have hcall : s.call p = none := by simpa using hidle
  simp only [sysStep, hidle] at hst
  obtain ⟨⟨ev, files'⟩, hfile, hst⟩ := Option.map_eq_some_iff.mp hst
  obtain ⟨hp, hproc⟩ := fileStep_openStart_proc hfile
  have hfiles := h.files.step (fewFiles htasks) hfile
  have hkeep := fileInode_openStart h.files hfile
  cases hopen : files'.opening p with
  | none =>
    simp only [hopen] at hst
    subst hst
    refine h.of_files (p := p) rfl hfiles (fun _ _ => rfl) hproc (fun flag pc hq => ?_) fun i => ?_
    · rw [hcall] at hq
      cases hq
    · exact congrArg (total · i) (holdings_idle hcall hkeep (fun _ _ => rfl) hproc (fun _ => rfl)
      (held_idle hcall))
  | some r =>
    simp only [hopen] at hst
    subst hst
    have hother : ∀ q, q ≠ p → Function.update s.call p (some (flag, .start path)) q =
        s.call q := fun q hq =>
      Function.update_of_ne hq ..
    refine h.of_files rfl hfiles hother hproc (fun flag' pc hq => ?_) fun i => ?_
    · simp only [Function.update_self, Option.some.injEq, Prod.mk.injEq] at hq
      obtain ⟨rfl, rfl⟩ := hq
      exact ⟨trivial, hp⟩
    · exact congrArg (total · i) (holdings_idle hcall hkeep hother hproc (fun _ => rfl)
        (by simp [OpenSystem.held, CallPc.held]))

include htasks in
theorem RefsCounted.close (h : RefsCounted pinned s) {fd : Nat}
    (hst : sysStep s (.close p fd) = some t) :
    RefsCounted pinned t := by
  by_cases hidle : (s.call p).isSome = true
  · simp [sysStep, hidle] at hst
  have hcall : s.call p = none := by simpa using hidle
  simp only [sysStep, if_neg hidle] at hst
  obtain ⟨⟨ev, files'⟩, hfile, hst⟩ := Option.bind_eq_some_iff.mp hst
  obtain ⟨hp, hproc⟩ := fileStep_close_proc hfile
  have hfiles := h.files.step (fewFiles htasks) hfile
  obtain ⟨rfl, hkeep⟩ | ⟨f, rfl, hfull, hempty⟩ := fileInode_close h.files hfile
  · obtain rfl := Option.some.inj hst
    refine h.of_files (p := p) rfl hfiles (fun _ _ => rfl) hproc (fun flag pc hq => ?_) fun i => ?_
    · rw [hcall] at hq
      cases hq
    · exact congrArg (total · i) (holdings_idle hcall hkeep (fun _ _ => rfl) hproc (fun _ => rfl)
      (held_idle hcall))
  · cases hin : (s.files.file f).fInode with
    | null => simp [hin] at hst
    | wild => simp [hin] at hst
    | entry i =>
      simp only [hin, Option.some.injEq] at hst
      subst hst
      have hother : ∀ q, q ≠ p → Function.update s.call p (some (0, .put i .wait .closed)) q =
          s.call q := fun q hq =>
        Function.update_of_ne hq ..
      refine h.of_files rfl hfiles hother hproc (fun flag' pc hq => ?_) fun j => ?_
      · simp only [Function.update_self, Option.some.injEq, Prod.mk.injEq] at hq
        obtain ⟨rfl, rfl⟩ := hq
        exact ⟨trivial, hp⟩
      · let u : OpenSystem ι := { s with
          files := files', call := Function.update s.call p (some (0, .put i .wait .closed)) }
        have hput : u.call p = some (0, .put i .wait .closed) := Function.update_self ..
        have hheld : u.held p = [i] := held_of_call hput
        refine (congrArg (total · j)
          (holdings_update_file (t := u) hempty hother hproc (fun _ => rfl) hheld)).trans ?_
        have hsame : Function.update (holdings s) (.inl p) (s.kept p ++ []) = holdings s := by
          refine Function.update_eq_self_iff.mpr ?_
          simp [holdings, held_idle hcall]
        rw [hin] at hfull
        refine (total_handed [] [i] hfull (fun j => ?_) j).trans (congrArg (total · j) hsame)
        simp [InodePtr.entries]

include htasks in
theorem RefsCounted.dup (h : RefsCounted pinned s) {fildes : Nat}
    (hst : sysStep s (.dup p fildes) = some t) :
    RefsCounted pinned t := by
  by_cases hidle : (s.call p).isSome = true
  · simp [sysStep, hidle] at hst
  have hcall : s.call p = none := by simpa using hidle
  simp only [sysStep, if_neg hidle] at hst
  obtain ⟨⟨ev, files'⟩, hfile, rfl⟩ := Option.map_eq_some_iff.mp hst
  have hproc := fileStep_dup_proc hfile
  have hkeep := fileInode_dup (fewFiles htasks) h.files hfile
  refine h.of_files (p := p) rfl (h.files.step (fewFiles htasks) hfile) (fun _ _ => rfl) hproc
    (fun flag pc hq => ?_) fun i => ?_
  · rw [hcall] at hq
    cases hq
  · exact congrArg (total · i) (holdings_idle hcall hkeep (fun _ _ => rfl) hproc (fun _ => rfl)
      (held_idle hcall))

theorem countMore_count (ptr : InodePtr) (fs : FileSystem)
    (hfit : ∀ i, (fs.inode i).iCount < 65535) (j : InodeIx) :
    ((countMore ptr fs).inode j).iCount = (fs.inode j).iCount + ptr.entries.count j ∧
      ((countMore ptr fs).inode j).iDev = (fs.inode j).iDev := by
  cases ptr with
  | null => exact ⟨rfl, rfl⟩
  | wild => exact ⟨rfl, rfl⟩
  | entry i =>
    by_cases hj : j = i
    · have hlt := hfit i
      have hmod : ((fs.inode i).iCount + 1) % 65536 = (fs.inode i).iCount + 1 :=
        Nat.mod_eq_of_lt (by omega)
      simp [countMore, FileSystem.setInode, InodePtr.entries, hj, hmod]
    · have hne : i ≠ j := fun e => hj e.symm
      simp [countMore, FileSystem.setInode, InodePtr.entries, hj, hne]

theorem forked_count {t : Task} {fs : FileSystem} (hfew : ∀ i, (fs.inode i).iCount ≤ 656) :
    (∀ j, ((countMore t.executable (countMore t.root (countMore t.pwd fs))).inode j).iCount =
        (fs.inode j).iCount + t.inodes.count j) ∧
      ∀ j, ((countMore t.executable (countMore t.root (countMore t.pwd fs))).inode j).iDev =
        (fs.inode j).iDev := by
  have hone : ∀ (ptr : InodePtr) (j : InodeIx), ptr.entries.count j ≤ 1 := fun ptr j =>
    List.count_le_length.trans (entries_length ptr)
  have hpwd := countMore_count t.pwd fs fun i => Nat.lt_of_le_of_lt (hfew i) (by decide)
  have hroot := countMore_count t.root (countMore t.pwd fs) fun i => by
    have hi := (hpwd i).1
    have hle := hone t.pwd i
    have hi' := hfew i
    omega
  have hexec := countMore_count t.executable (countMore t.root (countMore t.pwd fs)) fun i => by
    have hi := (hpwd i).1
    have hi' := (hroot i).1
    have hle := hone t.pwd i
    have hle' := hone t.root i
    have hi'' := hfew i
    omega
  constructor
  · intro j
    rw [(hexec j).1, (hroot j).1, (hpwd j).1, Task.inodes, List.count_append, List.count_append]
    omega
  · intro j
    rw [(hexec j).2, (hroot j).2, (hpwd j).2]

include htasks hpinned in
theorem RefsCounted.fork (h : RefsCounted pinned s) {child : ι}
    (hst : sysStep s (.fork p child) = some t) :
    RefsCounted pinned t := by
  by_cases hidle : (s.call p).isSome = true ∨ (s.call child).isSome = true
  · simp [sysStep, hidle] at hst
  simp only [sysStep, if_neg hidle] at hst
  obtain ⟨⟨ev, files'⟩, hfile, rfl⟩ := Option.map_eq_some_iff.mp hst
  have hkeep := fileInode_fork (fewFiles htasks) h.files hfile
  obtain ⟨d, hd, hs⟩ := Option.bind_eq_some_iff.mp hfile
  obtain ⟨-, hp⟩ := caller_some hd
  by_cases hchild : s.files.proc child = none
  · have hput : files' = s.files.put child d none (forkFiles d s.files.file) := by
      rw [if_pos hchild] at hs
      exact (Prod.mk.inj (Option.some.inj hs)).2.symm
    have hcp : s.call child = none := by simpa using fun e => hidle (.inr e)
    have hnew : (files'.proc child).isSome = true := by simp [hput, OpenFiles.put]
    have hold : ∀ q, q ≠ child → (files'.proc q).isSome = (s.files.proc q).isSome := fun q hq => by
      simp [hput, OpenFiles.put, hq]
    obtain ⟨hcount, hdev⟩ := forked_count (t := s.task p) (h.few htasks hpinned)
    refine ⟨h.files.step (fewFiles htasks) hfile, fun i => ?_, fun i => ?_, fun q hq => ?_,
      fun q flag' pc hq => ?_⟩
    · have hholdings : holdings { s with
          files := files'
          fs := countMore (s.task p).executable
            (countMore (s.task p).root (countMore (s.task p).pwd s.fs))
          task := Function.update s.task child (s.task p) } =
          Function.update (holdings s) (.inl child) (s.task p).inodes := by
        funext k
        cases k with
        | inl q =>
          by_cases hqc : q = child
          · simp [holdings, hqc, OpenSystem.kept, hnew, OpenSystem.held, hcp]
          · rw [Function.update_of_ne (fun e => hqc (Sum.inl.inj e))]
            simp [holdings, OpenSystem.kept, hold q hqc, hqc, OpenSystem.held]
        | inr f =>
          rw [Function.update_of_ne (fun e => by cases e)]
          exact congrFun hkeep f
      have hempty : holdings s (.inl child) = [] := by
        simp [holdings, OpenSystem.kept, hchild, held_idle hcp]
      have hupd := total_update (holdings s) (.inl child) (s.task p).inodes i
      rw [hempty, List.count_nil, Nat.add_zero] at hupd
      have hold := h.count i
      refine (hcount i).trans ?_
      rw [hholdings, hupd, hold]
      omega
    · exact (hdev i).symm ▸ h.range i
    · by_cases hqc : q = child
      · rw [hqc] at hq
        simp [hcp] at hq
      · rw [hold q hqc]
        exact h.process q hq
    · exact (h.ok q flag' pc hq).mono fun i _ hne => (hdev i).symm ▸ hne
  · rw [if_neg hchild] at hs
    cases hs

theorem RefsCounted.io (h : RefsCounted pinned s) {fs : FileSystem}
    (hst : sysStep s (.io fs) = some t) :
    RefsCounted pinned t := by
  obtain rfl := Option.some.inj hst
  refine ⟨h.files, h.count, h.range, h.process, fun q flag pc hq => ?_⟩
  exact (h.ok q flag pc hq).mono fun _ _ hne => hne

include htasks hpinned in
theorem RefsCounted.step (h : RefsCounted pinned s) {a : SysAct ι} (hsound : Sound s a)
    (hst : sysStep s a = some t) :
    RefsCounted pinned t := by
  cases a with
  | openStart p path flag => exact h.openStart htasks hst
  | close p fd => exact h.close htasks hst
  | dup p fildes => exact h.dup htasks hst
  | fork p child => exact h.fork htasks hpinned hst
  | go p c => exact h.go htasks hpinned hsound hst
  | io fs => exact h.io hst

end System

end Hios.Fs
