import Hios.ChrDrv.TtyRead
import Hios.ChrDrv.TtyWrite
import Hios.Fs.InodeHolds

/-! Who gets at `tty_table`: `tty_read` and `_user_tty_write` by a channel the process
names, and `sys_open` by the minor number of an inode. The comment above the table
promises three entries; it has one. -/
namespace Hios.ChrDrv
open Hios.Run Hios.Outcome Hios.Fs

def TTYS : Nat := 1

/-- `tty_table[index]`. Where there is no such entry the program has no meaning, and the
model stops with the index. -/
def entry (table : Tty) (index : Nat) : Except Nat Tty :=
  if index < TTYS then .ok table else .error index

def Reading.Looks (s : Reading) : Prop := (s.pc = .loop ∧ 0 < s.nr) ∨ s.pc = .asleep

instance (s : Reading) : Decidable s.Looks := inferInstanceAs (Decidable (_ ∨ _))

def channelStep (channel : Nat) : Except Nat Reading → ReadAct → Option (Except Nat Reading)
  | .error _, _ => none
  | .ok s, .go => some (if s.Looks then (entry s.tty channel).map fun _ => s.go else .ok s.go)
  | .ok s, a => (readStep s a).map .ok

/-- The loop of `_user_tty_write` on any channel. -/
def putLoopOn (channel : Nat) (getFsByte : Nat → Ch) (buf : Nat) : Nat → Nat → Tty → Except Nat Tty
  | 0, _, tty => .ok tty
  | n + 1, i, tty => do
    let tty ← entry tty channel
    putLoopOn channel getFsByte buf n (i + 1)
      { tty with writeQ := tty.writeQ.put (getFsByte ((buf + i) % 2 ^ 32)) }

/-- `tty_write` calls the function that the entry names, also for no bytes at all. -/
def userTtyWriteOn (channel : Nat) (getFsByte : Nat → Ch) (buf : Nat) (nr : Int) (tty : Tty)
    (c : Console) :
    Except Nat Written := do
  let tty ← putLoopOn channel getFsByte buf nr.toNat 0 tty
  let tty ← entry tty channel
  let (calls, tty, c) := ttyWrite tty c
  return ⟨tty, c, calls, nr⟩

/-- `sys_open` stores `pgrp` in an entry: some contents of `tty_table` come out changed there. -/
def StoresPgrp (fd : Fin NR_OPEN) (f : Fin NR_FILE) (i : InodeIx) (flag : Nat) (fs : FileSystem)
    (index : Nat) : Prop :=
  ∃ ttyPgrp r fs', openInode fd f i flag { fs with ttyPgrp } = .ok (r, fs') ∧
    fs'.ttyPgrp index ≠ ttyPgrp index

def TakesTerminal (i : InodeIx) (fs : FileSystem) : Prop :=
  S_ISCHR (fs.inode i).d.iMode ∧ MAJOR ((fs.inode i).d.iZone 0) = 4 ∧ fs.leader ∧ fs.tty < 0

instance (i : InodeIx) (fs : FileSystem) : Decidable (TakesTerminal i fs) :=
  inferInstanceAs (Decidable (_ ∧ _))

inductive TtyCall where
  | read (channel : Nat) (nr : Int)
  | write (channel : Nat) (getFsByte : Nat → Ch) (buf : Nat) (nr : Int)
  /-- `sys_open` with the inode that `open_namei` has found. -/
  | opens (fd : Fin NR_OPEN) (f : Fin NR_FILE) (i : InodeIx) (flag : Nat) (fs : FileSystem)

inductive Progress where
  | inside
  | returned (r : Int)
  | outside (index : Nat)

def readProgress : Except Nat Reading → Progress
  | .error index => .outside index
  | .ok s => if s.pc = .returned then .returned s.result else .inside

def writeProgress : Except Nat Written → Progress
  | .error index => .outside index
  | .ok w => .returned w.result

/-- How far a call can come: from any contents of the terminal and the screen, with any
keys and signals in between. -/
def TtyCall.Reaches : TtyCall → Progress → Prop
  | read channel nr, p => ∃ signal tty acts s,
    run (channelStep channel) (.ok (ttyRead channel nr signal tty)) acts = some s ∧
      readProgress s = p
  | write channel getFsByte buf nr, p =>
    ∃ tty c, writeProgress (userTtyWriteOn channel getFsByte buf nr tty c) = p
  | opens fd f i flag fs, .outside index => StoresPgrp fd f i flag fs index ∧ ¬ index < TTYS
  | opens fd f i flag fs, .returned r => ∃ fs', openInode fd f i flag fs = .ok (r, fs')
  | opens .., .inside => True

def TtyCall.Index : TtyCall → Nat → Prop
  | read channel _, index => index = channel
  | write channel _ _ _, index => index = channel
  | opens fd f i flag fs, index => StoresPgrp fd f i flag fs index

/-- No call goes outside the table, and one that would has failed before it does anything. -/
structure TtyCall.InBounds (call : TtyCall) : Prop where
  inside : ∀ index, ¬ call.Reaches (.outside index)
  fails : ∀ index, call.Index index → ¬ index < TTYS → ∀ p, call.Reaches p →
    ∃ r < 0, p = .returned r

/-- The channel is that of an entry or refused; the minor number is that of an entry where
the process gets a terminal. -/
def TtyCall.Fits : TtyCall → Prop
  | read channel nr => channel < TTYS ∨ channel > 2 ∨ nr < 0
  | write channel _ _ _ => channel < TTYS
  | opens _ _ i _ fs => TakesTerminal i fs → MINOR ((fs.inode i).d.iZone 0) < TTYS

section Reader
variable {channel : Nat} {nr : Int} {s : Reading} {x y : Except Nat Reading} {a : ReadAct}
  {acts : List ReadAct}

theorem channelStep_eq (hchannel : channel < TTYS) (s : Reading) (a : ReadAct) :
    channelStep channel (.ok s) a = (readStep s a).map .ok := by
  cases a with
  | go => simp [channelStep, entry, hchannel, readStep, Except.map]
  | arrive ch => rfl
  | copy => rfl
  | signals signal => rfl

theorem channelStep_inside (hchannel : channel < TTYS) (hx : ∃ s, x = .ok s)
    (hst : channelStep channel x a = some y) :
    ∃ s, y = .ok s := by
  obtain ⟨s, rfl⟩ := hx
  rw [channelStep_eq hchannel] at hst
  obtain ⟨t, -, rfl⟩ := Option.map_eq_some_iff.mp hst
  exact ⟨t, rfl⟩

def Refused (x : Except Nat Reading) : Prop := ∃ s, x = .ok s ∧ s.pc = .returned ∧ s.result = -1

theorem refused_ttyRead (hbad : channel > 2 ∨ nr < 0) (signal : BitVec 32) (tty : Tty) :
    Refused (.ok (ttyRead channel nr signal tty)) := by
  rw [ttyRead, if_pos hbad]
  exact ⟨_, rfl, rfl, rfl⟩

/-- It takes no step more, and the keyboard and signals change nothing about it. -/
theorem Refused.step (h : Refused x) (hst : channelStep channel x a = some y) : Refused y := by
  obtain ⟨s, rfl, hpc, hresult⟩ := h
  cases a with
  | go =>
    have hblind : ¬ s.Looks := by simp [Reading.Looks, hpc]
    have hgo : s.go = s := by simp [Reading.go, hpc]
    rw [channelStep, if_neg hblind, hgo] at hst
    exact ⟨s, (Option.some.inj hst).symm, hpc, hresult⟩
  | arrive ch =>
    obtain rfl := Option.some.inj hst
    exact ⟨_, rfl, hpc, hresult⟩
  | copy =>
    obtain ⟨t, ht, rfl⟩ := Option.map_eq_some_iff.mp hst
    simp only [readStep] at ht
    split at ht
    · cases ht
    · obtain rfl := Option.some.inj ht
      exact ⟨_, rfl, hpc, hresult⟩
  | signals signal =>
    obtain rfl := Option.some.inj hst
    exact ⟨_, rfl, hpc, hresult⟩

theorem read_inBounds_iff (channel : Nat) (nr : Int) :
    (TtyCall.read channel nr).InBounds ↔ (TtyCall.read channel nr).Fits := by
  constructor
  · intro h
    by_contra hfits
    obtain ⟨hout, hok⟩ := not_or.mp hfits
    -- the call has come to its loop, and has not failed
    have hstart : (TtyCall.read channel nr).Reaches .inside :=
      ⟨0, bootLine.tty, [], _, rfl, by simp [ttyRead, hok, readProgress]⟩
    obtain ⟨r, -, hr⟩ := h.fails channel rfl hout .inside hstart
    cases hr
  · rintro (hchannel | hbad)
    · refine ⟨?_, fun index hindex hout => absurd (hindex ▸ hchannel) hout⟩
      rintro index ⟨signal, tty, acts, x, hrun, hx⟩
      obtain ⟨s, rfl⟩ : ∃ s, x = .ok s :=
        run_inv (fun _ _ _ hs hst => channelStep_inside hchannel hs hst) ⟨_, rfl⟩ hrun
      simp only [readProgress] at hx
      split at hx <;> cases hx
    · have hall : ∀ p, (TtyCall.read channel nr).Reaches p → p = .returned (-1) := by
        rintro p ⟨signal, tty, acts, x, hrun, rfl⟩
        obtain ⟨s, rfl, hpc, hresult⟩ : Refused x :=
          run_inv (fun _ _ _ hs hst => hs.step hst) (refused_ttyRead hbad signal tty) hrun
        rw [readProgress, if_pos hpc, hresult]
      refine ⟨fun index hreach => ?_, fun _ _ _ p hp => ⟨-1, by decide, hall p hp⟩⟩
      cases hall _ hreach

end Reader

section Writer
variable {channel : Nat} {getFsByte : Nat → Ch} {buf : Nat} {nr : Int}

theorem putLoopOn_eq (hchannel : channel < TTYS) (n i : Nat) (tty : Tty) :
    putLoopOn channel getFsByte buf n i tty =
      .ok { tty with writeQ := putLoop getFsByte buf n i tty.writeQ } := by
  induction n generalizing i tty with
  | zero => rfl
  | succ n ih =>
    rw [putLoopOn, entry, if_pos hchannel]
    exact ih (i + 1) _

theorem userTtyWriteOn_eq (hchannel : channel < TTYS) (tty : Tty) (c : Console) :
    userTtyWriteOn channel getFsByte buf nr tty c = .ok (userTtyWrite getFsByte buf nr tty c) := by
  rw [userTtyWriteOn, putLoopOn_eq hchannel]
  change (entry _ channel >>= _) = _
  rw [entry, if_pos hchannel]
  rfl

theorem userTtyWriteOn_outside (hchannel : ¬ channel < TTYS) (tty : Tty) (c : Console) :
    userTtyWriteOn channel getFsByte buf nr tty c = .error channel := by
  rw [userTtyWriteOn]
  cases nr.toNat with
  | zero =>
    change (entry tty channel >>= _) = _
    rw [entry, if_neg hchannel]
    rfl
  | succ n =>
    rw [putLoopOn, entry, if_neg hchannel]
    rfl

theorem write_inBounds_iff (channel : Nat) (getFsByte : Nat → Ch) (buf : Nat) (nr : Int) :
    (TtyCall.write channel getFsByte buf nr).InBounds ↔
    (TtyCall.write channel getFsByte buf nr).Fits := by
  constructor
  · intro h
    by_contra hout
    refine h.inside channel ⟨bootLine.tty, ⟨0, 0, fun _ => 0, 0, 0⟩, ?_⟩
    rw [userTtyWriteOn_outside hout]
    rfl
  · intro hchannel
    refine ⟨?_, fun index hindex hout => absurd (hindex ▸ hchannel) hout⟩
    rintro index ⟨tty, c, hreach⟩
    rw [userTtyWriteOn_eq hchannel] at hreach
    cases hreach

end Writer

section Opener
variable {fd : Fin NR_OPEN} {f : Fin NR_FILE} {i : InodeIx} {flag : Nat}
  {fs fs' : FileSystem} {r : Int}

theorem openInode_ttyPgrp (h : openInode fd f i flag fs = .ok (r, fs')) :
    fs'.ttyPgrp = if TakesTerminal i fs then Function.update fs.ttyPgrp
      (MINOR ((fs.inode i).d.iZone 0)) fs.pgrp
      else fs.ttyPgrp := by
  simp only [openInode] at h
  split at h
  · rename_i htakes
    refine Eq.trans ?_ (if_pos htakes).symm
    obtain ⟨-, rfl⟩ := Prod.mk.inj (Except.ok.inj h)
    rfl
  · rename_i htakes
    refine Eq.trans ?_ (if_neg htakes).symm
    split at h
    · obtain ⟨fs₁, hput, h⟩ := bind_eq_ok.mp h
      obtain ⟨-, rfl⟩ := Prod.mk.inj (Except.ok.inj h)
      change fs₁.ttyPgrp = fs.ttyPgrp
      rw [((iput_shifted i [] fs).of_ok hput).only]
    · obtain ⟨-, rfl⟩ := Prod.mk.inj (Except.ok.inj h)
      rfl

/-- It stores in the entry of the minor number, if the process gets the terminal. -/
theorem storesPgrp_iff {index : Nat} :
    StoresPgrp fd f i flag fs index ↔ TakesTerminal i fs ∧
    index = MINOR ((fs.inode i).d.iZone 0) := by
  constructor
  · rintro ⟨ttyPgrp, r, fs', h, hne⟩
    have hend : fs'.ttyPgrp = if TakesTerminal i fs then
        Function.update ttyPgrp (MINOR ((fs.inode i).d.iZone 0)) fs.pgrp else ttyPgrp :=
          openInode_ttyPgrp h
    by_cases htakes : TakesTerminal i fs
    · refine ⟨htakes, by_contra fun hindex => hne ?_⟩
      rw [hend, if_pos htakes]
      exact Function.update_of_ne hindex _ _
    · exact absurd (congrFun (hend.trans (if_neg htakes)) index) hne
  · rintro ⟨htakes, rfl⟩
    refine ⟨fun _ => fs.pgrp + 1, fd.val, _, if_pos htakes, ?_⟩
    change Function.update (fun _ => fs.pgrp + 1) _ fs.pgrp (MINOR _) ≠ fs.pgrp + 1
    rw [Function.update_self]
    omega

theorem sysOpen_eq_openInode {path : List Byte} {mode : Nat} {inode uninit : InodePtr} {err : Int}
    {res : Option InodePtr} {fs₁ : FileSystem} (hfd : freeFd fs = some fd)
    (hf : freeFile { fs with closeOnExec := fs.closeOnExec &&& ~~~(1#32 <<< fd.val) } = some f)
    (hnamei : openNamei path flag (mode &&& allowed fs) uninit
      (({ fs with closeOnExec := fs.closeOnExec &&& ~~~(1#32 <<< fd.val) }.setFilp fd
        (some f)).setFile f { fs.file f with fCount := (fs.file f).fCount + 1 }) =
          .ok (err, res, fs₁))
    (herr : ¬ err < 0) (hi : res.getD inode = .entry i) :
    sysOpen path flag mode inode uninit fs = openInode fd f i flag fs₁ := by
  simp only [sysOpen, hfd, hf]
  change (openNamei path flag (mode &&& allowed fs) uninit _ >>= _) = _
  rw [hnamei]
  change (if err < 0 then _ else _) = _
  rw [if_neg herr]
  simp only [hi]

theorem opens_inBounds_iff (fd : Fin NR_OPEN) (f : Fin NR_FILE) (i : InodeIx) (flag : Nat)
    (fs : FileSystem) :
    (TtyCall.opens fd f i flag fs).InBounds ↔ (TtyCall.opens fd f i flag fs).Fits := by
  constructor
  · intro h htakes
    by_contra hout
    exact h.inside _ ⟨storesPgrp_iff.mpr ⟨htakes, rfl⟩, hout⟩
  · intro h
    have hall : ∀ index, StoresPgrp fd f i flag fs index → index < TTYS := by
      intro index hstores
      obtain ⟨htakes, rfl⟩ := storesPgrp_iff.mp hstores
      exact h htakes
    exact ⟨fun index hreach => hreach.2 (hall index hreach.1), fun index hindex hout =>
      absurd (hall index hindex) hout⟩

end Opener

/-- The terminal table is used in its bounds exactly by the calls that name its one entry,
and by the reads that are refused. -/
theorem tty_table_in_bounds_iff (call : TtyCall) : call.InBounds ↔ call.Fits := by
  cases call with
  | read channel nr => exact read_inBounds_iff channel nr
  | write channel getFsByte buf nr => exact write_inBounds_iff channel getFsByte buf nr
  | opens fd f i flag fs => exact opens_inBounds_iff fd f i flag fs

def serialInode : MInode := { MInode.zero with d := (DInode.zero.setMode 0o020666).setZone 0 0x401 }

/-- A read and a write on channel 1, and an open of the first serial terminal by a leader
without one, use the second entry. -/
theorem second_entry_used :
    ((TtyCall.read 1 1).Reaches (.outside 1) ∧ ¬ (TtyCall.read 1 1).InBounds) ∧
    ((TtyCall.write 1 (fun _ => 0) 0 0).Reaches (.outside 1) ∧
      ¬ (TtyCall.write 1 (fun _ => 0) 0 0).InBounds) ∧
    (TtyCall.opens ⟨0, by decide⟩ ⟨0, by decide⟩ 0 0
      { smallFs with leader := true, inode := fun _ => serialInode }).Reaches (.outside 1) ∧
      ¬ (TtyCall.opens ⟨0, by decide⟩ ⟨0, by decide⟩ 0 0
        { smallFs with leader := true, inode := fun _ => serialInode }).InBounds := by
  have hread : (TtyCall.read 1 1).Reaches (.outside 1) := ⟨0, bootLine.tty, [.go], _, rfl, rfl⟩
  have hwrite : (TtyCall.write 1 (fun _ => 0) 0 0).Reaches (.outside 1) :=
    ⟨bootLine.tty, ⟨0, 0, fun _ => 0, 0, 0⟩, rfl⟩
  have hopens : (TtyCall.opens ⟨0, by decide⟩ ⟨0, by decide⟩ 0 0
    { smallFs with leader := true, inode := fun _ => serialInode }).Reaches
      (.outside 1) := ⟨storesPgrp_iff.mpr ⟨by decide, by decide⟩, by decide⟩
  exact ⟨⟨hread, fun h => h.inside 1 hread⟩, ⟨hwrite, fun h => h.inside 1 hwrite⟩, hopens,
    fun h => h.inside 1 hopens⟩

end Hios.ChrDrv
