import Hios.Kernel.UserStores

/-! `sys_waitpid` of `kernel/exit.c`, with all of `release`. -/
namespace Hios.Kernel
open Hios.Mm
variable {schedule : Machine → Machine} {m : Machine} {nr : TaskNr} {current τ : Task} {pid : Int}
  {options : Word}

def ECHILD : Int := 10
def EINTR : Int := 4

def wnohang (options : Word) : Bool := options.getLsbD 0

def wuntraced (options : Word) : Bool := options.getLsbD 1

inductive Outcome where
  | returned (value : Int) (m : Machine)
  | panicked (p : Panic)
  /-- still asleep after the rounds that were looked at -/
  | waiting

/-- The loop of `release`. `schedule m` is the machine when the caller runs again. -/
def releaseLoop (schedule : Machine → Machine) (page : Nat) :
    List TaskNr → Machine → Except Panic Machine
  | [], _ => .error .releaseNonExistent
  | i :: rest, m =>
    if isTask m page i then do
      let m ← releaseSlot page i m
      releaseLoop schedule page rest (schedule m)
    else releaseLoop schedule page rest m

def release (schedule : Machine → Machine) (page : Nat) (m : Machine) : Except Panic Machine :=
  releaseLoop schedule page (List.finRange NR_TASKS).tail m

def lastToFirst : List TaskNr := (List.finRange NR_TASKS).tail.reverse

def selects (current τ : Task) (pid : Int) : Bool :=
  if τ.father ≠ current.pid then false
  else if 0 < pid then τ.pid = pid
  else if pid = 0 then τ.pgrp = current.pgrp
  else if pid ≠ -1 then τ.pgrp = -pid
  else true

inductive Scan where
  | stopped (τ : Task)
  | zombie (τ : Task)
  | finished (flag : Bool)

def scan (m : Machine) (nr : TaskNr) (current : Task) (pid : Int) (options : Word) :
    List TaskNr → Bool → Scan
  | [], flag => .finished flag
  | i :: rest, flag =>
    match m.task i with
    | none => scan m nr current pid options rest flag
    | some τ =>
      if i = nr ∨ selects current τ pid = false then scan m nr current pid options rest flag
      else
        match τ.state with
        | .stopped => if wuntraced options then .stopped τ
          else scan m nr current pid options rest flag
        | .zombie => .zombie τ
        | _ => scan m nr current pid options rest true

def putStatus (base statAddr : Nat) (code : Word) (m : Machine) : Except Panic Machine :=
  putAll base (storedBytes m.limit (putLongs statAddr [code])) m

def Outcome.ofExcept (value : Int) : Except Panic Machine → Outcome
  | .ok m => .returned value m
  | .error p => .panicked p

def Task.clearSigchld (τ : Task) : Task :=
  { τ with signal := τ.signal &&& ~~~(1#32 <<< (SIGCHLD - 1)) }

def Task.addChildTimes (τ child : Task) : Task :=
  { τ with cutime := τ.cutime + child.utime, cstime := τ.cstime + child.stime }

def waitLoop (schedule : Machine → Machine) (nr : TaskNr) (pid : Int) (statAddr : Nat)
    (options : Word) :
    Nat → Task → Machine → Outcome
  | 0, _, _ => .waiting
  | rounds + 1, current, m =>
    match scan m nr current pid options lastToFirst false with
    | .stopped τ => .ofExcept τ.pid (putStatus current.base statAddr 0x7f m)
    | .zombie τ => .ofExcept τ.pid do
      let m ← release schedule τ.page (m.setTask nr (some (current.addChildTimes τ)))
      putStatus current.base statAddr (BitVec.ofInt 32 τ.exitCode) m
    | .finished true =>
      if wnohang options then .returned 0 m
      else
        let m := schedule (m.setTask nr (some { current with state := .interruptible }))
        match m.task nr with
        | none => .waiting
        | some current =>
          let current := current.clearSigchld
          let m := m.setTask nr (some current)
          if current.signal = 0 then waitLoop schedule nr pid statAddr options rounds current m
          else .returned (-EINTR) m
    | .finished false => .returned (-ECHILD) m

def sysWaitpid (schedule : Machine → Machine) (rounds : Nat) (nr : TaskNr) (current : Task)
    (pid : Int) (statAddr : Nat) (options : Word) (m : Machine) : Outcome :=
  match verifyArea current statAddr 4 m with
  | .ok m => waitLoop schedule nr pid statAddr options rounds current m
  | .error p => .panicked p

structure Matching (m : Machine) (nr : TaskNr) (current : Task) (pid : Int) (i : TaskNr)
  (τ : Task) :
    Prop where
  slot : i ≠ 0 ∧ i ≠ nr ∧ m.task i = some τ
  father : τ.father = current.pid
  asked : (0 < pid ∧ τ.pid = pid) ∨ (pid = 0 ∧ τ.pgrp = current.pgrp) ∨ pid = -1 ∨
    (pid < -1 ∧ τ.pgrp = -pid)

theorem mem_lastToFirst : ∀ i : TaskNr, i ∈ lastToFirst ↔ i ≠ 0 := by
  decide +kernel

theorem selects_iff : selects current τ pid = true ↔ τ.father = current.pid ∧
    ((0 < pid ∧ τ.pid = pid) ∨ (pid = 0 ∧ τ.pgrp = current.pgrp) ∨ pid = -1 ∨
      (pid < -1 ∧ τ.pgrp = -pid)) := by
  by_cases hf : τ.father = current.pid
  · simp only [selects, hf, ne_eq, not_true_eq_false, if_false, true_and]
    by_cases hpos : 0 < pid
    · have h0 : pid ≠ 0 := by omega
      have h1 : pid ≠ -1 := by omega
      have h2 : ¬ pid < -1 := by omega
      simp [hpos, h0, h1, h2]
    · by_cases h0 : pid = 0
      · simp [h0]
      · by_cases h1 : pid = -1
        · simp [h1]
        · have h2 : pid < -1 := by omega
          simp [hpos, h0, h1, h2]
  · simp [selects, hf]

theorem matching_iff {i : TaskNr} : Matching m nr current pid i τ ↔
    i ∈ lastToFirst ∧ m.task i = some τ ∧ ¬ (i = nr ∨ selects current τ pid = false) := by
  rw [mem_lastToFirst, not_or, Bool.not_eq_false, selects_iff]
  constructor
  · intro h
    exact ⟨h.slot.1, h.slot.2.2, h.slot.2.1, h.father, h.asked⟩
  · rintro ⟨h0, hτ, hnr, hf, ha⟩
    exact ⟨⟨h0, hnr, hτ⟩, hf, ha⟩

def Ahead (m : Machine) (nr : TaskNr) (current : Task) (pid : Int) (l : List TaskNr) (τ : Task) :
    Prop :=
  ∃ i ∈ l, m.task i = some τ ∧ ¬ (i = nr ∨ selects current τ pid = false)

theorem ahead_cons {i : TaskNr} {l : List TaskNr} : Ahead m nr current pid (i :: l) τ ↔
    (m.task i = some τ ∧ ¬ (i = nr ∨ selects current τ pid = false)) ∨
    Ahead m nr current pid l τ := by
  simp [Ahead]

inductive ScanResult (m : Machine) (nr : TaskNr) (current : Task) (pid : Int) (options : Word)
    (l : List TaskNr) (flag : Bool) : Scan → Prop
  | stopped {τ : Task} (hτ : Ahead m nr current pid l τ) (hs : τ.state = .stopped)
      (hw : wuntraced options) : ScanResult m nr current pid options l flag (.stopped τ)
  | zombie {τ : Task} (hτ : Ahead m nr current pid l τ) (hs : τ.state = .zombie) :
      ScanResult m nr current pid options l flag (.zombie τ)
  | finished {f : Bool} (hz : ∀ τ, Ahead m nr current pid l τ → τ.state ≠ .zombie)
      (hs : ∀ τ, Ahead m nr current pid l τ → wuntraced options → τ.state ≠ .stopped)
      (hf : f = true ↔ flag = true ∨ ∃ τ, Ahead m nr current pid l τ ∧ τ.state ≠ .stopped) :
      ScanResult m nr current pid options l flag (.finished f)

theorem scanResult_skip {i : TaskNr} {l : List TaskNr} {flag : Bool} {r : Scan}
    (hskip : ∀ τ, m.task i = some τ → (i = nr ∨ selects current τ pid = false))
    (h : ScanResult m nr current pid options l flag r) :
    ScanResult m nr current pid options (i :: l) flag r := by
  have hahead : ∀ τ, Ahead m nr current pid (i :: l) τ ↔ Ahead m nr current pid l τ := by
    intro τ
    rw [ahead_cons]
    exact or_iff_right fun e => e.2 (hskip τ e.1)
  cases h with
  | stopped hτ hs hw => exact .stopped ((hahead _).mpr hτ) hs hw
  | zombie hτ hs => exact .zombie ((hahead _).mpr hτ) hs
  | finished hz hs hf =>
    exact .finished (by simpa [hahead] using hz) (by simpa [hahead] using hs)
      (by simpa [hahead] using hf)

/-- A child that does not end the scan; unless it is stopped, it raises the flag. -/
theorem scanResult_pass {i : TaskNr} {l : List TaskNr} {flag flag' : Bool} {r : Scan}
    (hτ : m.task i = some τ) (hsel : ¬ (i = nr ∨ selects current τ pid = false))
    (hz : τ.state ≠ .zombie) (hs : τ.state = .stopped → wuntraced options = false)
    (hflag : flag' = true ↔ flag = true ∨ τ.state ≠ .stopped)
    (h : ScanResult m nr current pid options l flag' r) :
    ScanResult m nr current pid options (i :: l) flag r := by
  have hahead : ∀ σ, Ahead m nr current pid (i :: l) σ ↔ σ = τ ∨ Ahead m nr current pid l σ := by
    intro σ
    rw [ahead_cons, hτ, Option.some.injEq]
    refine or_congr ⟨fun e => e.1.symm, fun e => ?_⟩ .rfl
    rw [e]
    exact ⟨rfl, hsel⟩
  cases h with
  | stopped hτ' hs' hw => exact .stopped ((hahead _).mpr (.inr hτ')) hs' hw
  | zombie hτ' hs' => exact .zombie ((hahead _).mpr (.inr hτ')) hs'
  | finished hz' hs' hf =>
    refine .finished (fun σ hσ => ?_) (fun σ hσ hw => ?_) ?_
    · cases (hahead σ).mp hσ with
      | inl e => exact e ▸ hz
      | inr hσ => exact hz' σ hσ
    · cases (hahead σ).mp hσ with
      | inl e =>
        intro hst
        rw [e] at hst
        simp [hs hst] at hw
      | inr hσ => exact hs' σ hσ hw
    · simp only [hf, hflag, hahead, or_and_right, exists_or, exists_eq_left, or_assoc]

theorem scan_spec (l : List TaskNr) (flag : Bool) :
    ScanResult m nr current pid options l flag (scan m nr current pid options l flag) := by
  induction l generalizing flag with
  | nil => exact .finished (by simp [Ahead]) (by simp [Ahead]) (by simp [Ahead])
  | cons i l ih =>
    simp only [scan]
    cases hi : m.task i with
    | none => exact scanResult_skip (by simp [hi]) (ih flag)
    | some τ =>
      by_cases hskip : i = nr ∨ selects current τ pid = false
      · simp only [if_pos hskip]
        exact scanResult_skip (by simpa [hi] using hskip) (ih flag)
      · simp only [if_neg hskip]
        have hahead : Ahead m nr current pid (i :: l) τ := ahead_cons.mpr (.inl ⟨hi, hskip⟩)
        cases hst : τ.state with
        | stopped =>
          by_cases hw : wuntraced options
          · simp only [if_pos hw]
            exact .stopped hahead hst hw
          · simp only [if_neg hw]
            exact scanResult_pass hi hskip (by simp [hst]) (fun _ => by simpa using hw)
              (by simp [hst]) (ih flag)
        | zombie => exact .zombie hahead hst
        | running =>
          exact scanResult_pass hi hskip (by simp [hst]) (by simp [hst]) (by simp [hst]) (ih true)
        | interruptible =>
          exact scanResult_pass hi hskip (by simp [hst]) (by simp [hst]) (by simp [hst]) (ih true)
        | uninterruptible =>
          exact scanResult_pass hi hskip (by simp [hst]) (by simp [hst]) (by simp [hst]) (ih true)

def WritableAt (m : Machine) (x : Nat) : Prop := ∃ e, entryAt m x = some e ∧ present e ∧ writable e

theorem writableAt_mod {x : Nat} : WritableAt m (x % 2 ^ 32) ↔ WritableAt m x := by
  simp only [WritableAt, entryAt, dirIndex_mod, tableIndex_mod]

theorem writableAt_of_same_page {x y : Nat} (h : x / 4096 = y / 4096) (hx : WritableAt m x) :
    WritableAt m y := by
  have hdir : dirIndex y = dirIndex x := by
    simp only [dirIndex]
    congr 1
    omega
  have htab : tableIndex y = tableIndex x := by simp only [tableIndex, h]
  simpa only [WritableAt, entryAt, hdir, htab] using hx

theorem writeVerify_of_writable {x : Nat} (h : WritableAt m x) : writeVerify x m = .ok m := by
  obtain ⟨e, he, -, hw⟩ := h
  by_cases hd : present (m.dir (dirIndex x))
  · simp only [entryAt, if_pos hd, Option.some.injEq] at he
    simp [writeVerify, hd, he, hw]
  · simp [entryAt, hd] at he

theorem verifyLoop_of_writable (start : Nat) (size : Int)
    (h : ∀ n : Nat, (4096 * n : Int) < size → WritableAt m (start + 4096 * n)) :
    verifyLoop start size m = .ok m := by
  induction start, size, m using verifyLoop.induct with
  | case1 start size m hsize ih =>
    have hfirst : WritableAt m start := by simpa using h 0 (by simpa using hsize)
    rw [verifyLoop, if_pos hsize, writeVerify_of_writable hfirst, ok_bind]
    refine ih m fun n hn => ?_
    have hnext := h (n + 1) (by omega)
    rw [← writableAt_mod, Nat.mod_add_mod, writableAt_mod]
    rwa [show start + 4096 + 4096 * n = start + 4096 * (n + 1) by omega]
  | case2 start size m hsize => rw [verifyLoop, if_neg hsize]

def StatusWritable (m : Machine) (base statAddr : Nat) : Prop :=
  ∀ i < 4, WritableAt m (base + (statAddr + i))

theorem verifyArea_of_writable {statAddr : Nat} (hbase : current.base = newBase nr)
    (h : StatusWritable m current.base statAddr) : verifyArea current statAddr 4 m = .ok m := by
  have hlong : toLong ((4 + statAddr % 4096) % 2 ^ 32) = (4 + statAddr % 4096 : Nat) := by
    have hmod : (4 + statAddr % 4096) % 2 ^ 32 = 4 + statAddr % 4096 := by omega
    rw [hmod, toLong, if_pos (by omega)]
  simp only [verifyArea, hlong]
  refine verifyLoop_of_writable _ _ fun n hn => ?_
  rw [← writableAt_mod, Nat.mod_add_mod, writableAt_mod]
  have hpage : current.base % 4096 = 0 := by
    simp only [hbase, newBase]
    omega
  -- the first page holds the first byte, a second page the last one
  cases n with
  | zero => exact writableAt_of_same_page (by omega) (h 0 (by omega))
  | succ n => exact writableAt_of_same_page (by omega) (h 3 (by omega))

theorem releaseLoop_panics (schedule : Machine → Machine) (page : Nat) (l : List TaskNr)
    (m : Machine) :
    ∃ p, releaseLoop schedule page l m = .error p := by
  induction l generalizing m with
  | nil => exact ⟨_, rfl⟩
  | cons i l ih =>
    rw [releaseLoop]
    by_cases hi : isTask m page i
    · rw [if_pos hi]
      cases hr : releaseSlot page i m with
      | ok m' => exact ih (schedule m')
      | error p => exact ⟨p, rfl⟩
    · rw [if_neg hi]
      exact ih m

/-- A zombie child is reaped: up to `schedule()` its slot is emptied and its page
given back, and after it the exit code is stored and the call returns. -/
def Reaps (schedule : Machine → Machine) (nr : TaskNr) (current : Task) (pid : Int) (statAddr : Nat)
    (m : Machine) (out : Outcome) : Prop :=
  ∃ i τ m₁ m', Matching m nr current pid i τ ∧ τ.state = .zombie ∧
    m₁.task = Function.update (Function.update m.task nr (some (current.addChildTimes τ))) i none ∧
    m₁.memMap = Function.update m.memMap (mapNr τ.page) (m.memMap (mapNr τ.page) - 1) ∧
    putStatus current.base statAddr (BitVec.ofInt 32 τ.exitCode) (schedule m₁) = .ok m' ∧
    out = .returned τ.pid m'

structure WaitsRight (schedule : Machine → Machine) (nr : TaskNr) (current : Task) (pid : Int)
    (statAddr : Nat) (options : Word) (m : Machine) (out : Outcome) : Prop where
  reaps : (∃ i τ, Matching m nr current pid i τ ∧ τ.state = .zombie) →
    (∀ i τ, Matching m nr current pid i τ → τ.state ≠ .stopped) →
    Reaps schedule nr current pid statAddr m out
  noChild : (∀ i τ, ¬ Matching m nr current pid i τ) → ∃ m', out = .returned (-ECHILD) m' ∧
    m'.task = m.task
  noHang : (∃ i τ, Matching m nr current pid i τ) →
    (∀ i τ, Matching m nr current pid i τ → τ.state ≠ .zombie ∧
      (wuntraced options → τ.state ≠ .stopped)) →
    wnohang options → ∃ m', out = .returned 0 m' ∧ m'.task = m.task

def OnlyZombies (m : Machine) (nr : TaskNr) (current : Task) (pid : Int) : Prop :=
  (∃ i τ, Matching m nr current pid i τ ∧ τ.state = .zombie) ∧
    ∀ i τ, Matching m nr current pid i τ → τ.state ≠ .stopped

def AllStopped (m : Machine) (nr : TaskNr) (current : Task) (pid : Int) (options : Word) : Prop :=
  (∃ i τ, Matching m nr current pid i τ) ∧
    (∀ i τ, Matching m nr current pid i τ → τ.state = .stopped) ∧
    wnohang options ∧ ¬ wuntraced options

theorem ahead_iff_matching :
    Ahead m nr current pid lastToFirst τ ↔ ∃ i, Matching m nr current pid i τ := by
  simp [Ahead, matching_iff]

theorem sysWaitpid_eq {rounds statAddr : Nat} (hbase : current.base = newBase nr)
    (hstat : StatusWritable m current.base statAddr) :
    sysWaitpid schedule rounds nr current pid statAddr options m =
      waitLoop schedule nr pid statAddr options rounds current m := by
  rw [sysWaitpid, verifyArea_of_writable hbase hstat]

theorem waitLoop_zombie_panics (schedule : Machine → Machine) (rounds statAddr : Nat)
    (hscan : scan m nr current pid options lastToFirst false = .zombie τ) :
    ∃ p, waitLoop schedule nr pid statAddr options (rounds + 1) current m = .panicked p := by
  obtain ⟨p, hp⟩ := releaseLoop_panics schedule τ.page (List.finRange NR_TASKS).tail
    (m.setTask nr (some (current.addChildTimes τ)))
  refine ⟨p, ?_⟩
  simp only [waitLoop, hscan, release, hp]
  rfl

/-- `sys_waitpid` keeps its promise except when it reaps a zombie, where `release`
panics, and when it is to poll children that are all stopped. -/
theorem waits_right_iff (schedule : Machine → Machine) (rounds : Nat) (m : Machine) (nr : TaskNr)
    (current : Task) (pid : Int) (statAddr : Nat) (options : Word)
    (hbase : current.base = newBase nr) (hstat : StatusWritable m current.base statAddr) :
    WaitsRight schedule nr current pid statAddr options m
        (sysWaitpid schedule (rounds + 1) nr current pid statAddr options m) ↔
      ¬ OnlyZombies m nr current pid ∧ ¬ AllStopped m nr current pid options := by
  rw [sysWaitpid_eq hbase hstat]
  have hspec : ScanResult m nr current pid options lastToFirst false
      (scan m nr current pid options lastToFirst false) := scan_spec _ _
  cases hscan : scan m nr current pid options lastToFirst false with
  | stopped τ =>
    rw [hscan] at hspec
    cases hspec with
    | stopped hτ hs hw =>
      obtain ⟨i, hi⟩ := ahead_iff_matching.mp hτ
      refine ⟨fun _ => ⟨fun h => h.2 i τ hi hs, fun h => h.2.2.2 hw⟩, fun _ => ⟨?_, ?_, ?_⟩⟩
      · exact fun _ h => absurd hs (h i τ hi)
      · exact fun h => absurd hi (h i τ)
      · exact fun _ h _ => absurd hs ((h i τ hi).2 hw)
  | zombie τ =>
    rw [hscan] at hspec
    cases hspec with
    | zombie hτ hs =>
      obtain ⟨i, hi⟩ := ahead_iff_matching.mp hτ
      obtain ⟨p, hp⟩ := waitLoop_zombie_panics schedule rounds statAddr hscan
      rw [hp]
      refine ⟨fun h => ⟨fun ho => ?_, fun ha => ?_⟩,
        fun h => ⟨fun hz hn => ?_, fun hn => ?_, fun _ hn _ => ?_⟩⟩
      · obtain ⟨_, _, _, _, _, _, _, _, _, hout⟩ := h.reaps ho.1 ho.2
        simp at hout
      · simp [ha.2.1 i τ hi] at hs
      · exact absurd ⟨hz, hn⟩ h.1
      · exact absurd hi (hn i τ)
      · exact absurd hs (hn i τ hi).1
  | finished f =>
    rw [hscan] at hspec
    cases hspec with
    | finished hz hs hf =>
      have hz : ∀ i σ, Matching m nr current pid i σ → σ.state ≠ .zombie := fun i σ hσ =>
        hz σ (ahead_iff_matching.mpr ⟨i, hσ⟩)
      have honly : ¬ OnlyZombies m nr current pid := fun ⟨⟨i, σ, hσ, hσz⟩, _⟩ => hz i σ hσ hσz
      simp only [honly, not_false_eq_true, true_and]
      cases f with
      | true =>
        obtain ⟨σ, hσ, hσs⟩ := (hf.mp rfl).resolve_left (by simp)
        obtain ⟨i, hi⟩ := ahead_iff_matching.mp hσ
        refine ⟨fun _ ha => hσs (ha.2.1 i σ hi), fun _ => ⟨?_, ?_, ?_⟩⟩
        · exact fun ⟨i', σ', hσ', hz'⟩ _ => absurd hz' (hz i' σ' hσ')
        · exact fun hn => absurd hi (hn i σ)
        · exact fun _ _ hw => ⟨m, by simp [waitLoop, hscan, hw], rfl⟩
      | false =>
        have hall : ∀ i σ, Matching m nr current pid i σ → σ.state = .stopped := by
          intro i σ hσ
          by_contra hne
          simpa using hf.mpr (.inr ⟨σ, ahead_iff_matching.mpr ⟨i, hσ⟩, hne⟩)
        have hout : waitLoop schedule nr pid statAddr options (rounds + 1) current m =
            .returned (-ECHILD) m := by simp [waitLoop, hscan]
        rw [hout]
        refine ⟨fun h ha => ?_, fun ha => ⟨?_, fun _ => ⟨m, rfl, rfl⟩, fun hex hn hw => ?_⟩⟩
        · obtain ⟨m', hm', -⟩ :=
            h.noHang ha.1 (fun i σ hσ => ⟨hz i σ hσ, fun hw => absurd hw ha.2.2.2⟩) ha.2.2.1
          simp [ECHILD] at hm'
        · exact fun ⟨i', σ', hσ', hz'⟩ _ => absurd hz' (hz i' σ' hσ')
        · obtain ⟨i, σ, hσ⟩ := hex
          refine absurd ⟨⟨i, σ, hσ⟩, hall, hw, fun hwu => ?_⟩ ha
          exact (hn i σ hσ).2 hwu (hall i σ hσ)

def initChild (page : Nat) (pid father : Int) (t : TaskNr) : Task :=
  { initTask with pid := pid, father := father, base := newBase t, page := page }

def exitedChild : Machine :=
  { boot bootConfig with
    dir := Function.update bootDir (slotDir 1) (userEntry 300)
    mem := Function.update bootConfig.low 300 fun k => if k = 0 then userEntry 301 else 0
    memMap := fun n => if n < 44 ∨ 48 ≤ n then 0 else 1
    task := Function.update (Function.update (boot bootConfig).task 1 (some (initChild 302 1 0 1)))
      2 (some { initChild 303 2 1 2 with state := .zombie }) }

theorem statusWritable_exitedChild : StatusWritable exitedChild (initChild 302 1 0 1).base 8 := by
  have hentry : ∀ i < 4, entryAt exitedChild ((initChild 302 1 0 1).base + (8 + i)) =
      some (userEntry 301) := by
    decide +kernel
  intro i hi
  exact ⟨_, hentry i hi, by simp⟩

theorem matching_exitedChild {i : TaskNr}
    (h : Matching exitedChild 1 (initChild 302 1 0 1) pid i τ) :
    τ = { initChild 303 2 1 2 with state := .zombie } := by
  obtain ⟨h0, h1, hτ⟩ := h.slot
  by_cases h2 : i = 2
  · rw [h2] at hτ
    exact (Option.some.inj hτ).symm
  · have hnone : exitedChild.task i = none := by simp [exitedChild, h1, h2, boot, memInit, h0]
    simp [hnone] at hτ

theorem waits_right_iff_wnohang : WaitsRight id 1 (initChild 302 1 0 1) 7 8 1 exitedChild
    (sysWaitpid id 1 1 (initChild 302 1 0 1) 7 8 1 exitedChild) := by
  have hnone : ∀ i τ, ¬ Matching exitedChild 1 (initChild 302 1 0 1) 7 i τ := by
    intro i τ h
    have hasked := h.asked
    simp [matching_exitedChild h, initChild] at hasked
  exact (waits_right_iff id 0 exitedChild 1 (initChild 302 1 0 1) 7 8 1 rfl
    statusWritable_exitedChild).mpr
    ⟨fun h => hnone _ _ h.1.choose_spec.choose_spec.1,
      fun h => hnone _ _ h.1.choose_spec.choose_spec⟩

def Outcome.panic : Outcome → Option Panic
  | .panicked p => some p
  | _ => none

/-- Init waits for its exited child: `release` empties the slot and panics. -/
theorem waitpid_panics_on_zombie :
    (sysWaitpid id 1 1 (initChild 302 1 0 1) (-1) 8 0 exitedChild).panic =
      some .releaseNonExistent ∧
    ¬ WaitsRight id 1 (initChild 302 1 0 1) (-1) 8 0 exitedChild
      (sysWaitpid id 1 1 (initChild 302 1 0 1) (-1) 8 0 exitedChild) := by
  have hpanic : (sysWaitpid id 1 1 (initChild 302 1 0 1) (-1) 8 0 exitedChild).panic =
      some .releaseNonExistent := by decide +kernel
  refine ⟨hpanic, fun h => ?_⟩
  have hzombie : Matching exitedChild 1 (initChild 302 1 0 1) (-1) 2
    { initChild 303 2 1 2 with state := .zombie } :=
    ⟨⟨by decide, by decide, rfl⟩, rfl, by simp⟩
  have hnot : ∀ i τ, Matching exitedChild 1 (initChild 302 1 0 1) (-1) i τ →
      τ.state ≠ .stopped := by
    intro i τ hτ
    simp [matching_exitedChild hτ]
  obtain ⟨_, _, _, _, _, _, _, _, _, hout⟩ := h.reaps ⟨_, _, hzombie, rfl⟩ hnot
  rw [hout] at hpanic
  simp [Outcome.panic] at hpanic

end Hios.Kernel
