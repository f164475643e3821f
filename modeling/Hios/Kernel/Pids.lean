import Hios.Kernel.System
import Hios.Lib.Outcome
import Mathlib.Data.Fintype.Card

/-! Process numbers and fathers over runs of fork, exit and release. -/
namespace Hios.Kernel
open Hios.Mm Hios.Run Hios.Outcome

structure Untouched (m m' : Machine) : Prop where
  task : m'.task = m.task
  lastPid : m'.lastPid = m.lastPid

theorem Untouched.refl (m : Machine) : Untouched m m := ⟨rfl, rfl⟩

theorem Untouched.trans {m m' m'' : Machine} (h : Untouched m m') (h' : Untouched m' m'') :
    Untouched m m'' := ⟨h'.task.trans h.task, h'.lastPid.trans h.lastPid⟩

theorem untouched_getFreePage {m m' : Machine} {page : Nat} (h : getFreePage m = some (page, m')) :
    Untouched m m' := by
  obtain ⟨n, -, hn⟩ := Option.map_eq_some_iff.mp h
  obtain ⟨-, rfl⟩ := Prod.mk.inj hn
  exact ⟨rfl, rfl⟩

theorem untouched_freePage (page : Nat) (m : Machine) :
    IfReturns (Untouched m) (freePage page m) := by
  unfold freePage
  split
  · exact .refl m
  · split
    · exact .refl m
    · split
      · exact ⟨rfl, rfl⟩
      · trivial

theorem untouched_freeEntry (table : Nat) (m : Machine) (nr : Fin 1024) :
    IfReturns (Untouched m) (freeEntry table m nr) := by
  simp only [freeEntry]
  split
  · exact (untouched_freePage _ m).bind (R := Untouched m) fun m' h => ⟨h.task, h.lastPid⟩
  · exact ⟨rfl, rfl⟩

theorem untouched_freeEntries (table : Nat) (l : List (Fin 1024)) (m : Machine) :
    IfReturns (Untouched m) (l.foldlM (freeEntry table) m) := by
  apply Ends.foldlM (I := Untouched m) (.refl m)
  intro m' nr _ h
  exact (untouched_freeEntry table m' nr).mono fun _ h' => h.trans h'

theorem untouched_freeTable (m : Machine) (dir : Fin 1024) :
    IfReturns (Untouched m) (freeTable m dir) := by
  simp only [freeTable]
  generalize List.finRange 1024 = entries
  split
  · refine (untouched_freeEntries _ entries m).bind (R := Untouched m) fun m' h => ?_
    refine (untouched_freePage _ m').bind (R := Untouched m) fun m'' h' => ?_
    exact ⟨(h.trans h').task, (h.trans h').lastPid⟩
  · exact .refl m

theorem untouched_freePageTables (fromAddr size : Nat) (m : Machine) :
    IfReturns (Untouched m) (freePageTables fromAddr size m) := by
  unfold freePageTables
  split
  · trivial
  · split
    · trivial
    · exact Ends.foldlM (.refl m) fun m' dir _ h => (untouched_freeTable m' dir).mono fun _ h' =>
        h.trans h'

theorem untouched_putPage {page address : Nat} {m m' : Machine}
    (h : putPage page address m = some m') :
    Untouched m m' := by
  simp only [putPage] at h
  split at h
  · rw [← Option.some.inj h]
    exact ⟨rfl, rfl⟩
  · obtain ⟨⟨tmp, m₁⟩, hg, rfl⟩ := Option.map_eq_some_iff.mp h
    exact (untouched_getFreePage hg).trans ⟨rfl, rfl⟩

theorem untouched_unWpPage (table : Nat) (k : Fin 1024) (m : Machine) :
    IfReturns (Untouched m) (unWpPage table k m) := by
  simp only [unWpPage]
  split
  · exact ⟨rfl, rfl⟩
  · split
    · trivial
    · rename_i page m₁ hg
      have hdec : Untouched m₁ (if LOW_MEM ≤ pageOf (m.mem table k) then
          decMap (pageOf (m.mem table k)) m₁ else m₁) := by
        split
        · exact ⟨rfl, rfl⟩
        · exact .refl m₁
      exact ((untouched_getFreePage hg).trans hdec).trans ⟨rfl, rfl⟩

theorem untouched_doNoPage (address : Nat) (m : Machine) :
    IfReturns (Untouched m) (doNoPage address m) := by
  unfold doNoPage
  split
  · trivial
  · rename_i page m₁ hg
    split
    · rename_i m₂ hp
      exact (untouched_getFreePage hg).trans (untouched_putPage hp)
    · cases freePage page m₁ with
      | ok m => trivial
      | error p => trivial

theorem untouched_writeVerify (address : Nat) (m : Machine) :
    IfReturns (Untouched m) (writeVerify address m) := by
  unfold writeVerify
  simp only
  split
  · split
    · exact untouched_unWpPage _ _ m
    · exact .refl m
  · exact .refl m

theorem untouched_verifyLoop (start : Nat) (size : Int) (m : Machine) :
    IfReturns (Untouched m) (verifyLoop start size m) := by
  induction start, size, m using verifyLoop.induct with
  | case1 start size m hpos ih =>
    rw [verifyLoop, if_pos hpos]
    refine (untouched_writeVerify start m).bind fun m' h => ?_
    exact (ih m').mono fun _ h' => h.trans h'
  | case2 start size m hpos =>
    rw [verifyLoop, if_neg hpos]
    exact .refl m

theorem untouched_readUser (x : Nat) (m : Machine) :
    IfReturns (fun r => Untouched m r.2) (readUser x m) := by
  unfold readUser
  split
  · split
    · exact .refl m
    · exact Ends.map (untouched_doNoPage x m)
  · exact Ends.map (untouched_doNoPage x m)

theorem untouched_writeUser (x : Nat) (v : Byte) (m : Machine) :
    IfReturns (fun r => Untouched m r.2) (writeUser x v m) := by
  unfold writeUser
  split
  · split
    · split
      · exact ⟨rfl, rfl⟩
      · exact Ends.map (untouched_unWpPage _ _ m)
    · exact Ends.map (untouched_doNoPage x m)
  · exact Ends.map (untouched_doNoPage x m)

theorem untouched_copyEntry (fromTable toTable : Nat) (m : Machine) (nr : Fin 1024) :
    Untouched m (copyEntry fromTable toTable m nr) := by
  unfold copyEntry
  simp only
  split
  · split
    · exact ⟨rfl, rfl⟩
    · exact ⟨rfl, rfl⟩
  · exact .refl m

theorem untouched_copyEntries (fromTable toTable : Nat) (l : List (Fin 1024)) (m : Machine) :
    Untouched m (l.foldl (copyEntry fromTable toTable) m) := by
  induction l generalizing m with
  | nil => exact .refl m
  | cons nr l ih => exact (untouched_copyEntry fromTable toTable m nr).trans (ih _)

theorem untouched_copyTables (nr : Nat) (l : List (Fin 1024 × Fin 1024)) (m : Machine) :
    IfReturns (fun r => Untouched m r.2) (copyTables nr l m) := by
  induction l generalizing m with
  | nil => exact .refl m
  | cons d l ih =>
    obtain ⟨fromDir, toDir⟩ := d
    unfold copyTables
    split
    · trivial
    · split
      · split
        · exact .refl m
        · rename_i toTable m₁ hg
          have hset : Untouched m (m₁.setDir toDir (userEntry toTable)) :=
            (untouched_getFreePage hg).trans ⟨rfl, rfl⟩
          refine (ih _).mono fun r h => ?_
          exact (hset.trans (untouched_copyEntries _ _ _ _)).trans h
      · exact ih m

theorem untouched_copyPageTables (fromAddr toAddr size : Nat) (m : Machine) :
    IfReturns (fun r => Untouched m r.2) (copyPageTables fromAddr toAddr size m) := by
  unfold copyPageTables
  split
  · trivial
  · exact untouched_copyTables _ _ m

/-- What `copy_process` does to the task table: nothing if it fails, else a task
with the new pid whose father is the current one. -/
structure NewTask (current : Task) (nr : TaskNr) (m m' : Machine) : Prop where
  lastPid : m'.lastPid = m.lastPid
  task : m'.task = m.task ∨ ∃ p, m'.task = Function.update m.task nr (some p) ∧
    p.pid = m.lastPid ∧ p.father = current.pid ∧ p.state = .running

theorem newTask_copyProcess {nr : TaskNr} (current : Task) {m : Machine}
    (hfree : m.task nr = none) :
    IfReturns (fun r => NewTask current nr m r.2) (copyProcess current nr m) := by
  unfold copyProcess
  split
  · exact ⟨rfl, .inl rfl⟩
  · rename_i page m₁ hg
    have h₁ := untouched_getFreePage hg
    refine Ends.bind (Q := fun r => ∃ p, r.2.task = Function.update m.task nr (some p) ∧
      r.2.lastPid = m.lastPid ∧ p.pid = m.lastPid ∧ p.father = current.pid) ?_ fun r hr => ?_
    · simp only [copyMem]
      refine (untouched_copyPageTables _ _ _ _).bind fun r h₂ => ?_
      obtain ⟨err, m₂⟩ := r
      have htask : ∀ m₃, Untouched m₂ m₃ → m₃.task = Function.update m.task nr
          (some { current with
            state := .uninterruptible, pid := m₁.lastPid, father := current.pid,
            counter := current.priority, signal := 0, alarm := 0, leader := 0,
            utime := 0, stime := 0, cutime := 0, cstime := 0,
            startTime := m₁.jiffies, page := page, base := newBase nr }) := by
        intro m₃ h₃
        rw [h₃.task, h₂.task]
        simp [Machine.setTask, h₁.task]
      have hlast : ∀ m₃, Untouched m₂ m₃ → m₃.lastPid = m.lastPid := fun m₃ h₃ =>
        (h₃.lastPid.trans h₂.lastPid).trans h₁.lastPid
      split
      · refine (untouched_freePageTables _ _ m₂).bind fun m₃ h₃ => ?_
        exact ⟨_, htask m₃ h₃, hlast m₃ h₃, h₁.lastPid, rfl⟩
      · exact ⟨_, htask m₂ (.refl m₂), hlast m₂ (.refl m₂), h₁.lastPid, rfl⟩
    · obtain ⟨err, m₂⟩ := r
      obtain ⟨p, htask, hlast, hpid, hfather⟩ := hr
      have htask : m₂.task = Function.update m.task nr (some p) := htask
      simp only
      split
      · refine (untouched_freePage page (m₂.setTask nr none)).bind fun m₃ h₃ => ?_
        have hsame : m₃.task = m.task := by
          rw [h₃.task]
          have hback : Function.update m₂.task nr none = m.task := by
            rw [htask, Function.update_idem, ← hfree, Function.update_eq_self]
          exact hback
        exact ⟨h₃.lastPid.trans hlast, .inl hsame⟩
      · refine ⟨hlast, .inr ⟨{ p with state := .running }, ?_, hpid, hfather, rfl⟩⟩
        simp [Machine.setTask, htask]

def pidAfter (pid : Int) (k : Nat) : Int :=
  if pid + k < 2 ^ 31 then pid + k else pid + k - 2 ^ 31 + 1

theorem nextPid_pidAfter {pid : Int} {k : Nat} (h : 0 ≤ pid ∧ pid < 2 ^ 31) (hk : k ≤ NR_TASKS) :
    nextPid (pidAfter pid k) = pidAfter pid (k + 1) := by
  simp only [NR_TASKS] at hk
  unfold nextPid pidAfter
  split
  · split
    · rw [if_pos (by omega)]
      omega
    · rw [if_neg (by omega)]
      omega
  · rw [if_pos (by omega), if_neg (by omega)]
    omega

theorem pidAfter_inj {pid : Int} {j k : Nat} (hj : j ≤ NR_TASKS)
    (hk : k ≤ NR_TASKS) (he : pidAfter pid j = pidAfter pid k) : j = k := by
  simp only [NR_TASKS] at hj hk
  unfold pidAfter at he
  split at he
  · split at he
    · omega
    · omega
  · split at he
    · omega
    · omega

theorem pidAfter_range {pid : Int} {k : Nat} (h : 0 ≤ pid ∧ pid < 2 ^ 31) (hk : k ≤ NR_TASKS) :
    0 ≤ pidAfter pid k ∧ pidAfter pid k < 2 ^ 31 ∧ pidAfter pid k + 1 ≠ pid := by
  simp only [NR_TASKS] at hk
  unfold pidAfter
  split
  · omega
  · omega

theorem exists_free_pid (m : Machine) (pid : Int) :
    ∃ k, k ≤ NR_TASKS ∧ ¬ pidTaken m (pidAfter pid k) := by
  by_contra hno
  have htaken : ∀ k : Fin (NR_TASKS + 1), ∃ i τ, m.task i = some τ ∧ τ.pid = pidAfter pid k := by
    intro k
    by_contra hk
    exact hno ⟨k, Nat.lt_succ_iff.mp k.isLt, hk⟩
  choose slot τ hτ hpid using htaken
  have hinj : Function.Injective slot := by
    intro j k he
    have hτe : τ j = τ k := by
      have hj := hτ j
      rw [he, hτ k] at hj
      exact (Option.some.inj hj).symm
    have hpe : pidAfter pid j = pidAfter pid k := by rw [← hpid j, ← hpid k, hτe]
    exact Fin.ext (pidAfter_inj (Nat.lt_succ_iff.mp j.isLt) (Nat.lt_succ_iff.mp k.isLt) hpe)
  have hcard := Fintype.card_le_of_injective slot hinj
  simp only [Fintype.card_fin] at hcard
  omega

theorem findPid_from {m : Machine} {pid : Int} (h : 0 ≤ pid ∧ pid < 2 ^ 31) {n : Nat}
    (hn : n ≤ NR_TASKS) (hfree : ¬ pidTaken m (pidAfter pid n))
    (hfirst : ∀ k < n, pidTaken m (pidAfter pid k)) (d : Nat) :
    ∀ k fuel, k + d = n → d < fuel → findPid m pid fuel (pidAfter pid k) = pidAfter pid n := by
  induction d with
  | zero =>
    intro k fuel hk hfuel
    obtain ⟨fuel, rfl⟩ : ∃ f, fuel = f + 1 := ⟨fuel - 1, by omega⟩
    obtain rfl : k = n := hk
    rw [findPid, if_neg hfree]
  | succ d ih =>
    intro k fuel hk hfuel
    obtain ⟨fuel, rfl⟩ : ∃ f, fuel = f + 1 := ⟨fuel - 1, by omega⟩
    rw [findPid, if_pos (hfirst k (by omega)), if_neg (pidAfter_range h (by omega)).2.2,
      nextPid_pidAfter h (by omega)]
    exact ih (k + 1) fuel (by omega) (by omega)

/-- The loop ends within `NR_TASKS + 1` rounds, at a pid that no task has. -/
theorem findPid_spec (m : Machine) {pid : Int} (h : 0 ≤ pid ∧ pid < 2 ^ 31) :
    ∃ free, 0 ≤ free ∧ free < 2 ^ 31 ∧ ¬ pidTaken m free ∧
      ∀ fuel, NR_TASKS < fuel → findPid m pid fuel pid = free := by
  have hex : ∃ k, k ≤ NR_TASKS ∧ ¬ pidTaken m (pidAfter pid k) := exists_free_pid m pid
  have hn := Nat.find_spec hex
  have hfirst : ∀ k < Nat.find hex, pidTaken m (pidAfter pid k) := by
    intro k hk
    by_contra hno
    exact Nat.find_min hex hk ⟨by omega, hno⟩
  have hzero : pidAfter pid 0 = pid := by
    unfold pidAfter
    rw [if_pos (by simpa using h.2)]
    simp
  refine ⟨pidAfter pid (Nat.find hex), (pidAfter_range h hn.1).1, (pidAfter_range h hn.1).2.1, hn.2,
    ?_⟩
  intro fuel hfuel
  have hfind := findPid_from h hn.1 hn.2 hfirst (Nat.find hex) 0 fuel (by omega) (by omega)
  rwa [hzero] at hfind

end Hios.Kernel
