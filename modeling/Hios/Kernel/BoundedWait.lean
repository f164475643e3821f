import Hios.Kernel.Alarm

/-! How long a task that can run waits for the processor. -/
namespace Hios.Kernel
open Hios.Mm Hios.Run Hios.Outcome
variable {s u : SchedState} {t : TaskNr} {task : TaskTable}

def timeLeft (o : Option Task) : Int := (o.map Task.counter).getD 0

def totalTime (task : TaskTable) : Int := ∑ i, timeLeft (task i)

def Waits (t : TaskNr) (s : SchedState) : Prop := t ≠ s.current ∧ ∃ p, Runnable s.m.task t p

def userTick : SchedAct → Int
  | .tick cpl => if cpl = 0 then 0 else 1
  | _ => 0

def forkCount : SchedAct → Int
  | .fork => 1
  | _ => 0

/-- Two for each tick that is left to some task, and for the one time at most that the
counters are recalculated while `t` waits. -/
def waiting (t : TaskNr) (s : SchedState) : Int :=
  2 * totalTime s.m.task + if timeLeft (s.m.task t) = 0 then 2 * (64 * 29) + 1 else 0

def potential (t : TaskNr) (s : SchedState) : Int :=
  waiting t s + if timeLeft (s.m.task s.current) = 0 then 1 else 0

theorem CountersBounded.timeLeft (h : CountersBounded task) (i : TaskNr) :
    0 ≤ timeLeft (task i) ∧ timeLeft (task i) ≤ 29 := by
  cases hi : task i with
  | none => exact ⟨le_refl 0, by decide⟩
  | some p => exact (h i p hi).2

theorem CountersBounded.totalTime (h : CountersBounded task) :
    0 ≤ totalTime task ∧ totalTime task ≤ 64 * 29 := by
  constructor
  · exact Finset.sum_nonneg fun i _ => (h.timeLeft i).1
  · calc ∑ i, Kernel.timeLeft (task i) ≤ ∑ _i : TaskNr, (29 : Int) :=
      Finset.sum_le_sum fun i _ => (h.timeLeft i).2
      _ = 64 * 29 := by simp [NR_TASKS]

theorem totalTime_update (task : TaskTable) (i : TaskNr) (o : Option Task) :
    totalTime (Function.update task i o) = totalTime task - timeLeft (task i) + timeLeft o := by
  have hnew := Finset.add_sum_erase Finset.univ (fun j => timeLeft (Function.update task i o j))
    (Finset.mem_univ i)
  have hold := Finset.add_sum_erase Finset.univ (fun j => timeLeft (task j)) (Finset.mem_univ i)
  have hsame : ∑ j ∈ Finset.univ.erase i, timeLeft (Function.update task i o j) = ∑ j ∈
      Finset.univ.erase i, timeLeft (task j) := by
    apply Finset.sum_congr rfl
    intro j hj
    rw [Function.update_of_ne (Finset.ne_of_mem_erase hj)]
  simp only [Function.update_self] at hnew
  rw [totalTime, totalTime]
  omega

theorem timeLeft_checked (s : SchedState) (i : TaskNr) :
    timeLeft (checkedTasks s i) = timeLeft (s.m.task i) := by
  by_cases hi : i = 0
  · have hzero : ¬ (i.val ≠ 0 ∧ i.val ≤ NR_TASKS - 1) := by simp [hi]
    simp only [checkedTasks, scheduleSignals, checkTasks_eq_sweep,
      sweep_apply _ (show NR_TASKS - 1 < NR_TASKS by decide),
      if_neg hzero]
    cases s.m.task i with
    | none => rfl
    | some p => rfl
  · rw [checkedTasks_apply s hi]
    cases s.m.task i with
    | none => rfl
    | some p => rfl

theorem totalTime_checked (s : SchedState) : totalTime (checkedTasks s) = totalTime s.m.task :=
  Finset.sum_congr rfl fun i _ => timeLeft_checked s i

theorem runnable_checked {p : Task} (h : Runnable s.m.task t p) :
    ∃ q, Runnable (checkedTasks s) t q ∧ q.counter = p.counter := by
  obtain ⟨ht, hp, hrun⟩ := h
  have hq := checkedTasks_apply s ht
  rw [hp, Option.map_some] at hq
  refine ⟨_, ⟨ht, hq, ?_⟩, rfl⟩
  have hstate := checkTask_state s.m.jiffies ⟨p.state, p.signal, s.blocked t, p.alarm⟩
  simp only [hrun] at hstate ⊢
  rw [hstate]
  split
  · rfl
  · rfl

/-- A choice of `schedule` gives the processor to a task with time left. If that takes
a recalculation, it is the only one that `t` waits through. -/
theorem schedule_potential (h : CountersBounded s.m.task) {p : Task} (hp : Runnable s.m.task t p)
    (hst : schedule s = some u) :
    potential t u ≤ waiting t s := by
  obtain ⟨next, task', hchoose, hchosen, hbounded⟩ := chooseTask_spec h.checked
  rw [schedule, hchoose 0, Option.map_some] at hst
  obtain rfl := Option.some.inj hst
  obtain ⟨q, hq, hcounter⟩ := runnable_checked hp
  have hnext : next ≠ 0 := fun h0 => hchosen.idle.mp h0 t q hq
  obtain ⟨r, hr, hpos, -⟩ := hchosen.best hnext
  have hflag : timeLeft (task' next) ≠ 0 := by
    rw [hr.2.1]
    exact ne_of_gt hpos
  simp only [potential, waiting, if_neg hflag]
  by_cases hex : Exhausted (checkedTasks s)
  · have hzero : timeLeft (s.m.task t) = 0 := by
      rw [← timeLeft_checked, hq.2.1]
      exact hex.2 t q hq
    have hfull : timeLeft (task' t) ≠ 0 := by
      obtain ⟨hprio, hlow, -⟩ := h.checked t q hq.2.1
      have hrefill : timeLeft (some (refill q)) = q.counter / 2 + q.priority := rfl
      rw [hchosen.refilled hex, refilled, if_neg hq.1, hq.2.1, Option.map_some, hrefill]
      omega
    have hmost := hbounded.totalTime.2
    have hleast := h.totalTime.1
    rw [if_neg hfull, if_pos hzero]
    omega
  · rw [hchosen.kept hex, totalTime_checked, timeLeft_checked]
    omega

theorem timeLeft_charged (cpl : Nat) {p : Task} (hp : 0 ≤ p.counter) :
    timeLeft (some (chargeTick cpl p)) = if p.counter = 0 then 0 else p.counter - 1 := by
  have hcounter : (chargeTick cpl p).counter = if 0 < p.counter - 1 then p.counter - 1 else 0 := by
    simp only [chargeTick]
    split
    · split
      · rfl
      · rfl
    · split
      · rfl
      · rfl
  have heq : timeLeft (some (chargeTick cpl p)) = (chargeTick cpl p).counter := rfl
  rw [heq, hcounter]
  split
  · rw [if_neg (by omega)]
  · split
    · rfl
    · omega

theorem countTick_potential (h : CountersBounded s.m.task) (hw : Waits t s) {cpl : Nat}
    (hst : countTick cpl s = some u) :
    u.current = s.current ∧ Waits t u ∧
      waiting t u = waiting t s - (if timeLeft (s.m.task s.current) = 0 then 0 else 2) ∧
      timeLeft (u.m.task s.current) =
        if timeLeft (s.m.task s.current) = 0 then 0 else timeLeft (s.m.task s.current) - 1 := by
  obtain ⟨hne, q, hq⟩ := hw
  obtain ⟨p, hp, rfl⟩ := Option.map_eq_some_iff.mp hst
  have hcharged := timeLeft_charged cpl (h s.current p hp).2.1
  have hleft : timeLeft (s.m.task s.current) = p.counter := by
    rw [hp]
    rfl
  have htask : Function.update s.m.task s.current (some (chargeTick cpl p)) t = s.m.task t :=
    Function.update_of_ne hne _ _
  refine ⟨rfl, ⟨hne, q, hq.1, ?_, hq.2.2⟩, ?_, ?_⟩
  · exact htask.trans hq.2.1
  · simp only [waiting, Machine.setTask, htask, totalTime_update, hcharged, hleft]
    split
    · omega
    · omega
  · simp only [Machine.setTask, Function.update_self, hcharged, hleft]

theorem tick_potential (h : CountersBounded s.m.task) (hw : Waits t s) {cpl : Nat}
    (hst : doTimer cpl s = some u) :
    potential t u + userTick (.tick cpl) ≤ potential t s := by
  obtain ⟨v, hv, hst⟩ := Option.bind_eq_some_iff.mp hst
  obtain ⟨p, hp, hst⟩ := Option.bind_eq_some_iff.mp hst
  obtain ⟨hcurrent, ⟨hne, q, hq⟩, hwaiting, hleft⟩ := countTick_potential h hw hv
  have hcounter : timeLeft (v.m.task s.current) = p.counter := by
    rw [← hcurrent, hp]
    rfl
  have hpos := (h.timeLeft s.current).1
  rw [hcounter] at hleft
  have htick : userTick (.tick cpl) = if cpl = 0 then 0 else 1 := rfl
  split at hst
  · rename_i hstays
    obtain rfl := Option.some.inj hst
    have hpv : potential t v = waiting t v + if p.counter = 0 then 1 else 0 := by
      rw [potential, hcurrent, hcounter]
    rw [hpv, hwaiting, htick, potential]
    by_cases hzero : timeLeft (s.m.task s.current) = 0
    · rw [if_pos hzero] at hleft ⊢
      rw [if_pos hleft, if_pos hzero, if_pos (hstays.resolve_left (by omega))]
      omega
    · rw [if_neg hzero] at hleft ⊢
      rw [if_neg hzero]
      rcases hstays with hmore | hkernel
      · rw [if_neg (ne_of_gt hmore)]
        split
        · omega
        · omega
      · rw [if_pos hkernel]
        split
        · omega
        · omega
  · rename_i hgives
    have hsched := schedule_potential (h.countTick hv) hq hst
    have huser : cpl ≠ 0 := fun h0 => hgives (.inr h0)
    have hps : potential t s = waiting t s + if timeLeft (s.m.task s.current) = 0 then 1
      else 0 := rfl
    rw [htick, if_neg huser, hps]
    by_cases hzero : timeLeft (s.m.task s.current) = 0
    · rw [if_pos hzero] at hwaiting ⊢
      omega
    · rw [if_neg hzero] at hwaiting ⊢
      omega

theorem schedule_step_potential (h : CountersBounded s.m.task) (hw : Waits t s)
    (hst : schedule s = some u) :
    potential t u ≤ potential t s := by
  obtain ⟨-, p, hp⟩ := hw
  have hsched := schedule_potential h hp hst
  have hps : potential t s = waiting t s + if timeLeft (s.m.task s.current) = 0 then 1 else 0 := rfl
  rw [hps]
  split
  · omega
  · omega

theorem forkCurrent_task (hst : forkCurrent s = some u) : u.current = s.current ∧
    (u.m.task = s.m.task ∨ ∃ nr p, s.m.task nr = none ∧
      u.m.task = Function.update s.m.task nr (some p)) := by
  obtain ⟨p, hp, hst⟩ := Option.bind_eq_some_iff.mp hst
  obtain ⟨r, hr, hst⟩ := Option.bind_eq_some_iff.mp hst
  have hforked : IfReturns (fun r => r.2.task = s.m.task ∨
      ∃ nr p, s.m.task nr = none ∧ r.2.task = Function.update s.m.task nr (some p))
        (sysFork p s.m) := by
    simp only [sysFork, findEmptyProcess]
    cases hfind : (List.finRange NR_TASKS).find? fun i => i ≠ 0 ∧ s.m.task i = none with
    | none => exact .inl rfl
    | some nr =>
      have hslot := List.find?_some hfind
      simp only [decide_eq_true_eq] at hslot
      generalize hm : ({ s.m with lastPid := findPid s.m s.m.lastPid (NR_TASKS + 1) s.m.lastPid
        } : Machine) = m
      have htask : m.task = s.m.task := by rw [← hm]
      have hfree : m.task nr = none := by rw [htask, hslot.2]
      refine (newTask_copyProcess p hfree).mono fun r hr => ?_
      rcases hr.task with hsame | ⟨child, hchild, -⟩
      · exact .inl (hsame.trans htask)
      · exact .inr ⟨nr, child, hslot.2, by rw [hchild, htask]⟩
  have hsome : sysFork p s.m = .ok r := by
    cases hfork : sysFork p s.m with
    | ok r' =>
      rw [hfork] at hr
      rw [Option.some.inj hr]
    | error e =>
      rw [hfork] at hr
      cases hr
  have htask := hforked.of_ok hsome
  split at hst
  · obtain rfl := Option.some.inj hst
    exact ⟨rfl, htask⟩
  · obtain rfl := Option.some.inj hst
    exact ⟨rfl, htask⟩

theorem fork_potential (h : CountersBounded s.m.task) (hw : Waits t s)
    (hst : forkCurrent s = some u) :
    potential t u ≤ potential t s + 58 := by
  obtain ⟨-, q, hq⟩ := hw
  obtain ⟨p, hp, -⟩ := Option.bind_eq_some_iff.mp hst
  have hbounded := h.fork hst
  obtain ⟨hcurrent, htable⟩ := forkCurrent_task hst
  rcases htable with hsame | ⟨nr, child, hfree, htask⟩
  · rw [potential, potential, waiting, waiting, hsame, hcurrent]
    omega
  · have hchild := (hbounded.timeLeft nr).2
    have hnone : timeLeft (none : Option Task) = 0 := rfl
    have hat : t ≠ nr := by
      rintro rfl
      exact absurd (hfree.symm.trans hq.2.1) (by simp)
    have hacurrent : s.current ≠ nr := by
      rintro heq
      rw [heq, hfree] at hp
      cases hp
    rw [htask, Function.update_self] at hchild
    rw [potential, potential, waiting, waiting, hcurrent, htask, totalTime_update, hfree, hnone,
      Function.update_of_ne hat,
      Function.update_of_ne hacurrent]
    omega

theorem release_potential (h : CountersBounded s.m.task) (hw' : Waits t u) {i : TaskNr}
    (hst : schedStep s (.release i) = some u) : potential t u ≤ potential t s := by
  simp only [schedStep] at hst
  split at hst
  · rename_i hi
    obtain rfl := Option.some.inj hst
    obtain ⟨-, q, hq⟩ := hw'
    have hat : t ≠ i := by
      rintro rfl
      have hgone : (s.m.setTask t none).task t = none := Function.update_self _ _ _
      exact absurd (hgone.symm.trans hq.2.1) (by simp)
    have hnone : timeLeft (none : Option Task) = 0 := rfl
    have hleft := (h.timeLeft i).1
    simp only [potential, waiting, Machine.setTask, totalTime_update, hnone,
      Function.update_of_ne hat,
      Function.update_of_ne (Ne.symm hi.2)]
    omega
  · cases hst

theorem change_potential {i : TaskNr} {state : TaskState} {signal blocked : Mm.Word} {alarm : Int}
    (hst : schedStep s (.change i state signal blocked alarm) = some u) :
    potential t u = potential t s := by
  obtain rfl := Option.some.inj hst
  have hsame (j : TaskNr) : timeLeft (Function.update s.m.task i
      ((s.m.task i).map fun p => { p with state := state, signal := signal, alarm := alarm }) j) =
        timeLeft (s.m.task j) := by
    by_cases hj : j = i
    · rw [hj, Function.update_self]
      cases s.m.task i with
      | none => rfl
      | some p => rfl
    · rw [Function.update_of_ne hj]
  have htotal : totalTime (Function.update s.m.task i
      ((s.m.task i).map fun p => { p with state := state, signal := signal, alarm := alarm })) =
        totalTime s.m.task :=
    Finset.sum_congr rfl fun j _ => hsame j
  simp only [potential, waiting, Machine.setTask, hsame, htotal]

theorem step_potential {a : SchedAct} (h : CountersBounded s.m.task) (hw : Waits t s)
    (hw' : Waits t u) (hst : schedStep s a = some u) :
    potential t u + userTick a ≤ potential t s + 58 * forkCount a := by
  cases a with
  | fork =>
    have hfork := fork_potential h hw hst
    simp only [userTick, forkCount]
    omega
  | tick cpl =>
    have htick := tick_potential h hw hst
    simp only [forkCount]
    omega
  | schedule =>
    have hsched := schedule_step_potential h hw hst
    simp only [userTick, forkCount]
    omega
  | change i state signal blocked alarm =>
    have hchange := change_potential (t := t) hst
    simp only [userTick, forkCount]
    omega
  | release i =>
    have hrelease := release_potential h hw' hst
    simp only [userTick, forkCount]
    omega

theorem potential_le (h : CountersBounded s.m.task) (t : TaskNr) : potential t s ≤ 7426 := by
  have hmost := h.totalTime.2
  simp only [potential, waiting]
  split
  · split
    · omega
    · omega
  · split
    · omega
    · omega

/-- A task that can run is given the processor after 7426 ticks that find the machine in
user mode, and 58 more for each fork in between, whatever the other tasks do. -/
theorem bounded_wait {c : Config} {as bs : List SchedAct}
    (h : run schedStep (bootSched c) as = some s) (hw : Always schedStep (Waits t) s bs)
    (hrun : run schedStep s bs = some u) :
    (bs.map userTick).sum ≤ 7426 + 58 * (bs.map forkCount).sum := by
  have hbounded : CountersBounded s.m.task :=
    run_inv (fun _ _ _ hs hst => CountersBounded.step hs hst) (countersBounded_boot c) h
  have halways : Always schedStep (fun s => CountersBounded s.m.task ∧ Waits t s) s bs :=
    (always_of_inv (fun _ _ _ hs hst => CountersBounded.step hs hst) hbounded).and hw
  have hcost : potential t u + (bs.map userTick).sum ≤ potential t s +
    (bs.map fun a => 58 * forkCount a).sum :=
    run_cost (fun s a v hs hv hst => step_potential hs.1 hs.2 hv.2 hst) halways hrun
  have hgain : (bs.map fun a => 58 * forkCount a).sum = 58 * (bs.map forkCount).sum :=
    List.sum_map_mul_left bs forkCount 58
  have hleast : 0 ≤ potential t u := by
    have hend : CountersBounded u.m.task :=
      run_inv (fun _ _ _ hs hst => CountersBounded.step hs hst) hbounded hrun
    have htotal := hend.totalTime.1
    simp only [potential, waiting]
    split
    · split
      · omega
      · omega
    · split
      · omega
      · omega
  have hmost := potential_le hbounded t
  rw [hgain] at hcost
  omega

instance (t : TaskNr) (s : SchedState) : Decidable (Waits t s) :=
  decidable_of_iff (t ≠ s.current ∧ t ≠ 0 ∧ (s.m.task t).any fun p => p.state = .running) (by
    simp [Waits, Runnable, Option.any_eq_true])

theorem bounded_wait_of_child : ∃ s u, run schedStep (bootSched bootConfig) [.fork] = some s ∧
    run schedStep s [.tick 3] = some u ∧ ([SchedAct.tick 3].map userTick).sum ≤ 7426 + 58 *
      ([SchedAct.tick 3].map forkCount).sum := by
  have hrun : (run schedStep (bootSched bootConfig) [.fork]).any fun s =>
      Waits 1 s ∧ (schedStep s (.tick 3)).any fun u => Waits 1 u := by decide +kernel
  obtain ⟨s, hs, hboth⟩ := (Option.any_eq_true _ _).mp hrun
  obtain ⟨hw, hnext⟩ := of_decide_eq_true hboth
  obtain ⟨u, hu, hw'⟩ := (Option.any_eq_true _ _).mp hnext
  have halways : Always schedStep (Waits 1) s [.tick 3] := by
    refine ⟨hw, fun v hv => ?_⟩
    obtain rfl := Option.some.inj (hu.symm.trans hv)
    have hends : Waits 1 u := of_decide_eq_true hw'
    exact hends
  have hlast : run schedStep s [.tick 3] = some u := run_cons_some.mpr ⟨u, hu, rfl⟩
  exact ⟨s, u, hs, hlast, bounded_wait hs halways hlast⟩

end Hios.Kernel
