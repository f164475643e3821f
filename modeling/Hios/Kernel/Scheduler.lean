import Hios.Kernel.CopyOnWrite
import Hios.Kernel.Pids
import Hios.Kernel.Schedule

/-! The second loop of `schedule`, which chooses the next task, over runs of
forks, timer ticks and state changes. -/
namespace Hios.Kernel
open Hios.Mm Hios.Run Hios.Outcome

abbrev TaskTable := TaskNr → Option Task

/-- `while (--i)`, for the slots from `n` down to 1, with the `c` and `next` found so far. -/
def pickTask (task : TaskTable) : Nat → Int → TaskNr → Int × TaskNr
  | 0, c, next => (c, next)
  | n + 1, c, next =>
    let i := Fin.ofNat NR_TASKS (n + 1)
    match task i with
    | none => pickTask task n c next
    | some p =>
      if p.state = .running ∧ c < p.counter then pickTask task n p.counter i
        else pickTask task n c next

def refill (p : Task) : Task := { p with counter := p.counter / 2 + p.priority }

def refillTasks (task : TaskTable) : TaskTable := sweep refill (NR_TASKS - 1) task

/-- `while (1)`, for at most the given number of rounds. -/
def chooseTask : Nat → TaskTable → Option (TaskNr × TaskTable)
  | 0, _ => none
  | fuel + 1, task =>
    let r := pickTask task (NR_TASKS - 1) (-1) 0
    if r.1 ≠ 0 then some (r.2, task) else chooseTask fuel (refillTasks task)

structure SchedState where
  m : Machine
  blocked : TaskNr → Word
  current : TaskNr

/-- The tasks after the first loop of `schedule`. -/
def checkedTasks (s : SchedState) : TaskTable :=
  let checked := scheduleSignals s.m.jiffies fun i =>
    (s.m.task i).map fun p => ⟨p.state, p.signal, s.blocked i, p.alarm⟩
  fun i => (s.m.task i).bind fun p =>
    (checked i).map fun q => { p with state := q.state, signal := q.signal, alarm := q.alarm }

/-- `schedule`; two rounds of its `while (1)` are enough. -/
def schedule (s : SchedState) : Option SchedState :=
  (chooseTask 2 (checkedTasks s)).map fun r =>
    { s with m := { s.m with task := r.2 }, current := r.1 }

def chargeTick (cpl : Nat) (p : Task) : Task :=
  let p := if cpl = 0 then { p with stime := p.stime + 1 } else { p with utime := p.utime + 1 }
  let p := { p with counter := p.counter - 1 }
  if 0 < p.counter then p else { p with counter := 0 }

/-- `incl jiffies`, and `do_timer` up to its call of `schedule`. -/
def countTick (cpl : Nat) (s : SchedState) : Option SchedState :=
  (s.m.task s.current).map fun p =>
    let m := { s.m with jiffies := Int.bmod (s.m.jiffies + 1) (2 ^ 32) }
    { s with m := m.setTask s.current (some (chargeTick cpl p)) }

def doTimer (cpl : Nat) (s : SchedState) : Option SchedState := do
  let s ← countTick cpl s
  let p ← s.m.task s.current
  if 0 < p.counter ∨ cpl = 0 then return s else schedule s

inductive SchedAct where
  | fork
  | tick (cpl : Nat)
  | schedule
  /-- Other code of the kernel changes what `schedule` reads of a task, but neither its
  counter nor its priority. -/
  | change (t : TaskNr) (state : TaskState) (signal blocked : Word) (alarm : Int)
  /-- `release`. -/
  | release (t : TaskNr)

def forkCurrent (s : SchedState) : Option SchedState := do
  let p ← s.m.task s.current
  let r ← (sysFork p s.m).toOption
  match filledSlot s.m r.2 with
  | none => return { s with m := r.2 }
  | some nr =>
    return { s with m := r.2, blocked := Function.update s.blocked nr (s.blocked s.current) }

def schedStep (s : SchedState) : SchedAct → Option SchedState
  | .fork => forkCurrent s
  | .tick cpl => doTimer cpl s
  | .schedule => schedule s
  | .change t state signal blocked alarm =>
    some { s with
      m := s.m.setTask t ((s.m.task t).map fun p =>
        { p with state := state, signal := signal, alarm := alarm })
      blocked := Function.update s.blocked t blocked }
  | .release t => if t ≠ 0 ∧ t ≠ s.current then some { s with m := s.m.setTask t none } else none

def bootSched (c : Config) : SchedState := { m := boot c, blocked := fun _ => 0, current := 0 }

def Runnable (task : TaskTable) (i : TaskNr) (p : Task) : Prop :=
  i ≠ 0 ∧ task i = some p ∧ p.state = .running

/-- Some task can run, but none has time left. -/
def Exhausted (task : TaskTable) : Prop :=
  (∃ i p, Runnable task i p) ∧ ∀ i p, Runnable task i p → p.counter = 0

def refilled (task : TaskTable) : TaskTable :=
  fun i => if i = 0 then task i else (task i).map refill

/-- The rule of the choice: `next` is to run, and `task'` is the table it was chosen from. -/
structure Chosen (task : TaskTable) (next : TaskNr) (task' : TaskTable) : Prop where
  kept : ¬ Exhausted task → task' = task
  refilled : Exhausted task → task' = refilled task
  idle : next = 0 ↔ ∀ i p, ¬ Runnable task i p
  best : next ≠ 0 → ∃ p, Runnable task' next p ∧ 0 < p.counter ∧
    ∀ i q, Runnable task' i q → q.counter < p.counter ∨ (q.counter = p.counter ∧ i ≤ next)

def CountersBounded (task : TaskTable) : Prop :=
  ∀ i p, task i = some p → p.priority = 15 ∧ 0 ≤ p.counter ∧ p.counter ≤ 29

def UpTo (n : Nat) (task : TaskTable) (i : TaskNr) (p : Task) : Prop :=
  i.val ≤ n ∧ Runnable task i p

theorem refillTasks_eq (task : TaskTable) : refillTasks task = refilled task := by
  funext i
  by_cases hi : i = 0
  · rw [refillTasks, sweep_apply refill (by decide), refilled, if_pos hi, if_neg (by simp [hi])]
  · rw [refillTasks, sweep_all refill task hi, refilled, if_neg hi]

theorem upTo_zero {task : TaskTable} {i : TaskNr} {p : Task} : ¬ UpTo 0 task i p := by
  rintro ⟨hle, hi, _⟩
  exact hi (Fin.ext (Nat.le_zero.mp hle))

theorem upTo_succ {n : Nat} (hn : n + 1 < NR_TASKS) {task : TaskTable} {i : TaskNr} {p : Task} :
    UpTo (n + 1) task i p ↔ UpTo n task i p ∨ i = Fin.ofNat NR_TASKS (n + 1) ∧
    Runnable task i p := by
  have hval : (Fin.ofNat NR_TASKS (n + 1)).val = n + 1 := Nat.mod_eq_of_lt hn
  have heq : i = Fin.ofNat NR_TASKS (n + 1) ↔ i.val = n + 1 := by rw [Fin.ext_iff, hval]
  rw [UpTo, UpTo, heq, ← or_and_right]
  exact and_congr_left fun _ => Nat.le_succ_iff

/-- What the scan finds: the values it started with, if no task has more, or else the
highest slot of those with the largest counter. -/
theorem pickTask_spec (task : TaskTable) {n : Nat} (hn : n < NR_TASKS) (c : Int) (next : TaskNr) :
    (pickTask task n c next = (c, next) ∧ ∀ i p, UpTo n task i p → p.counter ≤ c) ∨
      ∃ i p, pickTask task n c next = (p.counter, i) ∧ UpTo n task i p ∧ c < p.counter ∧
        ∀ j q, UpTo n task j q → q.counter < p.counter ∨ (q.counter = p.counter ∧ j ≤ i) := by
  induction n generalizing c next with
  | zero => exact .inl ⟨rfl, fun i p h => absurd h upTo_zero⟩
  | succ n ih =>
    have hlt : n < NR_TASKS := by omega
    have hval : (Fin.ofNat NR_TASKS (n + 1)).val = n + 1 := Nat.mod_eq_of_lt hn
    have hne : Fin.ofNat NR_TASKS (n + 1) ≠ 0 := fun h =>
      absurd (hval.symm.trans (congrArg Fin.val h)) (Nat.succ_ne_zero n)
    simp only [upTo_succ hn, pickTask]
    generalize Fin.ofNat NR_TASKS (n + 1) = k at hval hne
    cases hk : task k with
    | none =>
      have hno : ∀ i p, ¬ (i = k ∧ Runnable task i p) := fun i p ⟨hi, _, hp, _⟩ => by
        rw [hi, hk] at hp
        cases hp
      simpa [hno] using ih hlt c next
    | some p =>
      have hsame : ∀ {j q}, j = k ∧ Runnable task j q → q = p := fun ⟨hj, _, hq, _⟩ => by
        rw [hj, hk] at hq
        exact (Option.some.inj hq).symm
      simp only
      by_cases hp : p.state = .running ∧ c < p.counter
      · rw [if_pos hp]
        refine .inr ?_
        cases ih hlt p.counter k with
        | inl h =>
          refine ⟨k, p, h.1, .inr ⟨rfl, hne, hk, hp.1⟩, hp.2, fun j q hj => ?_⟩
          cases hj with
          | inl hj =>
            have hle : q.counter ≤ p.counter := h.2 j q hj
            have hjk : j ≤ k := Fin.le_def.mpr (by have := hj.1; omega)
            exact hle.lt_or_eq.imp_right fun he => ⟨he, hjk⟩
          | inr hj => exact .inr ⟨by rw [hsame hj], hj.1.le⟩
        | inr h =>
          obtain ⟨i, q, heq, hup, hmore, hmax⟩ := h
          refine ⟨i, q, heq, .inl hup, hp.2.trans hmore, fun j r hj => ?_⟩
          cases hj with
          | inl hj => exact hmax j r hj
          | inr hj => exact .inl (hsame hj ▸ hmore)
      · rw [if_neg hp]
        have hle : ∀ {j q}, j = k ∧ Runnable task j q → q.counter ≤ c := fun hj => by
          have hq := hsame hj
          by_contra hno
          exact hp ⟨hq ▸ hj.2.2.2, hq ▸ not_le.mp hno⟩
        cases ih hlt c next with
        | inl h => exact .inl ⟨h.1, fun j q hj => hj.elim (h.2 j q) hle⟩
        | inr h =>
          obtain ⟨i, q, heq, hup, hmore, hmax⟩ := h
          refine .inr ⟨i, q, heq, .inl hup, hmore, fun j r hj => ?_⟩
          exact hj.elim (hmax j r) fun hj => .inl ((hle hj).trans_lt hmore)

theorem upTo_all {task : TaskTable} {i : TaskNr} {p : Task} :
    UpTo (NR_TASKS - 1) task i p ↔ Runnable task i p := by
  have hlt : i.val < NR_TASKS := i.isLt
  rw [UpTo, and_iff_right (by omega)]

theorem round_spec {task : TaskTable} (h : CountersBounded task) :
    (pickTask task (NR_TASKS - 1) (-1) 0 = (-1, 0) ∧ ∀ i p, ¬ Runnable task i p) ∨
      ∃ i p, pickTask task (NR_TASKS - 1) (-1) 0 = (p.counter, i) ∧ Runnable task i p ∧
        ∀ j q, Runnable task j q → q.counter < p.counter ∨ (q.counter = p.counter ∧ j ≤ i) := by
  have hpick := pickTask_spec task (n := NR_TASKS - 1) (by decide) (-1) 0
  simp only [upTo_all] at hpick
  cases hpick with
  | inl hpick =>
    refine .inl ⟨hpick.1, fun i p hr => ?_⟩
    have hle := hpick.2 i p hr
    have hpos := (h i p hr.2.1).2.1
    omega
  | inr hpick =>
    obtain ⟨i, p, heq, hr, -, hmax⟩ := hpick
    exact .inr ⟨i, p, heq, hr, hmax⟩

theorem refilled_runnable {task : TaskTable} {i : TaskNr} {q : Task} :
    Runnable (refilled task) i q ↔ ∃ p, Runnable task i p ∧ q = refill p := by
  constructor
  · rintro ⟨hi, hq, hrun⟩
    rw [refilled, if_neg hi] at hq
    obtain ⟨p, hp, rfl⟩ := Option.map_eq_some_iff.mp hq
    exact ⟨p, ⟨hi, hp, hrun⟩, rfl⟩
  · rintro ⟨p, ⟨hi, hp, hrun⟩, hq⟩
    refine ⟨hi, ?_, hq ▸ hrun⟩
    rw [refilled, if_neg hi, hp, hq, Option.map_some]

/-- Whatever the counters are, a task other than 0 is chosen only if it can run. -/
theorem chooseTask_runnable {fuel : Nat} {task task' : TaskTable} {next : TaskNr}
    (h : chooseTask fuel task = some (next, task')) (hn : next ≠ 0) :
    ∃ p, Runnable task next p := by
  induction fuel generalizing task with
  | zero => cases h
  | succ fuel ih =>
    simp only [chooseTask] at h
    split at h
    · obtain ⟨rfl, -⟩ := Prod.mk.inj (Option.some.inj h)
      cases pickTask_spec task (n := NR_TASKS - 1) (by decide) (-1) 0 with
      | inl hnone => exact absurd (congrArg Prod.snd hnone.1) hn
      | inr hsome =>
        obtain ⟨i, p, heq, hup, -⟩ := hsome
        rw [heq]
        exact ⟨p, hup.2⟩
    · rw [refillTasks_eq] at h
      obtain ⟨p, hp⟩ := ih h
      obtain ⟨q, hq, -⟩ := refilled_runnable.mp hp
      exact ⟨q, hq⟩

theorem chooseTask_map {κ : Type} {keep : Task → κ} (hkeep : ∀ p, keep (refill p) = keep p)
    {fuel : Nat} {task task' : TaskTable} {next : TaskNr}
    (h : chooseTask fuel task = some (next, task')) (i : TaskNr) :
    (task' i).map keep = (task i).map keep := by
  induction fuel generalizing task with
  | zero => cases h
  | succ fuel ih =>
    simp only [chooseTask] at h
    split at h
    · rw [(Prod.mk.inj (Option.some.inj h)).2]
    · rw [ih h, refillTasks_eq, refilled]
      split
      · rfl
      · rw [Option.map_map]
        exact congrArg (fun f => (task i).map f) (funext hkeep)

theorem CountersBounded.refilled {task : TaskTable} (h : CountersBounded task) :
    CountersBounded (refilled task) := by
  intro i p hp
  by_cases hi : i = 0
  · rw [Kernel.refilled, if_pos hi] at hp
    exact h i p hp
  · rw [Kernel.refilled, if_neg hi] at hp
    obtain ⟨q, hq, rfl⟩ := Option.map_eq_some_iff.mp hp
    obtain ⟨hprio, hlow, hhigh⟩ := h i q hq
    refine ⟨hprio, ?_, ?_⟩
    · simp only [refill]
      omega
    · simp only [refill]
      omega

theorem chooseTask_spec {task : TaskTable} (h : CountersBounded task) :
    ∃ next task', (∀ fuel, chooseTask (fuel + 2) task = some (next, task')) ∧
    Chosen task next task' ∧
      CountersBounded task' := by
  cases round_spec h with
  | inl hnone =>
    obtain ⟨hpick, hidle⟩ := hnone
    refine ⟨0, task, fun fuel => by rw [chooseTask, hpick]; rfl, ?_, h⟩
    exact ⟨fun _ => rfl, fun hex => absurd hex.1 (by simpa using hidle), iff_of_true rfl hidle,
      fun hn => absurd rfl hn⟩
  | inr hsome =>
    obtain ⟨i, p, hpick, hrun, hmax⟩ := hsome
    have hidle : i = 0 ↔ ∀ j q, ¬ Runnable task j q := iff_of_false hrun.1 fun hno => hno i p hrun
    by_cases hp : p.counter = 0
    · have hex : Exhausted task := by
        refine ⟨⟨i, p, hrun⟩, fun j q hq => ?_⟩
        have hpos := (h j q hq.2.1).2.1
        have hle := hmax j q hq
        omega
      have hfull : ∀ j q, Runnable (Kernel.refilled task) j q → 0 < q.counter := by
        intro j q hq
        obtain ⟨r, hr, rfl⟩ := refilled_runnable.mp hq
        obtain ⟨hprio, hlow, -⟩ := h j r hr.2.1
        simp only [refill]
        omega
      have hrun' : Runnable (Kernel.refilled task) i (refill p) :=
        refilled_runnable.mpr ⟨p, hrun, rfl⟩
      cases round_spec h.refilled with
      | inl hnone => exact absurd hrun' (hnone.2 i _)
      | inr hsome =>
        obtain ⟨k, q, hpick', hq, hmax'⟩ := hsome
        have hpos : 0 < q.counter := hfull k q hq
        refine ⟨k, Kernel.refilled task, fun fuel => ?_,
          ⟨fun hno => absurd hex hno, fun _ => rfl, ?_, fun _ => ?_⟩,
          h.refilled⟩
        · rw [chooseTask, hpick]
          simp only [hp, ne_eq, not_true, if_false, refillTasks_eq]
          rw [chooseTask, hpick']
          exact if_pos (ne_of_gt hpos)
        · exact iff_of_false hq.1 fun hno => hno i p hrun
        · exact ⟨q, hq, hpos, hmax'⟩
    · have hpos : 0 < p.counter := lt_of_le_of_ne (h i p hrun.2.1).2.1 (Ne.symm hp)
      refine ⟨i, task, fun fuel => ?_,
        ⟨fun _ => rfl, fun hex => absurd (hex.2 i p hrun) hp, hidle, fun _ => ?_⟩, h⟩
      · rw [chooseTask, hpick]
        exact if_pos hp
      · exact ⟨p, hrun, hpos, hmax⟩

theorem CountersBounded.checked {s : SchedState} (h : CountersBounded s.m.task) :
    CountersBounded (checkedTasks s) := by
  intro i p hp
  obtain ⟨q, hq, hmap⟩ := Option.bind_eq_some_iff.mp hp
  obtain ⟨r, -, rfl⟩ := Option.map_eq_some_iff.mp hmap
  exact h i q hq

theorem CountersBounded.schedule {s t : SchedState} (h : CountersBounded s.m.task)
    (hst : schedule s = some t) :
    CountersBounded t.m.task := by
  obtain ⟨next, task', hchoose, -, hbounded⟩ := chooseTask_spec h.checked
  rw [Kernel.schedule, hchoose 0, Option.map_some] at hst
  exact Option.some.inj hst ▸ hbounded

theorem CountersBounded.update {task : TaskTable} (h : CountersBounded task) (t : TaskNr)
    {o : Option Task} (ho : ∀ p, o = some p → p.priority = 15 ∧ 0 ≤ p.counter ∧ p.counter ≤ 29) :
    CountersBounded (Function.update task t o) := by
  intro i p hp
  by_cases hi : i = t
  · rw [hi, Function.update_self] at hp
    exact ho p hp
  · rw [Function.update_of_ne hi] at hp
    exact h i p hp

theorem CountersBounded.countTick {cpl : Nat} {s t : SchedState} (h : CountersBounded s.m.task)
    (hst : countTick cpl s = some t) : CountersBounded t.m.task := by
  obtain ⟨p, hp, rfl⟩ := Option.map_eq_some_iff.mp hst
  refine h.update s.current fun q hq => ?_
  obtain ⟨hprio, hlow, hhigh⟩ := h s.current p hp
  rw [← Option.some.inj hq]
  have hcharge : (chargeTick cpl p).priority = p.priority ∧
      (chargeTick cpl p).counter = if 0 < p.counter - 1 then p.counter - 1 else 0 := by
    simp only [chargeTick]
    split
    · split
      · exact ⟨rfl, rfl⟩
      · exact ⟨rfl, rfl⟩
    · split
      · exact ⟨rfl, rfl⟩
      · exact ⟨rfl, rfl⟩
  rw [hcharge.1, hcharge.2]
  refine ⟨hprio, ?_, ?_⟩
  · split
    · omega
    · omega
  · split
    · omega
    · omega

theorem counters_copyProcess {current : Task} {nr : TaskNr} {m : Machine}
    (h : CountersBounded m.task) (hprio : current.priority = 15) :
    IfReturns (fun r => CountersBounded r.2.task) (copyProcess current nr m) := by
  unfold copyProcess
  split
  · exact h
  · rename_i page m₁ hg
    have h₁ : CountersBounded m₁.task := (untouched_getFreePage hg).task ▸ h
    refine Ends.bind (Q := fun r => CountersBounded r.2.task) ?_ fun r hr => ?_
    · simp only [copyMem]
      refine (untouched_copyPageTables _ _ _ _).bind fun r h₂ => ?_
      obtain ⟨err, m₂⟩ := r
      have hnew : CountersBounded m₂.task := by
        rw [h₂.task]
        refine (h₁.update nr ?_).update nr ?_
        · intro p hp
          rw [← Option.some.inj hp]
          simp [hprio]
        · intro p hp
          rw [← Option.some.inj hp]
          simp [hprio]
      split
      · exact (untouched_freePageTables _ _ m₂).bind fun m₃ h₃ =>
          (h₃.task ▸ hnew : CountersBounded m₃.task)
      · exact hnew
    · obtain ⟨err, m₂⟩ := r
      have h₂ : CountersBounded m₂.task := hr
      simp only
      split
      · refine (untouched_freePage page (m₂.setTask nr none)).bind fun m₃ h₃ => ?_
        have hremoved : CountersBounded (Function.update m₂.task nr none) :=
          h₂.update nr fun p hp => by cases hp
        exact (h₃.task ▸ hremoved : CountersBounded m₃.task)
      · refine h₂.update nr fun p hp => ?_
        obtain ⟨q, hq, rfl⟩ := Option.map_eq_some_iff.mp hp
        exact h₂ nr q hq

theorem CountersBounded.fork {s t : SchedState} (h : CountersBounded s.m.task)
    (hst : forkCurrent s = some t) :
    CountersBounded t.m.task := by
  obtain ⟨p, hp, hst⟩ := Option.bind_eq_some_iff.mp hst
  obtain ⟨r, hr, hst⟩ := Option.bind_eq_some_iff.mp hst
  have hforked : IfReturns (fun r => CountersBounded r.2.task) (sysFork p s.m) := by
    unfold sysFork
    split
    · rename_i m hempty
      have hm : m = (findEmptyProcess s.m).2 := by rw [hempty]
      exact (hm ▸ h : CountersBounded m.task)
    · rename_i nr m hempty
      have hm : m = (findEmptyProcess s.m).2 := by rw [hempty]
      exact counters_copyProcess (hm ▸ h : CountersBounded m.task) (h s.current p hp).1
  have hbounded : CountersBounded r.2.task := by
    cases hfork : sysFork p s.m with
    | ok r' =>
      rw [hfork] at hr
      exact Option.some.inj hr ▸ hforked.of_ok hfork
    | error e =>
      rw [hfork] at hr
      cases hr
  split at hst
  · exact Option.some.inj hst ▸ hbounded
  · exact Option.some.inj hst ▸ hbounded

theorem CountersBounded.step {s t : SchedState} {a : SchedAct} (h : CountersBounded s.m.task)
    (hst : schedStep s a = some t) : CountersBounded t.m.task := by
  cases a with
  | fork => exact h.fork hst
  | tick cpl =>
    obtain ⟨u, hu, hst⟩ := Option.bind_eq_some_iff.mp hst
    obtain ⟨p, hp, hst⟩ := Option.bind_eq_some_iff.mp hst
    split at hst
    · exact Option.some.inj hst ▸ h.countTick hu
    · exact (h.countTick hu).schedule hst
  | schedule => exact h.schedule hst
  | change t state signal blocked alarm =>
    rw [← Option.some.inj hst]
    refine h.update t fun p hp => ?_
    obtain ⟨q, hq, rfl⟩ := Option.map_eq_some_iff.mp hp
    exact h t q hq
  | release t =>
    simp only [schedStep] at hst
    split at hst
    · exact Option.some.inj hst ▸ h.update t fun p hp => by cases hp
    · cases hst

theorem countersBounded_boot (c : Config) : CountersBounded (bootSched c).m.task := by
  intro i p hp
  have htask : (bootSched c).m.task i = if i = 0 then some initTask else none := rfl
  rw [htask] at hp
  split at hp
  · rw [← Option.some.inj hp]
    decide
  · cases hp

/-- In every reachable state the counters are in 0..29, and both calls of `schedule`
that it may make, its own and the one at the end of `do_timer`, end within two rounds and
choose by the rule. -/
theorem schedule_chooses {c : Config} {as : List SchedAct} {s : SchedState}
    (h : run schedStep (bootSched c) as = some s) :
    (∀ i p, s.m.task i = some p → 0 ≤ p.counter ∧ p.counter ≤ 29) ∧
      ∀ u, (u = s ∨ ∃ cpl, countTick cpl s = some u) →
        ∃ next task', (∀ fuel, chooseTask (fuel + 2) (checkedTasks u) = some (next, task')) ∧
          schedule u = some { u with m := { u.m with task := task' }, current := next } ∧
          Chosen (checkedTasks u) next task' := by
  have hbounded : CountersBounded s.m.task :=
    run_inv (fun _ _ _ hs hst => CountersBounded.step hs hst) (countersBounded_boot c) h
  refine ⟨fun i p hp => (hbounded i p hp).2, fun u hu => ?_⟩
  have hu : CountersBounded u.m.task := by
    cases hu with
    | inl heq => exact heq ▸ hbounded
    | inr htick =>
      obtain ⟨cpl, htick⟩ := htick
      exact hbounded.countTick htick
  obtain ⟨next, task', hchoose, hchosen, -⟩ := chooseTask_spec hu.checked
  exact ⟨next, task', hchoose, by rw [schedule, hchoose 0, Option.map_some], hchosen⟩

/-- Task 0 forks, its time runs out while task 1 sleeps, and task 1 is woken. -/
theorem schedule_chooses_child :
    ∃ s, run schedStep (bootSched bootConfig)
        [.fork, .change 1 .interruptible 0 0 0, .schedule, .change 1 .running 0 0 0] = some s ∧
      ∃ next task', schedule s = some { s with m := { s.m with task := task' }, current := next } ∧
        Chosen (checkedTasks s) next task' := by
  have hrun : (run schedStep (bootSched bootConfig)
      [.fork, .change 1 .interruptible 0 0 0, .schedule, .change 1 .running 0 0 0]).isSome := by
        decide +kernel
  obtain ⟨s, hs⟩ := Option.isSome_iff_exists.mp hrun
  obtain ⟨next, task', -, hsched, hchosen⟩ := (schedule_chooses hs).2 s (.inl rfl)
  exact ⟨s, hs, next, task', hsched, hchosen⟩

end Hios.Kernel
