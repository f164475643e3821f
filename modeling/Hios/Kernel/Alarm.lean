import Hios.Kernel.Scheduler

/-! `sys_alarm` and `sys_sleep`: when the signal they ask for comes. -/
namespace Hios.Kernel
open Hios.Mm Hios.Run

def HZ : Int := 100

def long (x : Int) : Int := Int.bmod x (2 ^ 32)

def newAlarm (jiffies seconds : Int) : Int :=
  if 0 < seconds then long (jiffies + long (HZ * seconds)) else 0

def secondsLeft (jiffies old : Int) : Int :=
  if old ≠ 0 then Int.tdiv (long (old - jiffies)) HZ else old

def SchedState.setCurrent (s : SchedState) (p : Task) : SchedState :=
  { s with m := s.m.setTask s.current (some p) }

def sysAlarm (seconds : Int) (s : SchedState) : Option (Int × SchedState) := do
  let p ← s.m.task s.current
  return (secondsLeft s.m.jiffies p.alarm, s.setCurrent
    { p with alarm := newAlarm s.m.jiffies seconds })

/-- `sys_sleep` of the current task up to its call of `schedule`. -/
def sleepUntilSchedule (seconds : Int) (s : SchedState) : Option SchedState := do
  let (_, s) ← sysAlarm seconds s
  let p ← s.m.task s.current
  return s.setCurrent { p with state := .interruptible }

/-- What happens to a task after its call: ticks, calls of `schedule` by whomever, and
whatever else the kernel does. -/
inductive ClockAct where
  | tick (cpl : Nat)
  | schedule
  | others (s : SchedState)

/-- Only ticks move `jiffies`, and other code keeps what `keep` reads of task `t`. -/
def clockStep {κ : Type} [DecidableEq κ] (keep : Task → κ) (t : TaskNr) (s : SchedState) :
    ClockAct → Option SchedState
  | .tick cpl => countTick cpl s
  | .schedule => schedule s
  | .others u =>
    if u.m.jiffies = s.m.jiffies ∧ (u.m.task t).map keep = (s.m.task t).map keep then some u
      else none

def ticks : List ClockAct → Nat
  | [] => 0
  | .tick _ :: as => ticks as + 1
  | _ :: as => ticks as

def Fires (s : SchedState) (t : TaskNr) : Prop :=
  t ≠ 0 ∧ ∃ p, s.m.task t = some p ∧ p.alarm ≠ 0 ∧ p.alarm < s.m.jiffies

/-- After `sys_alarm(seconds)` the signal comes late enough, whatever happens but
another such call. -/
def AlarmNotEarly (s : SchedState) (seconds : Int) : Prop :=
  ∀ old s₁ as u, sysAlarm seconds s = some (old, s₁) →
    run (clockStep Task.alarm s.current) s₁ as = some u →
    Fires u s.current → 100 * seconds < ticks as

def sleepFields (p : Task) : TaskState × Word × Int := (p.state, p.signal, p.alarm)

/-- `sys_sleep(seconds)` does not return early: no `schedule` goes on with its caller,
if nobody but the clock wakes it. -/
def SleepNotEarly (s : SchedState) (seconds : Int) : Prop :=
  (∀ p, s.m.task s.current = some p → p.signal = 0) →
    ∀ s₁ as u v, sleepUntilSchedule seconds s = some s₁ →
      run (clockStep sleepFields s.current) s₁ as = some u → schedule u = some v →
        v.current = s.current →
        100 * seconds < ticks as

/-- The sum does not overflow, or it wraps to 0, which is no alarm, or to the largest
`long`, which `jiffies` never passes. -/
def AlarmFits (jiffies seconds : Int) : Prop :=
  jiffies + 100 * seconds < 2 ^ 31 ∨ (jiffies + 100 * seconds) % 2 ^ 32 = 0 ∨
    (jiffies + 100 * seconds) % 2 ^ 32 = 2 ^ 31 - 1

theorem long_eq (x : Int) :
    long x = if x % 2 ^ 32 < 2 ^ 31 then x % 2 ^ 32 else x % 2 ^ 32 - 2 ^ 32 := by
  rw [long, Int.bmod_def]
  rfl

theorem newAlarm_eq {jiffies seconds : Int} (h : 0 < seconds) :
    newAlarm jiffies seconds = long (jiffies + 100 * seconds) := by
  rw [newAlarm, if_pos h, HZ]
  simp only [long, Int.add_bmod_bmod]

theorem long_add_long (x y : Int) : long (long x + y) = long (x + y) := by
  simp only [long, Int.bmod_add_bmod]

theorem not_passed {j seconds : Int} {n : Nat} (hj : 0 ≤ j) (hfits : AlarmFits j seconds)
    (hn : (n : Int) ≤ 100 * seconds) :
    ¬ (long (j + 100 * seconds) ≠ 0 ∧ long (j + 100 * seconds) < long (j + n)) := by
  simp only [AlarmFits] at hfits
  rw [long_eq, long_eq]
  split
  · split
    · omega
    · omega
  · split
    · omega
    · omega

theorem passed_early {j seconds : Int} (hj : 0 ≤ j) (hj' : j < 2 ^ 31) (hs : 0 < seconds)
    (hfits : ¬ AlarmFits j seconds) :
    ∃ n : Nat, (n : Int) ≤ 100 * seconds ∧ long (j + 100 * seconds) ≠ 0 ∧
    long (j + 100 * seconds) < long (j + n) := by
  simp only [AlarmFits, not_or] at hfits
  by_cases hlow : long (j + 100 * seconds) < j
  · refine ⟨0, by omega, ?_, ?_⟩
    · rw [long_eq]
      split
      · omega
      · omega
    · have hzero : long (j + (0 : Nat)) = j := by
        rw [long_eq]
        split
        · omega
        · omega
      rw [hzero]
      exact hlow
  · refine ⟨(long (j + 100 * seconds) - j + 1).toNat, ?_, ?_, ?_⟩
    · rw [long_eq] at hlow ⊢
      split at hlow
      · rw [if_pos ‹_›]
        omega
      · omega
    · rw [long_eq]
      split
      · omega
      · omega
    · have hnat : ((long (j + 100 * seconds) - j + 1).toNat : Int) =
        long (j + 100 * seconds) - j + 1 :=
        Int.toNat_of_nonneg (by omega)
      rw [hnat]
      generalize hA : long (j + 100 * seconds) = A at hlow
      rw [long_eq] at hA ⊢
      split at hA
      · split
        · omega
        · omega
      · omega

theorem ticks_cons (a : ClockAct) (as : List ClockAct) :
    ticks (a :: as) = ticks [a] + ticks as := by
  cases a with
  | tick cpl => simp [ticks, Nat.add_comm]
  | schedule => simp [ticks]
  | others u => simp [ticks]

theorem run_ticks_inv {κ : Type} [DecidableEq κ] {keep : Task → κ} {t : TaskNr}
    {I : Nat → SchedState → Prop}
    (hstep : ∀ n s a u, I n s → clockStep keep t s a = some u → I (n + ticks [a]) u)
    {as : List ClockAct} {n : Nat} {s u : SchedState} (hs : I n s)
    (h : run (clockStep keep t) s as = some u) :
    I (n + ticks as) u := by
  induction as generalizing n s with
  | nil =>
    obtain rfl : s = u := by simpa [run] using h
    exact hs
  | cons a as ih =>
    obtain ⟨v, hv, hu⟩ := run_cons_some.mp h
    rw [ticks_cons, ← Nat.add_assoc]
    exact ih (hstep n s a v hs hv) hu

theorem checkedTasks_apply (s : SchedState) {t : TaskNr} (ht : t ≠ 0) :
    checkedTasks s t = (s.m.task t).map fun p =>
      let q := checkTask s.m.jiffies ⟨p.state, p.signal, s.blocked t, p.alarm⟩
      { p with state := q.state, signal := q.signal, alarm := q.alarm } := by
  simp only [checkedTasks, scheduleSignals_apply _ _ ht]
  cases s.m.task t with
  | none => rfl
  | some p => rfl

theorem countTick_eq {cpl : Nat} {s u : SchedState} (h : countTick cpl s = some u) :
    u.current = s.current ∧ u.m.jiffies = long (s.m.jiffies + 1) ∧
      ∀ i, (u.m.task i).map sleepFields = (s.m.task i).map sleepFields := by
  obtain ⟨p, hp, rfl⟩ := Option.map_eq_some_iff.mp h
  have hcharge : sleepFields (chargeTick cpl p) = sleepFields p := by
    simp only [chargeTick]
    split
    · split
      · rfl
      · rfl
    · split
      · rfl
      · rfl
  refine ⟨rfl, rfl, fun i => ?_⟩
  by_cases hi : i = s.current
  · simp [Machine.setTask, hi, hp, hcharge]
  · simp [Machine.setTask, hi]

theorem schedule_eq {s v : SchedState} (h : schedule s = some v) {t : TaskNr} (ht : t ≠ 0) :
    v.m.jiffies = s.m.jiffies ∧
      (v.m.task t).map sleepFields = (s.m.task t).map fun p =>
        let q := checkTask s.m.jiffies ⟨p.state, p.signal, s.blocked t, p.alarm⟩
        (q.state, q.signal, q.alarm) := by
  obtain ⟨⟨next, task'⟩, hchoose, rfl⟩ := Option.map_eq_some_iff.mp h
  refine ⟨rfl, ?_⟩
  have hmap : (task' t).map sleepFields = (checkedTasks s t).map sleepFields :=
    chooseTask_map (fun _ => rfl) hchoose t
  rw [checkedTasks_apply s ht, Option.map_map] at hmap
  exact hmap

theorem map_alarm_of_fields {o o' : Option Task} (h : o'.map sleepFields = o.map sleepFields) :
    o'.map Task.alarm = o.map Task.alarm := by
  have halarm : Task.alarm = (fun f : TaskState × Word × Int => f.2.2) ∘ sleepFields := rfl
  rw [halarm, ← Option.map_map, ← Option.map_map, h]

/-- The clock has run on by `n` ticks, and the alarm is still the one that was set, or gone. -/
structure AlarmSet (t : TaskNr) (j alarm : Int) (n : Nat) (s : SchedState) : Prop where
  clock : s.m.jiffies = long (j + n)
  alarm : ∃ a, (s.m.task t).map Task.alarm = some a ∧ (a = alarm ∨ a = 0)

theorem AlarmSet.step {t : TaskNr} (ht : t ≠ 0) {j alarm : Int} {n : Nat} {s u : SchedState}
    {a : ClockAct} (h : AlarmSet t j alarm n s) (hst : clockStep Task.alarm t s a = some u) :
    AlarmSet t j alarm (n + ticks [a]) u := by
  cases a with
  | tick cpl =>
    obtain ⟨-, hclock, hfields⟩ := countTick_eq hst
    refine ⟨?_, map_alarm_of_fields (hfields t) ▸ h.alarm⟩
    rw [hclock, h.clock, long_add_long]
    exact congrArg long (by simp [ticks]; omega)
  | schedule =>
    obtain ⟨hclock, hfields⟩ := schedule_eq hst ht
    refine ⟨hclock.trans h.clock, ?_⟩
    obtain ⟨b, hb, hab⟩ := h.alarm
    obtain ⟨p, hp, rfl⟩ := Option.map_eq_some_iff.mp hb
    rw [hp, Option.map_some] at hfields
    obtain ⟨q, hq, hqf⟩ := Option.map_eq_some_iff.mp hfields
    refine ⟨q.alarm, by rw [hq, Option.map_some], ?_⟩
    have hqa : q.alarm = (checkTask s.m.jiffies ⟨p.state, p.signal, s.blocked t, p.alarm⟩).alarm :=
      congrArg (fun f : TaskState × Word × Int => f.2.2) hqf
    rw [hqa, checkTask, (wakeBySignal_frame _).2.1, checkAlarm_alarm]
    split
    · exact .inr rfl
    · exact hab
  | others v =>
    simp only [clockStep] at hst
    split at hst
    · rename_i hkept
      obtain rfl := Option.some.inj hst
      exact ⟨hkept.1.trans h.clock, hkept.2 ▸ h.alarm⟩
    · cases hst

structure Sleeping (t : TaskNr) (j seconds : Int) (n : Nat) (s : SchedState) : Prop where
  clock : s.m.jiffies = long (j + n)
  fields : (n : Int) ≤ 100 * seconds →
    (s.m.task t).map sleepFields = some (.interruptible, 0, long (j + 100 * seconds))

theorem checkTask_asleep {j : Int} {p : SchedTask} (hp : ¬ Expired j p) (hs : p.signal = 0) :
    checkTask j p = p := by
  rw [checkTask, checkAlarm, if_neg hp, wakeBySignal, if_neg]
  rintro ⟨hwoken, _⟩
  exact hwoken (by simp [hs])

theorem Sleeping.checked {t : TaskNr} {j seconds : Int} {n : Nat} {s : SchedState} (hj : 0 ≤ j)
    (hfits : AlarmFits j seconds) (h : Sleeping t j seconds n s) (hn : (n : Int) ≤ 100 * seconds) :
    ∃ p, s.m.task t = some p ∧
      checkTask s.m.jiffies ⟨p.state, p.signal, s.blocked t, p.alarm⟩ =
        ⟨.interruptible, 0, s.blocked t, long (j + 100 * seconds)⟩ := by
  obtain ⟨p, hp, hfields⟩ := Option.map_eq_some_iff.mp (h.fields hn)
  obtain ⟨hstate, hsignal, halarm⟩ : p.state = .interruptible ∧ p.signal = 0 ∧
      p.alarm = long (j + 100 * seconds) := by
    simpa [sleepFields] using hfields
  refine ⟨p, hp, ?_⟩
  rw [hstate, hsignal, halarm]
  refine checkTask_asleep ?_ rfl
  rw [h.clock]
  exact not_passed hj hfits hn

theorem Sleeping.step {t : TaskNr} (ht : t ≠ 0) {j seconds : Int} (hj : 0 ≤ j)
    (hfits : AlarmFits j seconds) {n : Nat} {s u : SchedState} {a : ClockAct}
    (h : Sleeping t j seconds n s) (hst : clockStep sleepFields t s a = some u) :
    Sleeping t j seconds (n + ticks [a]) u := by
  cases a with
  | tick cpl =>
    obtain ⟨-, hclock, hfields⟩ := countTick_eq hst
    refine ⟨?_, fun hn => ?_⟩
    · rw [hclock, h.clock, long_add_long]
      exact congrArg long (by simp [ticks]; omega)
    · rw [hfields t]
      exact h.fields (by simp [ticks] at hn; omega)
  | schedule =>
    obtain ⟨hclock, hfields⟩ := schedule_eq hst ht
    refine ⟨hclock.trans h.clock, fun hn => ?_⟩
    obtain ⟨p, hp, hchecked⟩ := h.checked hj hfits (by simpa [ticks] using hn)
    rw [hfields, hp, Option.map_some]
    simp only [hchecked]
  | others v =>
    simp only [clockStep] at hst
    split at hst
    · rename_i hkept
      obtain rfl := Option.some.inj hst
      exact ⟨hkept.1.trans h.clock, fun hn => hkept.2.trans (h.fields hn)⟩
    · cases hst

theorem sysAlarm_eq {seconds : Int} {s : SchedState} {p : Task} (hp : s.m.task s.current = some p) :
    sysAlarm seconds s = some (secondsLeft s.m.jiffies p.alarm,
      s.setCurrent { p with alarm := newAlarm s.m.jiffies seconds }) := by
  simp [sysAlarm, hp]

theorem sleepUntilSchedule_eq (seconds : Int) {s : SchedState} {p : Task}
    (hp : s.m.task s.current = some p) :
    ∃ u, sleepUntilSchedule seconds s = some u ∧ u.m.jiffies = s.m.jiffies ∧
      u.m.task s.current =
        some { p with alarm := newAlarm s.m.jiffies seconds, state := .interruptible } := by
  set q : Task := { p with alarm := newAlarm s.m.jiffies seconds }
  have hset : (s.setCurrent q).m.task (s.setCurrent q).current = some q := Function.update_self ..
  refine ⟨(s.setCurrent q).setCurrent { q with state := .interruptible }, ?_, rfl,
    Function.update_self ..⟩
  simp only [sleepUntilSchedule, sysAlarm_eq hp, Option.bind_eq_bind, Option.bind_some]
  rw [show s.setCurrent { p with alarm := newAlarm s.m.jiffies seconds } = s.setCurrent q from rfl,
    hset]
  rfl

theorem long_self {j : Int} (hj : 0 ≤ j) (hj' : j < 2 ^ 31) : j = long (j + (0 : Nat)) := by
  rw [long_eq]
  split
  · omega
  · omega

theorem alarm_not_early {s : SchedState} {seconds : Int} {p : Task}
    (hp : s.m.task s.current = some p) (ht : s.current ≠ 0) (hj : 0 ≤ s.m.jiffies)
    (hj' : s.m.jiffies < 2 ^ 31) (hs : 0 < seconds) (hfits : AlarmFits s.m.jiffies seconds) :
    AlarmNotEarly s seconds := by
  rintro old s₁ as u hcall hrun ⟨_, q, hq, hfires⟩
  rw [sysAlarm_eq hp] at hcall
  obtain ⟨-, rfl⟩ := Prod.mk.inj (Option.some.inj hcall)
  have hset : AlarmSet s.current s.m.jiffies (long (s.m.jiffies + 100 * seconds)) 0
      (s.setCurrent { p with alarm := newAlarm s.m.jiffies seconds }) := by
    refine ⟨long_self hj hj', _, ?_, .inl rfl⟩
    simp [SchedState.setCurrent, Machine.setTask, newAlarm_eq hs]
  obtain ⟨hclock, a, ha, hor⟩ :=
    run_ticks_inv (I := AlarmSet _ _ _) (fun _ _ _ _ => AlarmSet.step ht) hset hrun
  rw [hq, Option.map_some, Option.some.injEq] at ha
  by_contra hearly
  cases hor with
  | inl hor =>
    refine not_passed hj hfits (n := 0 + ticks as) (by omega) ?_
    rw [← hor, ← ha, ← hclock]
    exact hfires
  | inr hor => exact hfires.1 (ha.trans hor)

theorem sleep_not_early {s : SchedState} {seconds : Int} {p : Task}
    (hp : s.m.task s.current = some p) (ht : s.current ≠ 0) (hj : 0 ≤ s.m.jiffies)
    (hj' : s.m.jiffies < 2 ^ 31) (hs : 0 < seconds) (hfits : AlarmFits s.m.jiffies seconds) :
    SleepNotEarly s seconds := by
  intro hsignal s₁ as u v hcall hrun hsched hback
  obtain ⟨s₂, hs₂, hclock, htask⟩ := sleepUntilSchedule_eq seconds hp
  obtain rfl : s₂ = s₁ := Option.some.inj (hs₂.symm.trans hcall)
  have hsleep : Sleeping s.current s.m.jiffies seconds 0 s₂ := by
    refine ⟨hclock.trans (long_self hj hj'), fun _ => ?_⟩
    rw [htask, Option.map_some]
    simp [sleepFields, hsignal p hp, newAlarm_eq hs]
  have hend := run_ticks_inv (I := Sleeping _ _ _)
    (fun _ _ _ _ => Sleeping.step ht hj hfits) hsleep hrun
  by_contra hearly
  -- the task that `schedule` goes on with can run, but the sleeper still sleeps
  obtain ⟨q, hq, hchecked⟩ := hend.checked hj hfits (by omega)
  obtain ⟨⟨next, task'⟩, hchoose, rfl⟩ := Option.map_eq_some_iff.mp hsched
  obtain rfl : next = s.current := hback
  obtain ⟨r, -, hr, hrunning⟩ := chooseTask_runnable hchoose ht
  rw [checkedTasks_apply u ht, hq, Option.map_some, Option.some.injEq] at hr
  simp only [hchecked] at hr
  rw [← hr] at hrunning
  cases hrunning

theorem run_ticks (t : TaskNr) (n : Nat) {s : SchedState} {p : Task} {j : Int}
    (hp : s.m.task s.current = some p) (ht : t = s.current) (hj : s.m.jiffies = long j) :
    ∃ u, run (clockStep Task.alarm t) s (List.replicate n (.tick 0)) = some u ∧
      u.m.jiffies = long (j + n) ∧ (u.m.task t).map Task.alarm = some p.alarm := by
  induction n generalizing s p j with
  | zero => exact ⟨s, rfl, by simpa using hj, by rw [ht, hp, Option.map_some]⟩
  | succ n ih =>
    obtain ⟨v, hv⟩ : ∃ v, countTick 0 s = some v := by simp [countTick, hp]
    obtain ⟨hcur, hclock, hfields⟩ := countTick_eq hv
    have halarm := map_alarm_of_fields (hfields s.current)
    rw [hp, Option.map_some] at halarm
    obtain ⟨q, hq, hqp⟩ := Option.map_eq_some_iff.mp halarm
    rw [hj, long_add_long] at hclock
    obtain ⟨u, hu, hlong, hu'⟩ := ih (hcur ▸ hq) (ht.trans hcur.symm) hclock
    refine ⟨u, ?_, ?_, hqp ▸ hu'⟩
    · rw [List.replicate_succ, run_cons_some]
      exact ⟨v, hv, hu⟩
    · rw [hlong]
      exact congrArg long (by push_cast; omega)

theorem ticks_replicate (cpl n : Nat) : ticks (List.replicate n (.tick cpl)) = n := by
  induction n with
  | zero => rfl
  | succ n ih => rw [List.replicate_succ, ticks, ih]

/-- The signal and the end of a sleep never come early exactly when the alarm's tick
count fits. -/
theorem alarms_not_early_iff {s : SchedState} {seconds : Int} {p : Task}
    (hp : s.m.task s.current = some p) (ht : s.current ≠ 0) (hj : 0 ≤ s.m.jiffies)
    (hj' : s.m.jiffies < 2 ^ 31) (hs : 0 < seconds) :
    (AlarmNotEarly s seconds ∧ SleepNotEarly s seconds) ↔ AlarmFits s.m.jiffies seconds := by
  constructor
  · rintro ⟨hnever, _⟩
    by_contra hfits
    obtain ⟨n, hn, hset, hpassed⟩ := passed_early hj hj' hs hfits
    have hcurrent : (s.setCurrent { p with alarm := newAlarm s.m.jiffies seconds }).m.task
      s.current =
        some { p with alarm := newAlarm s.m.jiffies seconds } := Function.update_self ..
    have hstart : s.m.jiffies = long s.m.jiffies := by simpa using long_self hj hj'
    obtain ⟨u, hu, hclock, halarm⟩ := run_ticks s.current n hcurrent rfl hstart
    obtain ⟨q, hq, hqp⟩ := Option.map_eq_some_iff.mp halarm
    rw [newAlarm_eq hs] at hqp
    have hlate := hnever _ _ _ u (sysAlarm_eq hp) hu
      ⟨ht, q, hq, by rw [hqp]; exact hset, by rw [hqp, hclock]; exact hpassed⟩
    rw [ticks_replicate] at hlate
    omega
  · intro hfits
    exact ⟨alarm_not_early hp ht hj hj' hs hfits, sleep_not_early hp ht hj hj' hs hfits⟩

def firstSleeper : SchedState :=
  { m := (boot bootConfig).setTask 1 (some { initTask with pid := 1, father := 0 }), blocked := fun
    _ => 0, current := 1 }

theorem sleep_of_two_seconds : AlarmNotEarly firstSleeper 2 ∧ SleepNotEarly firstSleeper 2 :=
  (alarms_not_early_iff (p := { initTask with pid := 1, father := 0 }) rfl (by decide)
    (by decide) (by decide)
    (by decide)).mpr (.inl (by decide))

/-- More seconds than a `long` holds ticks: the alarm is in the past at once. -/
theorem long_alarm_early :
    ¬ (AlarmNotEarly firstSleeper 21474837 ∧ SleepNotEarly firstSleeper 21474837) := by
  rintro ⟨hnever, _⟩
  have hlate := hnever 0
    (firstSleeper.setCurrent { initTask with pid := 1, father := 0, alarm := -2147483596 }) []
    _ rfl rfl ⟨by decide, { initTask with pid := 1, father := 0, alarm := -2147483596 }, rfl,
      by decide, by decide⟩
  simp [ticks] at hlate

end Hios.Kernel
