import Hios.Kernel.Machine
import Hios.Kernel.Signal

/-! The first loop of `schedule`: an alarm that has run out raises SIGALRM, and an
interruptible task with a signal to take is made runnable. -/
namespace Hios.Kernel
open Hios.Mm

def SIGALRM : Nat := 14
def SIGSTOP : Nat := 19

def signalBit (nr : Nat) : Word := 1#32 <<< (nr - 1)

def BLOCKABLE : Word := ~~~(signalBit SIGKILL.toNat ||| signalBit SIGSTOP)

structure SchedTask where
  state : TaskState
  signal : Word
  blocked : Word
  alarm : Int

abbrev SchedTable := TaskNr → Option SchedTask

def Expired (jiffies : Int) (p : SchedTask) : Prop := p.alarm ≠ 0 ∧ p.alarm < jiffies

instance (jiffies : Int) (p : SchedTask) : Decidable (Expired jiffies p) :=
  inferInstanceAs (Decidable (_ ∧ _))

def checkAlarm (jiffies : Int) (p : SchedTask) : SchedTask :=
  if Expired jiffies p then { p with signal := p.signal ||| signalBit SIGALRM, alarm := 0 } else p

def wakeBySignal (p : SchedTask) : SchedTask :=
  if p.signal &&& (BLOCKABLE &&& ~~~p.blocked) ≠ 0 ∧ p.state = .interruptible then
    { p with state := .running }
  else p

def checkTask (jiffies : Int) (p : SchedTask) : SchedTask := wakeBySignal (checkAlarm jiffies p)

/-- The loop from `&task[n]` down to `&task[1]`. -/
def checkTasks (jiffies : Int) : Nat → SchedTable → SchedTable
  | 0, task => task
  | n + 1, task =>
    let i := Fin.ofNat NR_TASKS (n + 1)
    checkTasks jiffies n (Function.update task i ((task i).map (checkTask jiffies)))

/-- The first loop of `schedule`, which leaves `FIRST_TASK` out. -/
def scheduleSignals (jiffies : Int) (task : SchedTable) : SchedTable :=
  checkTasks jiffies (NR_TASKS - 1) task

def pending (jiffies : Int) (p : SchedTask) : Word :=
  if Expired jiffies p then p.signal ||| signalBit SIGALRM else p.signal

def Unblockable (s : Fin 32) : Prop := s.val + 1 = SIGKILL.toNat ∨ s.val + 1 = SIGSTOP

instance (s : Fin 32) : Decidable (Unblockable s) := inferInstanceAs (Decidable (_ ∨ _))

def Unblocked (p : SchedTask) (s : Fin 32) : Prop := p.blocked.getLsbD s = false ∨ Unblockable s

/-- The rule of the loop: a pending signal that is not blocked wakes the task. -/
structure SignalsChecked (jiffies : Int) (p p' : SchedTask) : Prop where
  signal : p'.signal = pending jiffies p
  alarm : p'.alarm = if Expired jiffies p then 0 else p.alarm
  blocked : p'.blocked = p.blocked
  woken : p.state = .interruptible →
    (∃ s : Fin 32, (pending jiffies p).getLsbD s = true ∧ Unblocked p s) →
    p'.state = .running
  unchanged : ¬ (p.state = .interruptible ∧ ∃ s : Fin 32, (pending jiffies p).getLsbD s = true ∧
    Unblocked p s) →
    p'.state = p.state

/-- A task sleeps with SIGKILL or SIGSTOP pending, and blocks every other pending signal. -/
structure OnlyUnblockable (jiffies : Int) (p : SchedTask) : Prop where
  asleep : p.state = .interruptible
  pending : ∃ s : Fin 32, (pending jiffies p).getLsbD s = true ∧ Unblockable s
  others : ∀ s : Fin 32, (Kernel.pending jiffies p).getLsbD s = true → ¬ Unblockable s →
    p.blocked.getLsbD s = true

theorem blockable_bit (s : Fin 32) : BLOCKABLE.getLsbD s = !decide (Unblockable s) := by
  revert s
  decide

theorem nonzero_iff_bit (w : Word) : w ≠ 0 ↔ ∃ s : Fin 32, w.getLsbD s = true := by
  constructor
  · intro h
    by_contra hall
    push Not at hall
    apply h
    apply BitVec.eq_of_getLsbD_eq
    intro i hi
    have hbit := hall ⟨i, hi⟩
    simpa using hbit
  · rintro ⟨s, hs⟩ h
    simp [h] at hs

/-- The signals that wake a sleeper are those that are pending, not blocked, and neither of the
two. -/
theorem wakes_iff (p : SchedTask) : p.signal &&& (BLOCKABLE &&& ~~~p.blocked) ≠ 0 ↔
    ∃ s : Fin 32, p.signal.getLsbD s = true ∧ p.blocked.getLsbD s = false ∧ ¬ Unblockable s := by
  rw [nonzero_iff_bit]
  apply exists_congr
  intro s
  simp only [BitVec.getLsbD_and, BitVec.getLsbD_not, blockable_bit, Bool.and_eq_true,
    Bool.not_eq_true',
    decide_eq_false_iff_not, s.isLt, decide_true, Bool.true_and]
  exact and_congr_right fun _ => and_comm

theorem checkAlarm_signal (jiffies : Int) (p : SchedTask) :
    (checkAlarm jiffies p).signal = pending jiffies p := by
  by_cases h : Expired jiffies p
  · simp [checkAlarm, pending, h]
  · simp [checkAlarm, pending, h]

theorem checkAlarm_alarm (jiffies : Int) (p : SchedTask) :
    (checkAlarm jiffies p).alarm = if Expired jiffies p then 0 else p.alarm := by
  by_cases h : Expired jiffies p
  · simp [checkAlarm, h]
  · simp [checkAlarm, h]

theorem checkAlarm_blocked (jiffies : Int) (p : SchedTask) :
    (checkAlarm jiffies p).blocked = p.blocked := by
  by_cases h : Expired jiffies p
  · simp [checkAlarm, h]
  · simp [checkAlarm, h]

theorem checkAlarm_state (jiffies : Int) (p : SchedTask) :
    (checkAlarm jiffies p).state = p.state := by
  by_cases h : Expired jiffies p
  · simp [checkAlarm, h]
  · simp [checkAlarm, h]

theorem wakeBySignal_frame (p : SchedTask) : (wakeBySignal p).signal = p.signal ∧
    (wakeBySignal p).alarm = p.alarm ∧ (wakeBySignal p).blocked = p.blocked := by
  simp only [wakeBySignal]
  split
  · exact ⟨rfl, rfl, rfl⟩
  · exact ⟨rfl, rfl, rfl⟩

theorem checkTask_state (jiffies : Int) (p : SchedTask) : (checkTask jiffies p).state =
    if (∃ s : Fin 32, (pending jiffies p).getLsbD s = true ∧ p.blocked.getLsbD s = false ∧
      ¬ Unblockable s) ∧
      p.state = .interruptible then .running else p.state := by
  have hwake := wakes_iff (checkAlarm jiffies p)
  rw [checkAlarm_signal, checkAlarm_blocked] at hwake
  simp only [checkTask, wakeBySignal, checkAlarm_signal, checkAlarm_blocked,
    checkAlarm_state, ← hwake]
  split
  · rfl
  · exact checkAlarm_state jiffies p

theorem checkTask_checked_iff (jiffies : Int) (p : SchedTask) :
    SignalsChecked jiffies p (checkTask jiffies p) ↔ ¬ OnlyUnblockable jiffies p := by
  have hstate := checkTask_state jiffies p
  constructor
  · rintro h ⟨hasleep, ⟨s, hs, hsu⟩, hothers⟩
    have hwoken := h.woken hasleep ⟨s, hs, .inr hsu⟩
    rw [hstate, if_neg, hasleep] at hwoken
    · cases hwoken
    · rintro ⟨⟨r, hr, hfree, hru⟩, _⟩
      rw [hothers r hr hru] at hfree
      cases hfree
  · intro h
    obtain ⟨hsignal, halarm, hblocked⟩ := wakeBySignal_frame (checkAlarm jiffies p)
    refine ⟨hsignal.trans (checkAlarm_signal jiffies p), halarm.trans (checkAlarm_alarm jiffies p),
      hblocked.trans (checkAlarm_blocked jiffies p), ?_, ?_⟩
    · rintro hasleep ⟨s, hs, hfree⟩
      rw [hstate, if_pos]
      refine ⟨?_, hasleep⟩
      by_contra hnone
      apply h
      -- what is pending and not blocked can only be one of the two
      have hblock : ∀ r : Fin 32, (pending jiffies p).getLsbD r = true → ¬ Unblockable r →
          p.blocked.getLsbD r = true := by
        intro r hr hru
        by_contra hb
        exact hnone ⟨r, hr, by simpa using hb, hru⟩
      refine ⟨hasleep, ⟨s, hs, ?_⟩, hblock⟩
      by_contra hsu
      cases hfree with
      | inl hfree =>
        rw [hblock s hs hsu] at hfree
        cases hfree
      | inr hfree => exact hsu hfree
    · intro hnot
      rw [hstate, if_neg]
      rintro ⟨⟨s, hs, hfree, _⟩, hasleep⟩
      exact hnot ⟨hasleep, s, hs, .inl hfree⟩

/-- A loop from `&task[n]` down to `&task[1]` that does `f` to every task. -/
def sweep {α : Type} (f : α → α) : Nat → (TaskNr → Option α) → TaskNr → Option α
  | 0, task => task
  | n + 1, task =>
    let i := Fin.ofNat NR_TASKS (n + 1)
    sweep f n (Function.update task i ((task i).map f))

theorem sweep_apply {α : Type} (f : α → α) {n : Nat} (hn : n < NR_TASKS)
    (task : TaskNr → Option α) (i : TaskNr) :
    sweep f n task i = if i.val ≠ 0 ∧ i.val ≤ n then (task i).map f else task i := by
  induction n generalizing task with
  | zero => simp [sweep]
  | succ n ih =>
    have hval : (Fin.ofNat NR_TASKS (n + 1)).val = n + 1 := Nat.mod_eq_of_lt hn
    rw [sweep, ih (by omega)]
    by_cases hi : i = Fin.ofNat NR_TASKS (n + 1)
    · have hin : i.val = n + 1 := by rw [hi, hval]
      rw [if_neg (by omega), if_pos (by omega), hi, Function.update_self]
    · have hin : i.val ≠ n + 1 := fun h => hi (Fin.ext (h.trans hval.symm))
      rw [Function.update_of_ne hi]
      by_cases hle : i.val ≠ 0 ∧ i.val ≤ n
      · rw [if_pos hle, if_pos (by omega)]
      · rw [if_neg hle, if_neg (by omega)]

theorem sweep_all {α : Type} (f : α → α) (task : TaskNr → Option α) {i : TaskNr} (hi : i ≠ 0) :
    sweep f (NR_TASKS - 1) task i = (task i).map f := by
  have hval : i.val ≠ 0 := fun h => hi (Fin.ext h)
  have hlt : i.val < NR_TASKS := i.isLt
  rw [sweep_apply f (by decide), if_pos]
  omega

theorem checkTasks_eq_sweep (jiffies : Int) (n : Nat) (task : SchedTable) :
    checkTasks jiffies n task = sweep (checkTask jiffies) n task := by
  induction n generalizing task with
  | zero => rfl
  | succ n ih => exact ih _

theorem scheduleSignals_apply (jiffies : Int) (task : SchedTable) {i : TaskNr} (hi : i ≠ 0) :
    scheduleSignals jiffies task i = (task i).map (checkTask jiffies) := by
  rw [scheduleSignals, checkTasks_eq_sweep, sweep_all _ _ hi]

def TableChecked (jiffies : Int) (task task' : SchedTable) : Prop :=
  ∀ i, i ≠ 0 → ∀ p, task i = some p → ∃ p', task' i = some p' ∧ SignalsChecked jiffies p p'

theorem schedule_signals_iff (jiffies : Int) (task : SchedTable) :
    TableChecked jiffies task (scheduleSignals jiffies task) ↔
      ∀ i, i ≠ 0 → ∀ p, task i = some p → ¬ OnlyUnblockable jiffies p := by
  apply forall_congr'
  intro i
  apply forall_congr'
  intro hi
  apply forall_congr'
  intro p
  apply forall_congr'
  intro hp
  rw [scheduleSignals_apply jiffies task hi, hp, ← checkTask_checked_iff]
  simp

def killedSleeper : SchedTask := ⟨.interruptible, signalBit SIGKILL.toNat, 0, 0⟩

theorem schedule_ignores_kill :
    ¬ TableChecked 1 (fun i => if i = 1 then some killedSleeper else none)
      (scheduleSignals 1 fun i => if i = 1 then some killedSleeper else none) := by
  rw [TableChecked]
  intro h
  obtain ⟨p', hp', hchecked⟩ := h 1 (by decide) killedSleeper rfl
  rw [scheduleSignals_apply 1 _ (by decide)] at hp'
  cases hp'
  have hwoken := hchecked.woken rfl ⟨8, by decide, .inr (.inl rfl)⟩
  revert hwoken
  decide

end Hios.Kernel
