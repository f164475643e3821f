import Hios.Lib.Run
import Hios.Kernel.Schedule

/-! The `blocked` masks of all tasks under `sys_ssetmask`, `sys_sigaction`, signal
delivery and fork, in any order. -/
namespace Hios.Kernel
open Hios.LongMemory Hios.Mm Hios.Run

def sysSsetmask (newmask : Word) (p : SigTask) : Word × SigTask :=
  (p.blocked, { p with blocked := newmask &&& ~~~(signalBit SIGKILL.toNat) })

/-- What `copy_process` gives the child of a task's signals. -/
def forkSignals (p : SigTask) : SigTask := { p with signal := 0 }

inductive SigAct where
  | ssetmask (t : TaskNr) (newmask : Word)
  | sigaction (t : TaskNr) (signum : Int) (action oldAction : Word)
  /-- The task returns from a system call into the user code that `c` describes. -/
  | deliver (t : TaskNr) (c : Context)
  | fork (t child : TaskNr)
  /-- User code leaves this memory behind. -/
  | store (t : TaskNr) (mem : Memory)
  | raise (t : TaskNr) (s : Fin 32)

abbrev SigTable := TaskNr → Option SigTask

def onTask (σ : SigTable) (t : TaskNr) (f : SigTask → SigTask) : Option SigTable :=
  (σ t).map fun p => Function.update σ t (some (f p))

def sigStep (σ : SigTable) : SigAct → Option SigTable
  | .ssetmask t newmask => onTask σ t fun p => (sysSsetmask newmask p).2
  | .sigaction t signum action oldAction => onTask σ t fun p =>
    (sysSigaction signum action oldAction p).2
  | .deliver t c => onTask σ t fun p => (retFromSyscall (decide (t = 0)) c p).2
  | .fork t child =>
    if σ child = none then (σ t).map fun p => Function.update σ child (some (forkSignals p))
      else none
  | .store t mem => onTask σ t fun p => { p with mem }
  | .raise t s => onTask σ t fun p => { p with signal := p.signal ||| sigBit s }

def KillFree (w : Word) : Prop := w.getLsbD (SIGKILL.toNat - 1) = false

instance (w : Word) : Decidable (KillFree w) := inferInstanceAs (Decidable (_ = _))

def KillUnblocked (σ : SigTable) : Prop := ∀ t p, σ t = some p → KillFree p.blocked

/-- A delivery that reaches a handler of the user finds no SIGKILL in its `sa_mask`. -/
def MaskSpares (σ : SigTable) : SigAct → Prop
  | .deliver t c => t ≠ 0 → ∀ p s, σ t = some p → Delivers s c p → KillFree (p.sigaction s).saMask
  | _ => True

theorem killFree_or (a b : Word) : KillFree (a ||| b) ↔ KillFree a ∧ KillFree b := by
  simp only [KillFree, BitVec.getLsbD_or, Bool.or_eq_false_iff]

theorem sysSsetmask_killFree (newmask : Word) (p : SigTask) :
    KillFree (sysSsetmask newmask p).2.blocked := by
  have hbit : (~~~(signalBit SIGKILL.toNat)).getLsbD (SIGKILL.toNat - 1) = false := by decide
  simp only [KillFree, sysSsetmask, BitVec.getLsbD_and, hbit, Bool.and_false]

theorem sysSigaction_blocked (signum : Int) (action oldAction : Word) (p : SigTask) :
    (sysSigaction signum action oldAction p).2.blocked = p.blocked := by
  by_cases h : signum < 1 ∨ signum > 32 ∨ signum = SIGKILL
  · rw [sysSigaction, dif_pos h]
  · rw [sysSigaction, dif_neg h]
    by_cases ho : oldAction ≠ 0
    · simp only [if_pos ho, saveOld, SigTask.setAction]
    · simp only [if_neg ho, SigTask.setAction]

theorem retFromSyscall_blocked (task0 : Bool) (c : Context) (p : SigTask) :
    (∃ s, task0 = false ∧ Delivers s c p ∧
      (retFromSyscall task0 c p).2.blocked = p.blocked ||| (p.sigaction s).saMask) ∨
    ((∀ s, ¬ (task0 = false ∧ Delivers s c p)) ∧
      (retFromSyscall task0 c p).2.blocked = p.blocked) := by
  by_cases hdel : ∃ s, task0 = false ∧ Delivers s c p
  · obtain ⟨s, htask, hs⟩ := hdel
    left
    refine ⟨s, htask, hs, ?_⟩
    rw [htask, retFromSyscall_eq hs]
    exact doSignal_blocked hs.handler hs.notIgnored
  · right
    refine ⟨not_exists.mp hdel, ?_⟩
    cases task0 with
    | true => rfl
    | false =>
      by_cases hseg : c.cs.setWidth 16 ≠ 0x0f#16 ∨ c.ss.setWidth 16 ≠ 0x17#16
      · simp only [retFromSyscall, if_pos hseg, if_neg Bool.false_ne_true]
      · simp only [retFromSyscall, if_neg hseg, if_neg Bool.false_ne_true]
        cases hlow : lowestBit (~~~p.blocked &&& p.signal) with
        | none => rfl
        | some s =>
          by_cases hh : (p.sigaction s).saHandler = 1 ∨ (p.sigaction s).saHandler = 0
          · simp only [doSignal, if_pos hh]
          · obtain ⟨h₁, h₀⟩ := not_or.mp hh
            obtain ⟨hcs, hss⟩ := not_or.mp hseg
            exact absurd ⟨s, rfl, ⟨not_not.mp hcs, not_not.mp hss, hlow, h₀, h₁⟩⟩ hdel

theorem killUnblocked_update {σ : SigTable} (h : KillUnblocked σ) (t : TaskNr) (p : SigTask) :
    KillUnblocked (Function.update σ t (some p)) ↔ KillFree p.blocked := by
  constructor
  · intro hall
    exact hall t p (Function.update_self ..)
  · intro hp i q hq
    by_cases hi : i = t
    · rw [hi, Function.update_self] at hq
      cases hq
      exact hp
    · rw [Function.update_of_ne hi] at hq
      exact h i q hq

theorem onTask_some {σ σ' : SigTable} {t : TaskNr} {f : SigTask → SigTask}
    (h : onTask σ t f = some σ') :
    ∃ p, σ t = some p ∧ σ' = Function.update σ t (some (f p)) := by
  obtain ⟨p, hp, hσ⟩ := Option.map_eq_some_iff.mp h
  exact ⟨p, hp, hσ.symm⟩

theorem deliver_killUnblocked {σ σ' : SigTable} {t : TaskNr} {c : Context} (h : KillUnblocked σ)
    (hstep : sigStep σ (.deliver t c) = some σ') :
    KillUnblocked σ' ↔ MaskSpares σ (.deliver t c) := by
  obtain ⟨p, hp, rfl⟩ := onTask_some hstep
  have hfree := h t p hp
  rw [killUnblocked_update h]
  cases retFromSyscall_blocked (decide (t = 0)) c p with
  | inl hdel =>
    obtain ⟨s, htask, hs, hblocked⟩ := hdel
    have ht : t ≠ 0 := of_decide_eq_false htask
    rw [hblocked, killFree_or]
    constructor
    · intro hmask _ q r hq hr
      rw [hp] at hq
      cases hq
      have hsame : some s = some r := hs.lowest.symm.trans hr.lowest
      cases hsame
      exact hmask.2
    · intro hspares
      exact ⟨hfree, hspares ht p s hp hs⟩
  | inr hnone =>
    obtain ⟨hnone, hblocked⟩ := hnone
    rw [hblocked]
    constructor
    · intro _ ht q r hq hr
      rw [hp] at hq
      cases hq
      exact absurd ⟨decide_eq_false ht, hr⟩ (hnone r)
    · intro _
      exact hfree

/-- A step keeps SIGKILL out of all masks exactly if the delivery it makes does. -/
theorem sigStep_killUnblocked {σ σ' : SigTable} {a : SigAct} (h : KillUnblocked σ)
    (hstep : sigStep σ a = some σ') : KillUnblocked σ' ↔ MaskSpares σ a := by
  cases a with
  | deliver t c => exact deliver_killUnblocked h hstep
  | ssetmask t newmask =>
    obtain ⟨p, hp, rfl⟩ := onTask_some hstep
    rw [killUnblocked_update h]
    exact iff_of_true (sysSsetmask_killFree newmask p) trivial
  | sigaction t signum action oldAction =>
    obtain ⟨p, hp, rfl⟩ := onTask_some hstep
    rw [killUnblocked_update h, sysSigaction_blocked]
    exact iff_of_true (h t p hp) trivial
  | fork t child =>
    simp only [sigStep] at hstep
    split at hstep
    · obtain ⟨p, hp, rfl⟩ := Option.map_eq_some_iff.mp hstep
      rw [killUnblocked_update h]
      exact iff_of_true (h t p hp) trivial
    · cases hstep
  | store t mem =>
    obtain ⟨p, hp, rfl⟩ := onTask_some hstep
    rw [killUnblocked_update h]
    exact iff_of_true (h t p hp) trivial
  | raise t s =>
    obtain ⟨p, hp, rfl⟩ := onTask_some hstep
    rw [killUnblocked_update h]
    exact iff_of_true (h t p hp) trivial

theorem sigkill_unblocked_iff (as : List SigAct) (σ : SigTable)
    (hstart : ∀ t p, σ t = some p → p.blocked = 0) :
    Always sigStep KillUnblocked σ as ↔ StepsMeet sigStep MaskSpares σ as := by
  apply always_iff_stepsMeet
  · intro τ a τ' h hstep
    exact sigStep_killUnblocked h hstep
  · intro t p hp
    rw [hstart t p hp]
    decide

def killMaskMem : Memory := putLongs (fun _ => 0) 0 [0x1000, 0x100, 0, 0x2000]

def oneTask : SigTable :=
  fun t => if t = 1 then some ⟨0, 0, fun _ => ⟨0, 0, 0, 0⟩, killMaskMem⟩ else none

def takeUsr1 : List SigAct := [.sigaction 1 10 0 0, .raise 1 9, .deliver 1 exampleContext]

theorem oneTask_blocked : ∀ t p, oneTask t = some p → p.blocked = 0 := by
  intro t p hp
  by_cases ht : t = 1
  · rw [oneTask, if_pos ht] at hp
    cases hp
    rfl
  · rw [oneTask, if_neg ht] at hp
    cases hp

theorem delivery_blocks_kill : (∀ t p, oneTask t = some p → p.blocked = 0) ∧
    ¬ Always sigStep KillUnblocked oneTask takeUsr1 := by
  refine ⟨oneTask_blocked, ?_⟩
  intro h
  have hlast := ((h.2 _ rfl).2 _ rfl).2 _ rfl
  have hfree := hlast 1 _ rfl
  revert hfree
  decide +kernel

theorem sigkill_unblocked_mask_all :
    Always sigStep KillUnblocked oneTask [.ssetmask 1 0xffffffff, .fork 1 2] := by
  rw [sigkill_unblocked_iff _ oneTask oneTask_blocked]
  intro _ _
  exact ⟨trivial, fun _ _ => ⟨trivial, trivial⟩⟩

end Hios.Kernel
