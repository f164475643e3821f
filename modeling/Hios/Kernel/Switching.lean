import Hios.Kernel.Entries
import Hios.Lib.Run

/-! The programs by themselves: each computes, asks for system calls and is now and then
sent to a signal handler, and knows nothing of interrupts and of the others. -/
namespace Hios.Trap
open Hios.Kernel Hios.Mm Hios.Silent Hios.Run

/-- A program that computes, waits for the result of a system call, has it or was interrupted by the
timer, or only waits for its turn. -/
inductive Stage where
  | user (p : Program)
  | calling (p : Program)
  | leaving (p : Program)
  | resuming (p : Program)

structure Programs where
  current : TaskNr
  stage : TaskNr → Option Stage

def Programs.put (u : Programs) (g : Stage) : Programs :=
  { u with stage := Function.update u.stage u.current (some g) }

def trapped (v : Nat) (p : Program) : Stage :=
  if v = 0x80 then .calling p else if v = 0x20 then .leaving p else .resuming p

def Programs.step (u : Programs) : Event → Option Programs
  | .ran p' =>
    match u.stage u.current with
    | some (.user _) => some (u.put (.user p'))
    | _ => none
  | .trapped v =>
    match u.stage u.current with
    | some (.user p) => some (u.put (trapped v p))
    | _ => none
  | .returned w =>
    match u.stage u.current with
    | some (.calling p) => some (u.put (.leaving { p with eax := w }))
    | _ => none
  -- Task 0 gets no signals, and a handler runs in the user's own segments.
  | .signalled eip esp =>
    match u.stage u.current with
    | some (.leaving p) =>
      if u.current ≠ 0 ∧ p.cs = 0x0f ∧
        p.ss = 0x17 then some (u.put (.resuming { p with eip := eip, esp := esp }))
      else none
    | _ => none
  | .resumed p' =>
    match u.stage u.current with
    | some (.leaving p) => if p' = p then some (u.put (.user p)) else none
    | some (.resuming p) => if p' = p then some (u.put (.user p)) else none
    | _ => none
  | .switched n =>
    match u.stage n with
    | some _ => some { u with current := n }
    | none => none
  -- The child goes on where its parent asked for it.
  | .forked nr =>
    match u.stage u.current, u.stage nr with
    | some (.calling p), none =>
      some { u with stage := Function.update u.stage nr (some (.user { p with eax := 0 })) }
    | _, _ => none
  | .released n =>
    if n = u.current then none
    else (u.stage n).map fun _ => { u with stage := Function.update u.stage n none }

def Stands : Stage → Cpu → Prop
  | .user p, c => c = p.cpu
  | .calling p, c => Reaches (Serves p.cpu) c
  | .leaving p, c => Reaches (fun d => Leaves p.cpu d ∨ Returns p.cpu d) c
  | .resuming p, c => Reaches (Returns p.cpu) c

def Sys.regs (s : Sys) (n : TaskNr) : Option Cpu := if n = s.current then some s.cpu else s.tss n

structure Refines (s : Sys) (u : Programs) : Prop where
  current : u.current = s.current
  present : (s.tss s.current).isSome
  stands : ∀ n, Option.Rel Stands (u.stage n) (s.regs n)

theorem Refines.stage {s : Sys} {u : Programs} (h : Refines s u) :
    ∃ g, u.stage u.current = some g ∧ Stands g s.cpu := by
  have hrel := h.stands s.current
  rw [Sys.regs, if_pos rfl] at hrel
  rw [h.current]
  cases hg : u.stage s.current with
  | none => simp [hg] at hrel
  | some g => exact ⟨g, rfl, by simpa [hg] using hrel⟩

theorem Refines.put {s : Sys} {u : Programs} (h : Refines s u) {g : Stage} {c : Cpu}
    (hg : Stands g c) :
    Refines { s with cpu := c } (u.put g) := by
  refine ⟨h.current, h.present, fun n => ?_⟩
  by_cases hn : n = s.current
  · simpa [Programs.put, h.current, Sys.regs, hn] using hg
  · simpa [Programs.put, h.current, Sys.regs, hn] using h.stands n

theorem Refines.stay {s : Sys} {u : Programs} (h : Refines s u) {g : Stage} {c : Cpu}
    (hu : u.stage u.current = some g) (hg : Stands g c) : Refines { s with cpu := c } u := by
  have hput : u.put g = u := by simp [Programs.put, ← hu]
  exact hput ▸ h.put hg

section Modes
variable {K : Cpu → Prop} {c : Cpu} {g : Stage}

end Modes

section Entering
variable {address : TrapFun → Word} {v : Nat} {e : Entry} {f : Free} {g : Stage} {c : Cpu}

end Entering

section Executing
variable {s : Sys} {u : Programs} {x : Bool × Free} {note : Option Note} {c : Cpu} {p : Program}

end Executing

section Simulation
variable {address : TrapFun → Word} {s t : Sys} {u : Programs} {e : Option Event}

theorem Refines.silent {g : Stage} {c : Cpu} (h : Refines s u) (hu : u.stage u.current = some g)
    (hg : Stands g c) :
    ∃ u', run Programs.step u (none : Option Event).toList = some u' ∧
    Refines { s with cpu := c } u' :=
  ⟨u, rfl, h.stay hu hg⟩

def start (p : Program) (c : Cpu) : Sys := ⟨0, p.cpu, Function.update (fun _ => none) 0 (some c)⟩

end Simulation

section Back
variable {c : Cpu} {p : Program} {g : Stage}

end Back

section Misfits
variable {address : TrapFun → Word} {v : Nat} {e : Entry} {f : Free} {c : Cpu}

end Misfits

end Hios.Trap
