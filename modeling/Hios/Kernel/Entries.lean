import Hios.Kernel.Trap
import Hios.Lib.Silent

/-! What the entry code does to the program or the kernel code it interrupts: whatever
is left open, it comes back with the registers it found. -/
namespace Hios.Trap
open Hios.Kernel Hios.Mm Hios.Silent

abbrev Reaches (K : Cpu → Prop) : Cpu → Prop := Inevitable Cpu.next K

def Returns (c c' : Cpu) : Prop := c'.toRegs = c.toRegs ∧ c'.mode = .kernel [.iret] (frame c)

/-- The registers that neither `system_call` nor a function in C changes. -/
structure KeptRegs (r r' : Regs) : Prop where
  esi : r'.esi = r.esi
  edi : r'.edi = r.edi
  ebp : r'.ebp = r.ebp
  gs : r'.gs = r.gs

/-- What `system_call` pushes of the registers of `c`. -/
def savedRegs (c : Cpu) : List Item :=
  [.long c.ebx, .long c.ecx, .long c.edx, .sel c.fs, .sel c.es, .sel c.ds]

def Leaves (c c' : Cpu) : Prop :=
  KeptRegs c.toRegs c'.toRegs ∧
    c'.mode = .kernel retFromSyscall (.long c.eax :: savedRegs c ++ frame c)

def forkReturn : Code := [.addEsp 5, .ret]

inductive Answers (c c' : Cpu) : Prop
  | bad : c'.toRegs = c.toRegs → c'.mode = .kernel badSysCall (frame c) → Answers c c'
  | result : KeptRegs c.toRegs c'.toRegs → c'.mode = .kernel afterCall (savedRegs c ++ frame c) →
    Answers c c'

/-- The stack at `copy_process`, its first argument being `n`. -/
def forkFrame (c : Cpu) (n : Word) : List Item :=
  .code forkReturn :: .long n :: .long c.ebp :: .long c.edi :: .long c.esi :: .sel c.gs ::
    .code afterCall :: savedRegs c ++ frame c

def Copies (c c' : Cpu) : Prop :=
  KeptRegs c.toRegs c'.toRegs ∧ ∃ n, c'.mode = .kernel [.copyProcess, .ret] (forkFrame c n)

def Serves (c c' : Cpu) : Prop := Answers c c' ∨ Copies c c'

section Steps
variable {K : Cpu → Prop} {i : Instr} {r : Regs} {eflags : Word} {code : Code} {stack : List Item}

theorem Reaches.step {t : Bool × Free → Cpu}
    (hexec : ∀ x, exec x.1 x.2 r eflags code stack i = some (none, t x))
    (ht : ∀ x, Reaches K (t x)) :
    Reaches K ⟨r, eflags, .kernel (i :: code) stack⟩ :=
  Inevitable.step hexec ht

end Steps

section Returns
variable (address : TrapFun → Word) {v : Nat} (f : Free) (c : Cpu)

end Returns

section Nested
variable {c c' : Cpu} {code : Code} {stack : List Item}

end Nested

end Hios.Trap
