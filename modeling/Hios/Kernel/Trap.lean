import Hios.Kernel.Machine

/-! The entries of `system_call.s`, `asm.s`, `mm/page.s` and `keyboard.s`,
instruction by instruction, with the task switch of `switch_to` and the registers
that `copy_process` gives a child. -/
namespace Hios.Trap
open Hios.Kernel Hios.Mm

abbrev Selector := BitVec 16

inductive Reg where
  | eax | ebx | ecx | edx | esi | edi | ebp
  deriving DecidableEq

inductive Seg where
  | ds | es | fs | gs
  deriving DecidableEq

inductive CFun where
  | sysCall | schedule | findEmptyProcess | doTimer | doHd | doKeyboard | doNoPage |
    doWpPage | doTrap
  deriving DecidableEq

/-- `scratch rs` stands for instructions that change nothing but the flags and `rs`, and
`c f` for the body of a function in C. -/
inductive Instr where
  | push (r : Reg)
  | pop (r : Reg)
  /-- `pop %ax`, into the low half of `eax`. -/
  | popLow (r : Reg)
  | pushSeg (s : Seg)
  | popSeg (s : Seg)
  | pushImm (w : Word)
  | pushCode (code : List Instr)
  | movl (w : Word) (r : Reg)
  | movSeg (r : Reg) (s : Seg)
  /-- `xchgl r, 4*n(%esp)` -/
  | xchg (r : Reg) (n : Nat)
  | scratch (rs : List Reg)
  /-- `addl $4*n, %esp` -/
  | addEsp (n : Nat)
  | call (body : List Instr)
  /-- `call *sys_call_table(, %eax, 4)` -/
  | callTable
  | c (f : CFun)
  | copyProcess
  | ret
  /-- `cmp $w, %eax`, `ja target` -/
  | ja (w : Word) (target : List Instr)
  /-- `testl %eax, %eax`, `js target` -/
  | js (target : List Instr)
  /-- A jump that depends on what is not kept here. -/
  | jcc (target : List Instr)
  /-- `movl $-1, %eax` of `bad_sys_call`. -/
  | badResult
  /-- `pushl %eax` behind the call. -/
  | pushResult
  /-- `ret_from_syscall` up to its label 3. -/
  | deliver
  | iret

abbrev Code := List Instr

inductive Item where
  | long (w : Word)
  | sel (s : Selector)
  | code (l : Code)

@[ext]
structure Regs where
  eax : Word
  ebx : Word
  ecx : Word
  edx : Word
  esi : Word
  edi : Word
  ebp : Word
  ds : Selector
  es : Selector
  fs : Selector
  gs : Selector
  deriving DecidableEq

/-- `cs:eip` and `ss:esp`. In the kernel they are the code that is left and what lies on
the kernel stack, the top first. -/
inductive Mode where
  | user (cs : Selector) (eip : Word) (ss : Selector) (esp : Word)
  | kernel (code : Code) (stack : List Item)

structure Cpu extends Regs where
  eflags : Word
  mode : Mode

structure Program extends Regs where
  eflags : Word
  cs : Selector
  eip : Word
  ss : Selector
  esp : Word
  deriving DecidableEq

def Program.cpu (p : Program) : Cpu := ⟨p.toRegs, p.eflags, .user p.cs p.eip p.ss p.esp⟩

def Regs.get (r : Regs) : Reg → Word
  | .eax => r.eax
  | .ebx => r.ebx
  | .ecx => r.ecx
  | .edx => r.edx
  | .esi => r.esi
  | .edi => r.edi
  | .ebp => r.ebp

def Regs.set (r : Regs) (w : Word) : Reg → Regs
  | .eax => { r with eax := w }
  | .ebx => { r with ebx := w }
  | .ecx => { r with ecx := w }
  | .edx => { r with edx := w }
  | .esi => { r with esi := w }
  | .edi => { r with edi := w }
  | .ebp => { r with ebp := w }

def Regs.seg (r : Regs) : Seg → Selector
  | .ds => r.ds
  | .es => r.es
  | .fs => r.fs
  | .gs => r.gs

def Regs.setSeg (r : Regs) (v : Selector) : Seg → Regs
  | .ds => { r with ds := v }
  | .es => { r with es := v }
  | .fs => { r with fs := v }
  | .gs => { r with gs := v }

section Entries
open Instr Reg Seg

def retFromSyscall : Code :=
  [deliver, pop eax, pop ebx, pop ecx, pop edx, popSeg fs, popSeg es, popSeg ds, iret]

def badSysCall : Code := [badResult, iret]

def reschedule : Code := [pushCode retFromSyscall, c .schedule, ret]

def nrSystemCalls : Word := 72 + 3

def afterCall : Code :=
  [pushResult, scratch [eax], jcc reschedule, jcc reschedule] ++ retFromSyscall

def systemCall : Code :=
  [ja (nrSystemCalls - 1) badSysCall, pushSeg ds, pushSeg es, pushSeg fs, push edx,
    push ecx, push ebx,
    movl 0x10 edx, movSeg edx ds, movSeg edx es, movl 0x17 edx, movSeg edx fs, callTable] ++
      afterCall

def sysFork : Code :=
  [call [c .findEmptyProcess, ret], js [ret], pushSeg gs, push esi, push edi, push ebp, push eax,
    call [copyProcess, ret], addEsp 5, ret]

def timerInterrupt : Code :=
  [pushSeg ds, pushSeg es, pushSeg fs, push edx, push ecx, push ebx, push eax,
    movl 0x10 eax, movSeg eax ds, movSeg eax es, movl 0x17 eax, movSeg eax fs, scratch [],
    scratch [eax], scratch [eax], push eax, call [c .doTimer, ret], addEsp 1] ++ retFromSyscall

def hdInterrupt : Code :=
  [push eax, push ecx, push edx, pushSeg ds, pushSeg es, pushSeg fs,
    movl 0x10 eax, movSeg eax ds, movSeg eax es, movl 0x17 eax, movSeg eax fs, scratch [eax],
    scratch [edx], call [c .doHd, ret], popSeg fs, popSeg es, popSeg ds, pop edx, pop ecx,
      pop eax, iret]

def keyboardInterrupt : Code :=
  [push eax, push ebx, push ecx, push edx, pushSeg ds, pushSeg es, movl 0x10 eax, movSeg eax ds,
    movSeg eax es,
    scratch [eax], push eax, scratch [eax], call [c .doKeyboard, ret], popLow eax,
    popSeg es, popSeg ds, pop edx, pop ecx, pop ebx, pop eax, iret]

def parallelInterrupt : Code := [push eax, scratch [eax], pop eax, iret]

def pageFault : Code :=
  let leave : Code := [addEsp 2, popSeg fs, popSeg es, popSeg ds, pop edx, pop ecx, pop eax, iret]
  [xchg eax 0, push ecx, push edx, pushSeg ds, pushSeg es, pushSeg fs,
    movl 0x10 edx, movSeg edx ds, movSeg edx es, movSeg edx fs, scratch [edx], push edx, push eax,
    jcc ([call [c .doWpPage, ret]] ++ leave), call [c .doNoPage, ret]] ++ leave

def noErrorCode (function : Word) : Code :=
  [pushImm function, xchg eax 0, push ebx, push ecx, push edx, push edi, push esi, push ebp,
    pushSeg ds, pushSeg es, pushSeg fs, pushImm 0, scratch [edx], push edx,
    movl 0x10 edx, movSeg edx ds, movSeg edx es, movSeg edx fs, call [c .doTrap, ret], addEsp 2,
    popSeg fs, popSeg es, popSeg ds, pop ebp, pop esi, pop edi, pop edx, pop ecx, pop ebx,
      pop eax, iret]

def errorCode (function : Word) : Code :=
  [pushImm function, xchg eax 1, xchg ebx 0, push ecx, push edx, push esi, push edi, push ebp,
    pushSeg ds, pushSeg es, pushSeg fs, push eax, scratch [eax], push eax,
    movl 0x10 eax, movSeg eax ds, movSeg eax es, movSeg eax fs, call [c .doTrap, ret], addEsp 2,
    popSeg fs, popSeg es, popSeg ds, pop ebp, pop edi, pop esi, pop edx, pop ecx, pop ebx,
      pop eax, iret]

def irq13 (function : Word) : Code := [push eax, scratch [eax], pop eax] ++ errorCode function

end Entries

inductive TrapFun where
  | divideError | int3 | nmi | overflow | bounds | doubleFault |
    coprocessorSegmentOverrun | invalidTSS
  | segmentNotPresent | stackSegment | generalProtection | reserved | stub
  deriving DecidableEq

inductive Entry where
  | systemCall | timer | hd | keyboard | parallel | pageFault | irq13
  | noErrorCode (f : TrapFun)
  | errorCode (f : TrapFun)
  deriving DecidableEq

/-- The gates, as `trap_init`, `sched_init`, `con_init` and `hd_init` set them in this order. -/
def idt (v : Nat) : Option Entry :=
  match v with
  | 0 => some (.noErrorCode .divideError)
  | 1 => some (.noErrorCode .int3)
  | 2 => some (.noErrorCode .nmi)
  | 3 => some (.noErrorCode .int3)
  | 4 => some (.noErrorCode .overflow)
  | 5 => some (.noErrorCode .bounds)
  | 6 => some (.errorCode .doubleFault)
  | 7 => some (.errorCode .stub)
  | 8 => some (.errorCode .doubleFault)
  | 9 => some (.noErrorCode .coprocessorSegmentOverrun)
  | 10 => some (.errorCode .invalidTSS)
  | 11 => some (.errorCode .segmentNotPresent)
  | 12 => some (.errorCode .stackSegment)
  | 13 => some (.errorCode .generalProtection)
  | 14 => some .pageFault
  | 15 => some (.noErrorCode .reserved)
  | 16 => some (.errorCode .stub)
  | 0x20 => some .timer
  | 0x21 => some .keyboard
  | 0x27 => some .parallel
  | 0x2d => some .irq13
  | 0x2e => some .hd
  | 0x80 => some .systemCall
  | _ => if v < 48 then some (.noErrorCode .reserved) else none

def Entry.code (address : TrapFun → Word) : Entry → Code
  | .systemCall => Trap.systemCall
  | .timer => timerInterrupt
  | .hd => hdInterrupt
  | .keyboard => keyboardInterrupt
  | .parallel => parallelInterrupt
  | .pageFault => Trap.pageFault
  | .irq13 => Trap.irq13 (address .stub)
  | .noErrorCode f => Trap.noErrorCode (address f)
  | .errorCode f => Trap.errorCode (address f)

def pushesErrorCode (v : Nat) : Bool := v == 8 || 10 ≤ v && v ≤ 14

/-- What an instruction leaves open: the registers and flags it may change, whether a
jump is taken, and the signal handler and user stack that `do_signal` chooses. -/
structure Free where
  eax : Word
  ebx : Word
  ecx : Word
  edx : Word
  eflags : Word
  taken : Bool
  signal : Option (Word × Word)

inductive Note where
  | returned (v : Word)
  | signalled (eip esp : Word)
  | notCopied
  | resumed (p : Program)

def Free.get (f : Free) (r : Regs) : Reg → Word
  | .eax => f.eax
  | .ebx => f.ebx
  | .ecx => f.ecx
  | .edx => f.edx
  | x => r.get x

def Regs.scratch (r : Regs) (f : Free) (xs : List Reg) : Regs :=
  xs.foldl (fun r x => r.set (f.get r x) x) r

def Regs.cReturn (r : Regs) (f : Free) : Regs := r.scratch f [.eax, .ecx, .edx]

/-- `do_signal` may replace `eip` and `esp` of a frame that leads to a user program. -/
def deliverSignal (task0 : Bool) (f : Free) (stack : List Item) : Option Note × List Item :=
  match stack, f.signal with
  | eax :: ebx :: ecx :: edx :: fs :: es :: ds :: .long _ :: .sel cs :: eflags :: .long _ ::
    .sel ss :: l,
      some (eip, esp) =>
    if task0 = false ∧ cs = 0x0f ∧ ss = 0x17 then
      (some (.signalled eip esp),
        eax :: ebx :: ecx :: edx :: fs :: es :: ds :: .long eip :: .sel cs :: eflags :: .long esp ::
          .sel ss :: l)
    else (none, stack)
  | _, _ => (none, stack)

def exec (task0 : Bool) (f : Free) (r : Regs) (eflags : Word) (next : Code) (stack : List Item) :
    Instr → Option (Option Note × Cpu)
  | .push x => some (none, ⟨r, eflags, .kernel next (.long (r.get x) :: stack)⟩)
  | .pop x =>
    match stack with
    | .long w :: stack => some (none, ⟨r.set w x, eflags, .kernel next stack⟩)
    | _ => none
  | .popLow x =>
    match stack with
    | .long w :: stack =>
      let v : Word := (r.get x).extractLsb' 16 16 ++ w.setWidth 16
      some (none, ⟨r.set v x, eflags, .kernel next stack⟩)
    | _ => none
  | .pushSeg x => some (none, ⟨r, eflags, .kernel next (.sel (r.seg x) :: stack)⟩)
  | .popSeg x =>
    match stack with
    | .sel v :: stack => some (none, ⟨r.setSeg v x, eflags, .kernel next stack⟩)
    | _ => none
  | .pushImm w => some (none, ⟨r, eflags, .kernel next (.long w :: stack)⟩)
  | .pushCode code => some (none, ⟨r, eflags, .kernel next (.code code :: stack)⟩)
  | .movl w x => some (none, ⟨r.set w x, eflags, .kernel next stack⟩)
  | .movSeg x s => some (none, ⟨r.setSeg ((r.get x).setWidth 16) s, eflags, .kernel next stack⟩)
  | .xchg x n =>
    match stack[n]? with
    | some (.long w) =>
      some (none, ⟨r.set w x, eflags, .kernel next (stack.set n (.long (r.get x)))⟩)
    | _ => none
  | .scratch xs => some (none, ⟨r.scratch f xs, f.eflags, .kernel next stack⟩)
  | .addEsp n => some (none, ⟨r, f.eflags, .kernel next (stack.drop n)⟩)
  | .call body => some (none, ⟨r, eflags, .kernel body (.code next :: stack)⟩)
  | .callTable =>
    let body : Code := if r.eax = 2 then sysFork else [.c .sysCall, .ret]
    some (none, ⟨r, eflags, .kernel body (.code next :: stack)⟩)
  | .c _ => some (none, ⟨r.cReturn f, f.eflags, .kernel next stack⟩)
  | .copyProcess =>
    some (some .notCopied, ⟨(r.cReturn f).set (-1) .eax, f.eflags, .kernel next stack⟩)
  | .ret =>
    match stack with
    | .code code :: stack => some (none, ⟨r, eflags, .kernel code stack⟩)
    | _ => none
  | .ja w target => some (none, ⟨r, f.eflags, .kernel (if w < r.eax then target else next) stack⟩)
  | .js target => some (none, ⟨r, f.eflags, .kernel (if r.eax.msb then target else next) stack⟩)
  | .jcc target => some (none, ⟨r, f.eflags, .kernel (if f.taken then target else next) stack⟩)
  | .badResult => some (some (.returned (-1)), ⟨r.set (-1) .eax, eflags, .kernel next stack⟩)
  | .pushResult => some (some (.returned r.eax), ⟨r, eflags, .kernel next (.long r.eax :: stack)⟩)
  | .deliver =>
    let (note, stack) := deliverSignal task0 f stack
    some (note, ⟨r.scratch f [.eax, .ebx, .ecx, .edx], f.eflags, .kernel next stack⟩)
  | .iret =>
    match stack with
    | .long eip :: .sel cs :: .long eflags :: .long esp :: .sel ss :: _ =>
      let p : Program := ⟨r, eflags, cs, eip, ss, esp⟩
      some (some (.resumed p), p.cpu)
    | .code code :: .sel _ :: .long eflags :: stack => some (none, ⟨r, eflags, .kernel code stack⟩)
    | _ => none

/-- What the processor pushes: a program's stack pointer only on the way from a user stack to
the kernel stack, which is empty then. -/
def frame (c : Cpu) : List Item :=
  match c.mode with
  | .user cs eip ss esp => [.long eip, .sel cs, .long c.eflags, .long esp, .sel ss]
  | .kernel code stack => .code code :: .sel 0x08 :: .long c.eflags :: stack

def enter (address : TrapFun → Word) (v : Nat) (e : Entry) (f : Free) (c : Cpu) : Cpu :=
  let stack := if pushesErrorCode v then .long f.eax :: frame c else frame c
  ⟨c.toRegs, f.eflags, .kernel (e.code address) stack⟩

def Cpu.next (c : Cpu) (x : Bool × Free) : Option (Option Note × Cpu) :=
  match c.mode with
  | .kernel (i :: code) stack => exec x.1 x.2 c.toRegs c.eflags code stack i
  | _ => none

/-- The `tss` of a child, from the arguments of `copy_process`. -/
def childTss (nr : TaskNr) : List Item → Option Cpu
  | .code _ :: .long n :: .long ebp :: .long edi :: .long esi :: .sel gs :: .code _ ::
      .long ebx :: .long ecx :: .long edx :: .sel fs :: .sel es :: .sel ds ::
      .long eip :: .sel cs :: .long eflags :: .long esp :: .sel ss :: _ =>
    if n = BitVec.ofNat 32 nr then
      some ⟨⟨0, ebx, ecx, edx, esi, edi, ebp, ds, es, fs, gs⟩, eflags, .user cs eip ss esp⟩
    else none
  | _ => none

/-- `tss` is the one of each `task[n]`; that of the current task is not up to date. -/
structure Sys where
  current : TaskNr
  cpu : Cpu
  tss : TaskNr → Option Cpu

inductive Act where
  /-- The user program computes. -/
  | run (p : Program)
  | trap (v : Nat) (f : Free)
  | exec (f : Free)
  /-- `switch_to(n)`, somewhere in a function in C. -/
  | switchTo (n : TaskNr)
  /-- `copy_process` succeeds. -/
  | copyProcess (nr : TaskNr) (f : Free)
  | release (n : TaskNr)

inductive Event where
  | ran (p : Program)
  | trapped (v : Nat)
  | returned (v : Word)
  | signalled (eip esp : Word)
  | resumed (p : Program)
  | switched (n : TaskNr)
  | forked (nr : TaskNr)
  | released (n : TaskNr)
  deriving DecidableEq

def Note.event : Note → Option Event
  | .returned v => some (.returned v)
  | .signalled eip esp => some (.signalled eip esp)
  | .notCopied => none
  | .resumed p => some (.resumed p)

def step (address : TrapFun → Word) (s : Sys) : Act → Option (Option Event × Sys)
  | .run p =>
    match s.cpu.mode with
    | .user .. => some (some (.ran p), { s with cpu := p.cpu })
    | .kernel .. => none
  | .trap v f =>
    match idt v, s.cpu.mode with
    | some e, .user .. => some (some (.trapped v), { s with cpu := enter address v e f s.cpu })
    -- The kernel makes no system calls of its own.
    | some .systemCall, .kernel .. => none
    | some e, .kernel .. => some (none, { s with cpu := enter address v e f s.cpu })
    | none, _ => none
  | .exec f => (s.cpu.next (s.current = 0, f)).map fun x =>
    (x.1.bind Note.event, { s with cpu := x.2 })
  | .switchTo n =>
    match s.cpu.mode with
    | .kernel (.c _ :: _) _ =>
      if n = s.current then some (none, s)
      else (s.tss n).map fun c =>
        (some (.switched n), ⟨n, c, Function.update s.tss s.current (some s.cpu)⟩)
    | _ => none
  | .copyProcess nr f =>
    match s.cpu.mode, s.tss nr with
    | .kernel (.copyProcess :: code) stack, none => (childTss nr stack).map fun child =>
        (some (.forked nr),
          ⟨s.current, ⟨s.cpu.cReturn f, f.eflags, .kernel code stack⟩,
            Function.update s.tss nr (some child)⟩)
    | _, _ => none
  | .release n =>
    match s.cpu.mode, s.tss n with
    | .kernel (.c _ :: _) _, some _ =>
      if n = s.current then none
        else some (some (.released n), { s with tss := Function.update s.tss n none })
    | _, _ => none

end Hios.Trap
