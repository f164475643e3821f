import Hios.Lib.LongMemory
import Hios.Mm.Entry

/-! `boot/head.s`, in flat segments. -/
namespace Hios.Boot
open Hios.LongMemory Hios.Mm

def pgDir : BitVec 32 := 0x0000
def pg0 : BitVec 32 := 0x1000
def pg1 : BitVec 32 := 0x2000
def pg2 : BitVec 32 := 0x3000
def pg3 : BitVec 32 := 0x4000

def rpSidt (eax edx : BitVec 32) : Nat → BitVec 32 → Memory → Memory
  | 0, _, m => m
  | cx + 1, edi, m => rpSidt eax edx cx (edi + 8) (putLong (putLong m edi eax) (edi + 4) edx)

def setupIdt (idt ignoreInit : BitVec 32) (m : Memory) : Memory :=
  let eax : BitVec 32 := 0x0008#16 ++ ignoreInit.setWidth 16
  let edx : BitVec 32 := (ignoreInit >>> 16).setWidth 16 ++ 0x8e00#16
  rpSidt eax edx 256 idt m

def checkA20 : Nat → BitVec 32 → Memory → Option Memory
  | 0, _, _ => none
  | fuel + 1, eax, m =>
    let eax := eax + 1
    let m := putLong m 0x000000 eax
    if getLong m 0x100000 = eax then checkA20 fuel eax m else some m

def repStosl (eax : BitVec 32) : Nat → BitVec 32 → Memory → Memory
  | 0, _, m => m
  | ecx + 1, edi, m => repStosl eax ecx (edi + 4) (putLong m edi eax)

/-- `1: stosl`, with the direction flag set. `jge` looks at what `subl` was given. -/
def fillPages : Nat → BitVec 32 → BitVec 32 → Memory → Option Memory
  | 0, _, _, _ => none
  | fuel + 1, edi, eax, m =>
    let m := putLong m edi eax
    if BitVec.sle 0x1000 eax then fillPages fuel (edi - 4) (eax - 0x1000) m else some m

def setupPaging (fuel : Nat) (m : Memory) : Option Memory :=
  let m := repStosl 0 (1024 * 5) 0 m
  let m := putLong m pgDir (pg0 + 7)
  let m := putLong m (pgDir + 4) (pg1 + 7)
  let m := putLong m (pgDir + 8) (pg2 + 7)
  let m := putLong m (pgDir + 12) (pg3 + 7)
  fillPages fuel (pg3 + 4092) 0xfff007 m

/-- What the linker puts into the code: the addresses of `idt` and `ignore_init`, the end of
`user_stack` from `stack_start`, what lies behind the three calls, `L6` and `main`. -/
structure Symbols where
  idt : BitVec 32
  ignoreInit : BitVec 32
  stackEnd : BitVec 32
  afterIdt : BitVec 32
  afterGdt : BitVec 32
  afterX87 : BitVec 32
  l6 : BitVec 32
  main : BitVec 32

/-- `call` and `ret` with the stack pointer at `esp`. Where the return address is no longer
there, nobody knows how it goes on. -/
def call (esp ret : BitVec 32) (body : Memory → Memory) (m : Memory) : Option Memory :=
  let m := body (putLong m (esp - 4) ret)
  if getLong m (esp - 4) = ret then some m else none

def pushLongs : List (BitVec 32) → BitVec 32 → Memory → BitVec 32 × Memory
  | [], esp, m => (esp, m)
  | v :: vs, esp, m => pushLongs vs (esp - 4) (putLong m (esp - 4) v)

/-- From `startup_32` on: where the `ret` of `setup_paging` leads, and the memory. -/
def startup32 (sym : Symbols) (fuel : Nat) (m : Memory) : Option (BitVec 32 × Memory) :=
  (call sym.stackEnd sym.afterIdt (setupIdt sym.idt sym.ignoreInit) m).bind fun m =>
  (call sym.stackEnd sym.afterGdt id m).bind fun m =>
  (checkA20 fuel 0 m).bind fun m =>
  (call sym.stackEnd sym.afterX87 id m).bind fun m =>
  let (esp, m) := pushLongs [0, 0, 0, sym.l6, sym.main] sym.stackEnd m
  (setupPaging fuel m).map fun m => (getLong m esp, m)

/-- The physical address that the processor takes `a` for, `cr3` being `pg_dir`. -/
def translate (m : Memory) (a : BitVec 32) : Option (BitVec 32) :=
  let pde := getLong m (pgDir + 4#32 * (a >>> 22))
  if present pde then
    let pte := getLong m ((pde >>> 12) <<< 12 + 4#32 * ((a >>> 12) &&& 0x3ff))
    if present pte then some ((pte >>> 12) <<< 12 + (a &&& 0xfff)) else none
  else none

end Hios.Boot
