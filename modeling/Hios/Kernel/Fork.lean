import Hios.Mm.Memory

/-! `kernel/fork.c`. The current task is passed as its `task_struct`, where the
code only reads it. -/
namespace Hios.Kernel
open Hios.Mm

def toLong (size : Nat) : Int := if size < 2 ^ 31 then size else size - 2 ^ 32

def verifyLoop (start : Nat) (size : Int) (m : Machine) : Except Panic Machine :=
  if 0 < size then do
    let m ← writeVerify start m
    verifyLoop ((start + 4096) % 2 ^ 32) (size - 4096) m
  else .ok m
termination_by size.toNat
decreasing_by omega

def verifyArea (current : Task) (addr size : Nat) (m : Machine) : Except Panic Machine :=
  let size := (size + addr % 4096) % 2 ^ 32
  let start := addr - addr % 4096
  verifyLoop ((start + current.base) % 2 ^ 32) (toLong size) m

def newBase (nr : TaskNr) : Nat := nr.val * 0x4000000

/-- `p` is the new task, already in `task[nr]`. Both descriptors get their base
together, so the test that they differ has no counterpart. -/
def copyMem (current : Task) (nr : TaskNr) (p : Task) (m : Machine) :
    Except Panic (Int × Machine) :=
  do
  let m := m.setTask nr (some { p with base := newBase nr })
  let (err, m) ← copyPageTables current.base (newBase nr) m.limit m
  if err ≠ 0 then
    let m ← freePageTables (newBase nr) m.limit m
    return (-1, m)
  else return (0, m)

/-- `copy_process` without the saved registers and the use counts of files and
inodes. -/
def copyProcess (current : Task) (nr : TaskNr) (m : Machine) : Except Panic (Int × Machine) :=
  match getFreePage m with
  | none => .ok (-1, m)
  | some (page, m) => do
    let p := { current with
      state := .uninterruptible, pid := m.lastPid, father := current.pid,
      counter := current.priority
      signal := 0, alarm := 0, leader := 0, utime := 0, stime := 0, cutime := 0, cstime := 0
      startTime := m.jiffies, page := page }
    let m := m.setTask nr (some p)
    let (err, m) ← copyMem current nr p m
    if err ≠ 0 then
      let m ← freePage page (m.setTask nr none)
      return (-1, m)
    else return (m.lastPid, m.setTask nr ((m.task nr).map fun p => { p with state := .running }))

/-- `++last_pid` on a 32-bit `long`, back to 1 when it turns negative. -/
def nextPid (pid : Int) : Int :=
  if pid + 1 < 2 ^ 31 ∧ 0 ≤ pid + 1 then pid + 1 else 1

def pidTaken (m : Machine) (pid : Int) : Prop := ∃ i τ, m.task i = some τ ∧ τ.pid = pid

instance (m : Machine) (pid : Int) : Decidable (pidTaken m pid) :=
  decidable_of_iff (∃ i, (m.task i).any fun τ => τ.pid = pid) (by
    simp [pidTaken, Option.any_eq_true])

/-- The `while (1)` loop of `find_empty_process`. At most `NR_TASKS` pids are
taken, so `NR_TASKS` rounds that find one taken are enough. -/
def findPid (m : Machine) (tmp : Int) : Nat → Int → Int
  | 0, pid => pid
  | fuel + 1, pid =>
    if pidTaken m pid then
      if pid + 1 = tmp then pid + 1 else findPid m tmp fuel (nextPid pid)
    else pid

def findEmptyProcess (m : Machine) : Option TaskNr × Machine :=
  ((List.finRange NR_TASKS).find? fun i => i ≠ 0 ∧ m.task i = none,
    { m with lastPid := findPid m m.lastPid (NR_TASKS + 1) m.lastPid })

def sysFork (current : Task) (m : Machine) : Except Panic (Int × Machine) :=
  match findEmptyProcess m with
  | (none, m) => .ok (-1, m)
  | (some nr, m) => copyProcess current nr m

end Hios.Kernel
