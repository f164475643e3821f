import Hios.Kernel.Fork

/-! `release`, `tell_father` and `do_exit` of `kernel/exit.c`, each up to its
call of `schedule()`. -/
namespace Hios.Kernel
open Hios.Mm

def SIGCHLD : Nat := 17

def Task.raise (τ : Task) (sig : Nat) : Task :=
  { τ with signal := τ.signal ||| (1#32 <<< (sig - 1)) }

/-- `task[i] = NULL; free_page(p)`. -/
def releaseSlot (page : Nat) (i : TaskNr) (m : Machine) : Except Panic Machine :=
  freePage page (m.setTask i none)

/-- `task[i] == p`, where `p` lies in `page`. -/
def isTask (m : Machine) (page : Nat) (i : TaskNr) : Prop := ∃ τ, m.task i = some τ ∧ τ.page = page

instance (m : Machine) (page : Nat) (i : TaskNr) : Decidable (isTask m page i) :=
  decidable_of_iff ((m.task i).any fun τ => τ.page = page) (by simp [isTask, Option.any_eq_true])

def releaseUntilSchedule (page : Nat) (m : Machine) : Except Panic Machine :=
  match (List.finRange NR_TASKS).find? fun i => i ≠ 0 ∧ isTask m page i with
  | some i => releaseSlot page i m
  | none => .error .releaseNonExistent

def tellFather (current : Task) (pid : Int) (m : Machine) : Except Panic Machine :=
  match (List.finRange NR_TASKS).find? fun i => pid ≠ 0 ∧ (m.task i).any fun τ => τ.pid = pid with
  | some i => .ok (m.setTask i ((m.task i).map (·.raise SIGCHLD)))
  | none => releaseUntilSchedule current.page m

/-- The loop of `do_exit` over the children of `pid`: init becomes their father. -/
def adoptChild (pid : Int) (m : Machine) (i : TaskNr) : Machine :=
  match m.task i with
  | none => m
  | some τ =>
    if τ.father = pid then
      let m := m.setTask i (some { τ with father := 1 })
      if τ.state = .zombie then m.setTask 1 ((m.task 1).map (·.raise SIGCHLD)) else m
    else m

def doExit (nr : TaskNr) (current : Task) (code : Int) (m : Machine) : Except Panic Machine := do
  let m ← freePageTables current.base m.limit m
  let m ← freePageTables current.base m.limit m
  let m := (List.finRange NR_TASKS).foldl (adoptChild current.pid) m
  let m := m.setTask nr ((m.task nr).map fun τ => { τ with state := .zombie, exitCode := code })
  tellFather current current.father m

end Hios.Kernel
