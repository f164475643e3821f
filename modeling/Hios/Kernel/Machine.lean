import Hios.Mm.Entry
import Mathlib.Logic.Function.Basic

/-! The task table and the memory the kernel manages, with the ways it panics. -/
namespace Hios.Kernel
open Hios.Mm

def NR_TASKS : Nat := 64

instance : NeZero NR_TASKS := ⟨by decide⟩

abbrev TaskNr := Fin NR_TASKS

inductive TaskState where
  | running | interruptible | uninterruptible | zombie | stopped
  deriving DecidableEq

/-- The fields of `task_struct` that fork, exit and wait read or write. `base`
is the base of both `ldt[1]` and `ldt[2]`, `page` the page that
`get_free_page` handed out for the structure. -/
structure Task where
  state : TaskState
  counter : Int
  priority : Int
  signal : Word
  exitCode : Int
  pid : Int
  father : Int
  pgrp : Int
  leader : Int
  alarm : Int
  utime : Int
  stime : Int
  cutime : Int
  cstime : Int
  startTime : Int
  base : Nat
  page : Nat

inductive Panic where
  /-- "Out Of Memory!! QWQ" -/
  | outOfMemory
  /-- "Trying to free free page" -/
  | freeFreePage
  /-- "free_page_tables called with wrong alignment" -/
  | freeWrongAlignment
  /-- "try to free up swapper memory space" -/
  | freeSwapperSpace
  /-- "copy_page_tables called with wrong alignment" -/
  | copyWrongAlignment
  /-- "copy_page_tables: already exist" -/
  | alreadyExist
  /-- "trying to release non-existent task" -/
  | releaseNonExistent
  deriving DecidableEq

/-- Physical memory as pages of 1024 words. The page directory, which is page 0,
is kept in `dir`: as data the pages below 1 MB are constant. Page tables lie in
the same memory as the pages of processes, while a `task_struct` is kept in
`task`, not in the words of its page. `memMap` is `mem_map[]`, `highMemory` is
`HIGH_MEMORY` as a page number, and `limit` is the segment limit that every task
inherits from `INIT_TASK`. `wrapped` is no variable of the code: it records that
an `unsigned char` of `mem_map[]` went past 255 or below 0. -/
structure Machine where
  dir : Fin 1024 → Word
  mem : Nat → Fin 1024 → Word
  memMap : Nat → Nat
  highMemory : Nat
  limit : Nat
  wrapped : Bool
  task : TaskNr → Option Task
  lastPid : Int
  jiffies : Int

def Machine.setDir (m : Machine) (i : Fin 1024) (w : Word) : Machine :=
  { m with dir := Function.update m.dir i w }

def Machine.setWord (m : Machine) (page : Nat) (i : Fin 1024) (w : Word) : Machine :=
  { m with mem := Function.update m.mem page (Function.update (m.mem page) i w) }

def Machine.setTask (m : Machine) (t : TaskNr) (τ : Option Task) : Machine :=
  { m with task := Function.update m.task t τ }

end Hios.Kernel
