import Hios.Kernel.Machine
import Mathlib.Data.List.FinRange

/-! `mm/memory.c`. -/
namespace Hios.Mm
open Hios.Kernel

def LOW_MEM : Nat := 256
def PAGING_PAGES : Nat := 3840
def USED : Nat := 100

def mapNr (page : Nat) : Nat := page - LOW_MEM

def memInit (startMem endMem : Nat) (m : Machine) : Machine :=
  { m with
    highMemory := endMem
    memMap := fun n => if mapNr startMem ≤ n ∧ n < mapNr startMem + (endMem - startMem) then 0
      else USED }

/-- `repne scasb` from the end of `mem_map` down: the highest free page among
the first `n`. -/
def scanFree (memMap : Nat → Nat) : Nat → Option Nat
  | 0 => none
  | n + 1 => if memMap n = 0 then some n else scanFree memMap n

def getFreePage (m : Machine) : Option (Nat × Machine) :=
  (scanFree m.memMap PAGING_PAGES).map fun n =>
    (n + LOW_MEM, { m with
      memMap := Function.update m.memMap n 1
      mem := Function.update m.mem (n + LOW_MEM) fun _ => 0 })

def freePage (page : Nat) (m : Machine) : Except Panic Machine :=
  if page < LOW_MEM then .ok m
  else if m.highMemory ≤ page then .ok m
  else if m.memMap (mapNr page) ≠ 0 then
    .ok { m with memMap := Function.update m.memMap (mapNr page) (m.memMap (mapNr page) - 1) }
  else .error .freeFreePage

/-- The index in the page directory, `(address >> 20) & 0xffc` as a word. -/
def dirIndex (address : Nat) : Fin 1024 := Fin.ofNat 1024 (address / 0x400000)

/-- The index in the page table, `(address >> 10) & 0xffc` as a word. -/
def tableIndex (address : Nat) : Fin 1024 := Fin.ofNat 1024 (address / 4096)

def dirRange (address size : Nat) : List (Fin 1024) :=
  (List.range ((size + 0x3fffff) % 2 ^ 32 / 0x400000)).map fun j => dirIndex address +
    Fin.ofNat 1024 j

def freeEntry (table : Nat) (m : Machine) (nr : Fin 1024) : Except Panic Machine := do
  let e := m.mem table nr
  let m ← if present e then freePage (pageOf e) m else .ok m
  return m.setWord table nr 0

def freeTable (m : Machine) (dir : Fin 1024) : Except Panic Machine := do
  let e := m.dir dir
  if present e then
    let m ← (List.finRange 1024).foldlM (freeEntry (pageOf e)) m
    let m ← freePage (pageOf (m.dir dir)) m
    return m.setDir dir 0
  else return m

def freePageTables (fromAddr size : Nat) (m : Machine) : Except Panic Machine :=
  if fromAddr % 0x400000 ≠ 0 then .error .freeWrongAlignment
  else if fromAddr = 0 then .error .freeSwapperSpace
  else (dirRange fromAddr size).foldlM freeTable m

/-- `none` where the code returns 0. The checks before it only print. -/
def putPage (page address : Nat) (m : Machine) : Option Machine :=
  let dir := dirIndex address
  if present (m.dir dir) then
    some (m.setWord (pageOf (m.dir dir)) (tableIndex address) (userEntry page))
  else
    (getFreePage m).map fun (tmp, m) =>
      (m.setDir dir (userEntry tmp)).setWord tmp (tableIndex address) (userEntry page)

def Machine.copyPage (m : Machine) (oldPage newPage : Nat) : Machine :=
  { m with mem := Function.update m.mem newPage (m.mem oldPage) }

/-- `mem_map[MAP_NR(page)]--`. -/
def decMap (page : Nat) (m : Machine) : Machine :=
  { m with
    memMap := Function.update m.memMap (mapNr page) ((m.memMap (mapNr page) + 255) % 256)
    wrapped := m.wrapped || m.memMap (mapNr page) == 0 }

/-- `mem_map[MAP_NR(page)]++`. -/
def incMap (page : Nat) (m : Machine) : Machine :=
  { m with
    memMap := Function.update m.memMap (mapNr page) ((m.memMap (mapNr page) + 1) % 256)
    wrapped := m.wrapped || m.memMap (mapNr page) == 255 }

def unWpPage (table : Nat) (k : Fin 1024) (m : Machine) : Except Panic Machine :=
  let oldPage := pageOf (m.mem table k)
  if LOW_MEM ≤ oldPage ∧ m.memMap (mapNr oldPage) = 1 then
    .ok (m.setWord table k (setWritable (m.mem table k)))
  else
    match getFreePage m with
    | none => .error .outOfMemory
    | some (newPage, m) =>
      let m := if LOW_MEM ≤ oldPage then decMap oldPage m else m
      .ok (Machine.copyPage (m.setWord table k (userEntry newPage)) oldPage newPage)

def writeVerify (address : Nat) (m : Machine) : Except Panic Machine :=
  let e := m.dir (dirIndex address)
  if present e then
    let entry := m.mem (pageOf e) (tableIndex address)
    if present entry ∧ ¬ writable entry then unWpPage (pageOf e) (tableIndex address) m else .ok m
  else .ok m

def doWpPage (address : Nat) (m : Machine) : Except Panic Machine :=
  unWpPage (pageOf (m.dir (dirIndex address))) (tableIndex address) m

def doNoPage (address : Nat) (m : Machine) : Except Panic Machine :=
  match getFreePage m with
  | none => .error .outOfMemory
  | some (page, m) =>
    match putPage page address m with
    | some m => .ok m
    | none => do
      let _ ← freePage page m
      .error .outOfMemory

/-- One turn of the inner loop of `copy_page_tables`. -/
def copyEntry (fromTable toTable : Nat) (m : Machine) (nr : Fin 1024) : Machine :=
  let thisPage := readOnly (m.mem fromTable nr)
  if present (m.mem fromTable nr) then
    let m := m.setWord toTable nr thisPage
    if 0x100000 < thisPage.toNat then incMap (pageOf thisPage) (m.setWord fromTable nr thisPage)
      else m
  else m

/-- The outer loop of `copy_page_tables`, over the pairs `from_dir`, `to_dir`. -/
def copyTables (nr : Nat) : List (Fin 1024 × Fin 1024) → Machine → Except Panic (Int × Machine)
  | [], m => .ok (0, m)
  | (fromDir, toDir) :: dirs, m =>
    if present (m.dir toDir) then .error .alreadyExist
    else if present (m.dir fromDir) then
      match getFreePage m with
      | none => .ok (-1, m)
      | some (toTable, m') =>
        let m' := m'.setDir toDir (userEntry toTable)
        copyTables nr dirs
          (((List.finRange 1024).take nr).foldl (copyEntry (pageOf (m.dir fromDir)) toTable) m')
    else copyTables nr dirs m

def copyPageTables (fromAddr toAddr size : Nat) (m : Machine) : Except Panic (Int × Machine) :=
  if fromAddr % 0x400000 ≠ 0 ∨ toAddr % 0x400000 ≠ 0 then .error .copyWrongAlignment
  else
    copyTables (if fromAddr = 0 then 0xA0 else 1024)
      ((dirRange fromAddr size).zip (dirRange toAddr size)) m

end Hios.Mm
