import Hios.Kernel.Exit
import Hios.Lib.RefCount

/-! What `mem_map` counts: the references to main-memory pages from page tables,
the page directory and the task table. -/
namespace Hios.Mm
open Hios.Kernel Hios.RefCount

def pte (m : Machine) (i k : Fin 1024) : Word := m.mem (pageOf (m.dir i)) k

def hasTable (m : Machine) (i : Fin 1024) : Prop := 16 ≤ i.val ∧ present (m.dir i)

instance (m : Machine) (i : Fin 1024) : Decidable (hasTable m i) :=
  inferInstanceAs (Decidable (_ ∧ _))

def entryTarget (e : Word) : Option Nat :=
  if present e ∧ LOW_MEM ≤ pageOf e then some (pageOf e) else none

def pteTarget (m : Machine) (x : Fin 1024 × Fin 1024) : Option Nat :=
  if hasTable m x.1 then entryTarget (pte m x.1 x.2) else none

def dirTarget (m : Machine) (i : Fin 1024) : Option Nat :=
  if hasTable m i then some (pageOf (m.dir i)) else none

def slotTarget (m : Machine) (t : TaskNr) : Option Nat :=
  if t = 0 then none else (m.task t).map (·.page)

abbrev Ref := (Fin 1024 × Fin 1024) ⊕ Fin 1024 ⊕ TaskNr

def target (m : Machine) : Ref → Option Nat
  | .inl x => pteTarget m x
  | .inr (.inl i) => dirTarget m i
  | .inr (.inr t) => slotTarget m t

def sole (m : Machine) : Ref → Prop
  | .inl x => hasTable m x.1 ∧ writable (pte m x.1 x.2)
  | .inr _ => True

def count (m : Machine) (page : Nat) : Nat :=
  if LOW_MEM ≤ page ∧ page < m.highMemory then m.memMap (mapNr page) else 0

def references (m : Machine) (held : List Nat) : Refs Ref Nat := ⟨target m, sole m, held, count m⟩

structure Config where
  low : Nat → Fin 1024 → Word
  high : Nat
  limit : Nat
  low_le_high : LOW_MEM ≤ high
  high_le : high ≤ LOW_MEM + PAGING_PAGES
  limit_pos : 0 < limit
  limit_le : limit ≤ 0x400000
  table_eq : ∀ i k : Fin 1024, i.val < 4 → low (i.val + 1) k = userEntry (i.val * 1024 + k.val)

def bootDir (i : Fin 1024) : Word := if i.val < 4 then userEntry (i.val + 1) else 0

def slotDir (t : TaskNr) : Fin 1024 :=
  ⟨16 * t.val, by have := t.isLt; simp only [NR_TASKS] at this; omega⟩

structure Inv (c : Config) (held : List Nat) (m : Machine) : Prop where
  high : m.highMemory = c.high
  limit : m.limit = c.limit
  unwrapped : m.wrapped = false
  low : ∀ p k, p < LOW_MEM → m.mem p k = c.low p k
  lowDir : ∀ i : Fin 1024, i.val < 16 → m.dir i = bootDir i
  used : ∀ n, c.high ≤ n + LOW_MEM → m.memMap n ≠ 0
  valid : (references m held).Valid
  range : ∀ r f, target m r = some f → LOW_MEM ≤ f ∧ f < c.high
  heldRange : ∀ f ∈ held, LOW_MEM ≤ f ∧ f < c.high
  dirs : ∀ i, hasTable m i → ∃ t τ, i = slotDir t ∧ m.task t = some τ ∧ τ.state ≠ .zombie
  entries : ∀ i k, hasTable m i → writable (pte m i k) → LOW_MEM ≤ pageOf (pte m i k)
  once : ∀ i k k' f, pteTarget m (i, k) = some f → pteTarget m (i, k') = some f → k = k'
  base : ∀ t τ, m.task t = some τ → τ.base = newBase t

def view (m : Machine) (i k j : Fin 1024) : Word :=
  if hasTable m i ∧ present (pte m i k) then m.mem (pageOf (pte m i k)) j else 0

/-- Success with `Q`, or the panic `oom()`. -/
def Holds {α : Type} (Q : α → Prop) : Except Panic α → Prop
  | .ok a => Q a
  | .error p => p = .outOfMemory

@[simp] theorem ok_bind {α β : Type} (a : α) (f : α → Except Panic β) : (Except.ok a >>= f) = f a :=
  rfl

theorem Holds.bind {α β : Type} {P : α → Prop} {Q : β → Prop} {x : Except Panic α}
    {f : α → Except Panic β} (hx : Holds P x) (hf : ∀ a, P a → Holds Q (f a)) :
    Holds Q (x >>= f) := by
  cases x with
  | ok a => exact hf a hx
  | error p => exact hx

theorem Holds.mono {α : Type} {P Q : α → Prop} {x : Except Panic α} (hx : Holds P x)
    (h : ∀ a, P a → Q a) : Holds Q x := by
  cases x with
  | ok a => exact h a hx
  | error p => exact hx

theorem Holds.map {α β : Type} {Q : α → Prop} {R : β → Prop} {x : Except Panic α} {f : α → β}
    (hx : Holds Q x) (hf : ∀ a, Q a → R (f a)) : Holds R (x.map f) := by
  cases x with
  | ok a => exact hf a hx
  | error p => exact hx

theorem Holds.foldlM {α σ : Type} {P : σ → Prop} {f : σ → α → Except Panic σ}
    (hf : ∀ s a, P s → Holds P (f s a)) (l : List α) {s : σ} (hs : P s) :
    Holds P (l.foldlM f s) := by
  induction l generalizing s with
  | nil => exact hs
  | cons a l ih => exact (hf s a hs).bind fun s' hs' => ih hs'

end Hios.Mm
