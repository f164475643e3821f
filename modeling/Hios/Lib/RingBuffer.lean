import Mathlib.Data.ZMod.Defs
import Mathlib.Logic.Function.Basic
import Mathlib.Tactic.Abel

/-! Ring buffers: `head` is where the next element goes, `tail` the oldest one.
Equal indices mean empty, so one cell always stays free. -/
namespace Hios.RingBuffer
variable {α : Type*} {n : Nat} [NeZero n]

structure Ring (α : Type*) (n : Nat) where
  buf : Fin n → α
  head : Fin n
  tail : Fin n

def Ring.put (r : Ring α n) (c : α) : Ring α n :=
  { r with buf := Function.update r.buf r.head c, head := r.head + 1 }

def Ring.get (r : Ring α n) : α × Ring α n := (r.buf r.tail, { r with tail := r.tail + 1 })

def Ring.drop (r : Ring α n) : Ring α n := { r with head := r.head - 1 }

def Ring.size (r : Ring α n) : Nat := (r.head - r.tail).val

def Ring.contents (r : Ring α n) : List α :=
  (List.range r.size).map fun i => r.buf (r.tail + Fin.ofNat n i)

omit [NeZero n] in
theorem Ring.size_lt (r : Ring α n) : r.size < n := (r.head - r.tail).isLt

@[simp] theorem Ring.length_contents (r : Ring α n) : r.contents.length = r.size := by
  simp [contents]

theorem Ring.size_eq_zero {r : Ring α n} : r.size = 0 ↔ r.head = r.tail := by
  rw [size, Fin.val_eq_zero_iff, sub_eq_zero]

theorem Ring.contents_eq_nil {r : Ring α n} : r.contents = [] ↔ r.head = r.tail := by
  rw [← List.length_eq_zero_iff, length_contents, size_eq_zero]

theorem val_add_one (a : Fin n) : (a + 1).val = (a.val + 1) % n := by
  rw [Fin.val_add, Fin.val_one', Nat.add_mod_mod]

theorem Ring.size_put (r : Ring α n) (c : α) : (r.put c).size = (r.size + 1) % n := by
  have h : (r.put c).head - (r.put c).tail = r.head - r.tail + 1 := by
    simp only [put]
    abel
  rw [size, h, val_add_one]
  rfl

theorem val_of_add_one {a b : Fin n} (h : a + 1 = b) (hb : b.val ≠ 0) : a.val + 1 = b.val := by
  have hval := val_add_one a
  rw [h] at hval
  by_cases hn : a.val + 1 = n
  · rw [hn, Nat.mod_self] at hval
    omega
  · rw [Nat.mod_eq_of_lt (by omega)] at hval
    exact hval.symm

theorem Ring.size_get {r : Ring α n} (h : r.head ≠ r.tail) : r.get.2.size + 1 = r.size := by
  apply val_of_add_one
  · simp only [get]
    abel
  · exact fun e => h (size_eq_zero.mp e)

theorem Ring.size_drop {r : Ring α n} (h : r.head ≠ r.tail) : r.drop.size + 1 = r.size := by
  apply val_of_add_one
  · simp only [drop]
    abel
  · exact fun e => h (size_eq_zero.mp e)

theorem Ring.cell_ne_head {r : Ring α n} {i : Nat} (h : i < r.size) :
    r.tail + Fin.ofNat n i ≠ r.head := by
  intro e
  have hi : Fin.ofNat n i = r.head - r.tail := by
    rw [← e]
    abel
  have hval : i % n = r.size := by
    rw [size, ← hi]
    rfl
  rw [Nat.mod_eq_of_lt (h.trans r.size_lt)] at hval
  omega

theorem Ring.cell_size (r : Ring α n) : r.tail + Fin.ofNat n r.size = r.head := by
  have h : Fin.ofNat n r.size = r.head - r.tail := by
    apply Fin.ext
    exact Nat.mod_eq_of_lt r.size_lt
  rw [h]
  abel

theorem Ring.contents_put {r : Ring α n} (c : α) (h : r.size + 1 < n) :
    (r.put c).contents = r.contents ++ [c] := by
  have hsize : (r.put c).size = r.size + 1 := by rw [size_put, Nat.mod_eq_of_lt h]
  simp only [contents, hsize, List.range_succ, List.map_append, List.map_cons, List.map_nil]
  congr 1
  · apply List.map_congr_left
    intro i hi
    exact (Function.update_of_ne (r.cell_ne_head (List.mem_range.mp hi)) c r.buf)
  · have hcell : (r.put c).buf (r.tail + Fin.ofNat n r.size) = c := by
      rw [r.cell_size]
      exact Function.update_self r.head c r.buf
    exact congrArg (fun x => [x]) hcell

theorem Ring.contents_put_full {r : Ring α n} (c : α) (h : r.size + 1 = n) :
    (r.put c).contents = [] := by
  rw [← List.length_eq_zero_iff, length_contents, size_put, h, Nat.mod_self]

def Ring.putAll (r : Ring α n) (l : List α) : Ring α n := l.foldl put r

theorem Ring.size_putAll (r : Ring α n) (l : List α) :
    (r.putAll l).size = (r.size + l.length) % n := by
  induction l generalizing r with
  | nil => exact (Nat.mod_eq_of_lt r.size_lt).symm
  | cons c l ih =>
    calc
      (r.putAll (c :: l)).size = ((r.put c).size + l.length) % n := ih (r.put c)
      _ = ((r.size + 1) % n + l.length) % n := by rw [size_put]
      _ = (r.size + 1 + l.length) % n := Nat.mod_add_mod _ _ _
      _ = (r.size + (c :: l).length) % n := by rw [List.length_cons, Nat.add_assoc, Nat.add_comm 1]

theorem Ring.contents_putAll {r : Ring α n} {l : List α} (h : r.size + l.length < n) :
    (r.putAll l).contents = r.contents ++ l := by
  induction l generalizing r with
  | nil => exact (List.append_nil _).symm
  | cons c l ih =>
    rw [List.length_cons] at h
    have hroom : r.size + 1 < n := by omega
    have hsize : (r.put c).size = r.size + 1 := by rw [size_put, Nat.mod_eq_of_lt hroom]
    calc
      (r.putAll (c :: l)).contents = (r.put c).contents ++ l := ih (by omega)
      _ = r.contents ++ [c] ++ l := by rw [contents_put c hroom]
      _ = r.contents ++ c :: l := List.append_cons _ _ _ |>.symm

theorem Ring.contents_putAll_ne {r : Ring α n} {l : List α} (h : n ≤ r.size + l.length) :
    (r.putAll l).contents ≠ r.contents ++ l := by
  intro heq
  have hsize := congrArg List.length heq
  rw [length_contents, size_putAll, List.length_append, length_contents] at hsize
  have hlt := Nat.mod_lt (r.size + l.length) (Nat.pos_of_neZero n)
  omega

theorem Ring.contents_get {r : Ring α n} (h : r.head ≠ r.tail) :
    r.contents = r.get.1 :: r.get.2.contents := by
  simp only [contents, ← size_get h, List.range_succ_eq_map, List.map_cons, List.map_map]
  congr 1
  · simp [get]
  · apply List.map_congr_left
    intro i _
    have hi : r.tail + Fin.ofNat n (i + 1) = r.tail + 1 + Fin.ofNat n i := by
      have hs : Fin.ofNat n (i + 1) = Fin.ofNat n i + 1 := by
        apply Fin.ext
        rw [val_add_one]
        simp
      rw [hs]
      abel
    simp only [Function.comp, Nat.succ_eq_add_one, hi]
    rfl

theorem Ring.contents_drop {r : Ring α n} (h : r.head ≠ r.tail) :
    r.drop.contents = r.contents.dropLast := by
  have hsize := size_drop h
  simp only [contents, ← hsize, List.range_succ, List.map_append, List.map_cons, List.map_nil,
    List.dropLast_concat]
  rfl

theorem Ring.getLast?_contents {r : Ring α n} (h : r.head ≠ r.tail) :
    r.contents.getLast? = some (r.buf (r.head - 1)) := by
  have hcell : r.tail + Fin.ofNat n r.drop.size = r.head - 1 := r.drop.cell_size
  simp only [contents, ← size_drop h, List.range_succ, List.map_append, List.map_cons, List.map_nil,
    List.getLast?_concat, hcell]

end Hios.RingBuffer
