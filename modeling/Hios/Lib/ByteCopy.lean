import Mathlib.Logic.Function.Basic
import Mathlib.Tactic.Ring

/-! Loops that copy memory upwards, cell by cell. -/
namespace Hios.ByteCopy
variable {α : Type*} {m m₁ m₂ : Int → α} {dest src : Int}

def Copied (m m₁ : Int → α) (dest src : Int) (k : Nat) : Prop :=
  ∀ a, m₁ a = if dest ≤ a ∧ a < dest + k then m (a + (src - dest)) else m a

theorem Copied.none : Copied m m dest src 0 := by
  intro a
  rw [if_neg (by omega)]

theorem Copied.one : Copied m (Function.update m dest (m src)) dest src 1 := by
  intro a
  by_cases ha : a = dest
  · rw [ha, Function.update_self, if_pos (by omega)]
    congr 1
    omega
  · rw [Function.update_of_ne ha, if_neg (by omega)]

theorem Copied.append {k l : Nat} (hle : dest ≤ src) (h₁ : Copied m m₁ dest src k)
    (h₂ : Copied m₁ m₂ (dest + k) (src + k) l) : Copied m m₂ dest src (k + l) := by
  intro a
  have hshift : src + k - (dest + k) = src - dest := by omega
  rw [h₂ a, hshift]
  by_cases hnew : dest + k ≤ a ∧ a < dest + k + l
  · rw [if_pos hnew, if_pos (by omega), h₁, if_neg (by omega)]
  · rw [if_neg hnew, h₁]
    by_cases hold : dest ≤ a ∧ a < dest + k
    · rw [if_pos hold, if_pos (by omega)]
    · rw [if_neg hold, if_neg (by omega)]

theorem Copied.loop {f : (Int → α) → Nat → Int → α} {size : Nat} (hle : dest ≤ src)
    (hf : ∀ m i, Copied m (f m i) (dest + i * size) (src + i * size) size) (n : Nat) (m : Int → α) :
    Copied m ((List.range n).foldl f m) dest src (n * size) := by
  induction n with
  | zero =>
    rw [Nat.zero_mul]
    exact Copied.none
  | succ n ih =>
    have hmul : (n + 1) * size = n * size + size := Nat.succ_mul n size
    rw [List.range_succ, List.foldl_append, hmul]
    apply ih.append hle
    rw [Nat.cast_mul]
    exact hf _ n

theorem Copied.cells (hle : dest ≤ src) (n : Nat) (m : Int → α) :
    Copied m ((List.range n).foldl (fun m (j : Nat) => Function.update m (dest + j) (m (src + j)))
      m) dest src n := by
  let f (m : Int → α) (j : Nat) : Int → α := Function.update m (dest + j) (m (src + j))
  have hone : ∀ m j, Copied m (f m j) (dest + j * (1 : Nat)) (src + j * (1 : Nat)) 1 := by
    intro m j
    rw [Nat.cast_one, mul_one]
    exact Copied.one
  have hloop := Copied.loop hle hone n m
  rwa [Nat.mul_one] at hloop

end Hios.ByteCopy
