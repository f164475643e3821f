import Mathlib

/-! Memory used from both ends: an array of records grows up from `lo`, and for every record
a block is cut off further down than the ones before it, as long as the array ends below it. -/
namespace Hios.TwoEnded

structure Arena where
  lo : ℕ
  record : ℕ
  size : ℕ
  count : ℕ
  block : ℕ → ℕ
  down : ∀ k, k + 1 < count → block (k + 1) + size ≤ block k
  room : ∀ k < count, lo + record * (k + 1) ≤ block k

/-- The array is the piece `none`, the blocks are the others. -/
def piece (lo record size count : ℕ) (block : ℕ → ℕ) : Option (Fin count) → Set ℕ
  | none => Set.Ico lo (lo + record * count)
  | some i => Set.Ico (block i) (block i + size)

def Arena.piece (A : Arena) : Option (Fin A.count) → Set ℕ :=
  TwoEnded.piece A.lo A.record A.size A.count A.block

variable {A : Arena} {i j top lo hi : ℕ}

theorem Arena.block_le (hij : i ≤ j) (hj : j < A.count) : A.block j ≤ A.block i := by
  induction j with
  | zero => rw [Nat.le_zero.mp hij]
  | succ j ih =>
    by_cases heq : i = j + 1
    · rw [heq]
    · have hstep := A.down j hj
      have hle := ih (by omega) (by omega)
      omega

theorem Arena.block_add_size_le (hij : i < j) (hj : j < A.count) :
    A.block j + A.size ≤ A.block i := by
  cases j with
  | zero => exact absurd hij (Nat.not_lt_zero i)
  | succ j => exact (A.down j hj).trans (block_le (Nat.le_of_lt_succ hij) (Nat.lt_of_succ_lt hj))

theorem Arena.array_le (hi : i < A.count) : A.lo + A.record * A.count ≤ A.block i := by
  have hroom := A.room (A.count - 1) (by omega)
  rw [Nat.sub_add_cancel (by omega)] at hroom
  exact hroom.trans (block_le (by omega) (by omega))

theorem Arena.pairwise_disjoint (A : Arena) :
    Pairwise fun x y => Disjoint (A.piece x) (A.piece y) := by
  have harray : ∀ i : Fin A.count, Disjoint (A.piece none) (A.piece (some i)) := by
    intro i
    have hle := Arena.array_le i.isLt
    simp only [Arena.piece, TwoEnded.piece, Set.Ico_disjoint_Ico]
    omega
  have hblocks : ∀ i j : Fin A.count, i < j → Disjoint (A.piece (some i)) (A.piece (some j)) := by
    intro i j hij
    have hle := Arena.block_add_size_le hij j.isLt
    simp only [Arena.piece, TwoEnded.piece, Set.Ico_disjoint_Ico]
    omega
  intro x y hxy
  cases x with
  | none => cases y with
    | none => exact absurd rfl hxy
    | some j => exact harray j
  | some i => cases y with
    | none => exact (harray i).symm
    | some j =>
      cases Nat.lt_or_gt_of_ne (fun h => hxy (congrArg some (Fin.ext h))) with
      | inl h => exact hblocks i j h
      | inr h => exact (hblocks j i h).symm

theorem Arena.piece_subset (hpos : 0 < A.count) (htop : A.block 0 + A.size ≤ top)
    (x : Option (Fin A.count)) :
    A.piece x ⊆ Set.Ico A.lo top := by
  cases x with
  | none =>
    have hend := Arena.array_le hpos
    exact Set.Ico_subset_Ico le_rfl (by omega)
  | some i =>
    have hend := Arena.array_le i.isLt
    have hle := Arena.block_le (Nat.zero_le i) i.isLt
    exact Set.Ico_subset_Ico (by omega) (by omega)

theorem Arena.disjoint_hole_iff (hlo : A.lo < lo) (hlt : lo < hi)
    (hblock : ∀ i < A.count, A.block i + A.size ≤ lo ∨ hi ≤ A.block i) :
    (∀ x, Disjoint (A.piece x) (Set.Ico lo hi)) ↔ A.lo + A.record * A.count ≤ lo := by
  constructor
  · intro h
    have harray := h none
    simp only [Arena.piece, TwoEnded.piece, Set.Ico_disjoint_Ico] at harray
    omega
  · intro h x
    cases x with
    | none =>
      simp only [Arena.piece, TwoEnded.piece, Set.Ico_disjoint_Ico]
      omega
    | some i =>
      have hout := hblock i i.isLt
      simp only [Arena.piece, TwoEnded.piece, Set.Ico_disjoint_Ico]
      omega

end Hios.TwoEnded
