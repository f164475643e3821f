import Mathlib.Algebra.BigOperators.Group.Finset.Basic
import Mathlib.Algebra.Order.BigOperators.Group.Finset
import Mathlib.Data.Fintype.BigOperators

/-! Reference counts where each holder has a list of the objects it refers to, with
repetitions: the count of an object is how often it stands in all the lists. -/
namespace Hios.Holdings
variable {κ φ : Type*} [Fintype κ] [DecidableEq φ]

def total (held : κ → List φ) (x : φ) : Nat := ∑ k, (held k).count x

theorem count_le_total (held : κ → List φ) (k : κ) (x : φ) : (held k).count x ≤ total held x :=
  Finset.single_le_sum (f := fun k => (held k).count x) (fun _ _ => Nat.zero_le _)
    (Finset.mem_univ k)

theorem total_le {held : κ → List φ} {n : Nat} (h : ∀ k, (held k).length ≤ n) (x : φ) :
    total held x ≤ Fintype.card κ * n := by
  have hle : total held x ≤ ∑ _k : κ, n :=
    Finset.sum_le_sum fun k _ => List.count_le_length.trans (h k)
  simpa using hle

variable [DecidableEq κ]

theorem total_eq_add (held : κ → List φ) (k : κ) (x : φ) :
    total held x = (held k).count x + ∑ j ∈ Finset.univ.erase k, (held j).count x :=
  (Finset.add_sum_erase _ _ (Finset.mem_univ k)).symm

theorem total_update (held : κ → List φ) (k : κ) (l : List φ) (x : φ) :
    total (Function.update held k l) x + (held k).count x = total held x + l.count x := by
  have hrest : (∑ j ∈ Finset.univ.erase k, (Function.update held k l j).count x) =
      ∑ j ∈ Finset.univ.erase k, (held j).count x := by
    refine Finset.sum_congr rfl fun j hj => ?_
    rw [Function.update_of_ne (Finset.ne_of_mem_erase hj)]
  rw [total_eq_add _ k, total_eq_add held k, hrest, Function.update_self]
  omega

theorem count_add_count_le (held : κ → List φ) {k k' : κ} (h : k ≠ k') (x : φ) :
    (held k).count x + (held k').count x ≤ total held x := by
  have hupd := total_update held k [] x
  have hle := count_le_total (Function.update held k []) k' x
  rw [Function.update_of_ne (Ne.symm h)] at hle
  simp only [List.count_nil] at hupd
  omega

theorem sole_holder {held : κ → List φ} {k k' : κ} {x : φ} (h : total held x ≤ 1)
    (hk : x ∈ held k) (hk' : x ∈ held k') :
    k = k' := by
  by_contra hne
  have hle := count_add_count_le held hne x
  have hpos := List.count_pos_iff.mpr hk
  have hpos' := List.count_pos_iff.mpr hk'
  omega

end Hios.Holdings
