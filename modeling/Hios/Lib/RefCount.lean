import Mathlib.Algebra.BigOperators.Group.Finset.Basic
import Mathlib.Algebra.Order.BigOperators.Group.Finset
import Mathlib.Data.Fintype.BigOperators

/-! Reference counts: each object's count is the number of references that name
it, the ones still held in a program's hands included; some references are the
only one to their object. -/
namespace Hios.RefCount
variable {ι φ : Type*}

structure Refs (ι φ : Type*) where
  target : ι → Option φ
  sole : ι → Prop
  held : List φ
  count : φ → Nat

variable [Fintype ι] [DecidableEq φ]

def refs (target : ι → Option φ) (f : φ) : Nat := ∑ i, if target i = some f then 1 else 0

theorem refs_eq_zero {target : ι → Option φ} {f : φ} :
    refs target f = 0 ↔ ∀ i, target i ≠ some f := by
  simp [refs]

/-- References to one object that `g` tells apart are no more than `g` has values. -/
theorem refs_le_card {κ : Type*} [Fintype κ] {target : ι → Option φ} {f : φ} (g : ι → κ)
    (hg : ∀ i j, target i = some f → target j = some f → g i = g j → i = j) :
    refs target f ≤ Fintype.card κ := by
  classical
  have hcard : refs target f = (Finset.univ.filter fun i => target i = some f).card :=
    (Finset.card_filter _ _).symm
  rw [hcard, ← Finset.card_univ]
  refine Finset.card_le_card_of_injOn g (fun i _ => Finset.mem_univ (g i)) fun i hi j hj h => ?_
  simp only [Finset.coe_filter, Finset.mem_univ, true_and, Set.mem_ofPred_eq] at hi hj
  exact hg i j hi hj h

theorem refs_mono {t t' : ι → Option φ} {f : φ} (h : ∀ i, t i = some f → t' i = some f) :
    refs t f ≤ refs t' f := by
  refine Finset.sum_le_sum fun i _ => ?_
  by_cases hi : t i = some f
  · simp [hi, h i hi]
  · simp [hi]

theorem refs_le_add {t t₁ t₂ : ι → Option φ} {f : φ}
    (h : ∀ i, t i = some f → t₁ i = some f ∨ t₂ i = some f) :
    refs t f ≤ refs t₁ f + refs t₂ f := by
  rw [refs, refs, refs, ← Finset.sum_add_distrib]
  refine Finset.sum_le_sum fun i _ => ?_
  by_cases hi : t i = some f
  · cases h i hi with
    | inl h₁ => simp [hi, h₁]
    | inr h₂ => simp [hi, h₂]
  · simp [hi]

theorem refs_comp {κ : Type*} [Fintype κ] (e : κ ≃ ι) (t : ι → Option φ) (f : φ) :
    refs (fun k => t (e k)) f = refs t f :=
  Equiv.sum_comp e fun i => if t i = some f then 1 else 0

theorem refs_sum {κ : Type*} [Fintype κ] (target : ι ⊕ κ → Option φ) (f : φ) :
    refs target f = refs (fun i => target (.inl i)) f + refs (fun k => target (.inr k)) f := by
  simp only [refs, Fintype.sum_sum_type]

structure Refs.Valid (r : Refs ι φ) : Prop where
  exact : ∀ f, r.count f = refs r.target f + r.held.count f
  sole : ∀ i f, r.sole i → r.target i = some f → r.count f = 1

variable {r : Refs ι φ} {i j : ι} {f : φ}

theorem one_le_refs {target : ι → Option φ} (h : target i = some f) : 1 ≤ refs target f := by
  have hne : refs target f ≠ 0 := fun h0 => refs_eq_zero.mp h0 i h
  omega

theorem Refs.Valid.perm {held : List φ} (h : r.Valid) (hp : r.held.Perm held) :
    Refs.Valid { r with held := held } :=
  ⟨fun f => hp.count_eq f ▸ h.exact f, h.sole⟩

theorem Refs.Valid.count_pos (h : r.Valid) (hi : r.target i = some f) : r.count f ≠ 0 := by
  have hex := h.exact f
  have hone := one_le_refs hi
  omega

theorem Refs.Valid.not_held (h : r.Valid) (hf : r.count f = 1) (hi : r.target i = some f) :
    f ∉ r.held := by
  intro hheld
  have hex := h.exact f
  have hone := one_le_refs hi
  have hcount := List.count_pos_iff.mpr hheld
  omega

theorem Refs.Valid.take (h : r.Valid) (hf : r.count f = 0) :
    Refs.Valid { r with held := f :: r.held, count := Function.update r.count f 1 } := by
  have hex := h.exact f
  constructor
  · intro g
    by_cases hg : g = f
    · subst hg
      simp
      omega
    · simpa [hg, Ne.symm hg] using h.exact g
  · intro i g hs hi
    by_cases hg : g = f
    · simp [hg]
    · simpa [hg] using h.sole i g hs hi

theorem Refs.Valid.drop_pos {held : List φ} (h : r.Valid) (hh : r.held = f :: held) :
    r.count f ≠ 0 := by
  have hex := h.exact f
  simp [hh] at hex
  omega

theorem Refs.Valid.drop {held : List φ} (h : r.Valid) (hh : r.held = f :: held) :
    Refs.Valid { r with held := held, count := Function.update r.count f (r.count f - 1) } := by
  have hex := h.exact f
  constructor
  · intro g
    by_cases hg : g = f
    · subst hg
      simp [hh] at hex ⊢
      omega
    · simpa [hg, hh, Ne.symm hg] using h.exact g
  · intro i g hs hi
    by_cases hg : g = f
    · subst hg
      exact absurd (hh ▸ List.mem_cons_self) (h.not_held (h.sole i g hs hi) hi)
    · simpa [hg] using h.sole i g hs hi

theorem Refs.Valid.share (h : r.Valid) (hsole : ∀ i, r.sole i → r.target i ≠ some f) :
    Refs.Valid { r with held := f :: r.held, count := Function.update r.count f (r.count f + 1)
      } := by
  constructor
  · intro g
    have hex := h.exact g
    by_cases hg : g = f
    · subst hg
      simp
      omega
    · simpa [hg, Ne.symm hg] using hex
  · intro i g hs hi
    have hg : g ≠ f := fun e => hsole i hs (e ▸ hi)
    simpa [hg] using h.sole i g hs hi

/-- References may stop being the only one, and one that is may claim to be. -/
theorem Refs.Valid.resole {sole' : ι → Prop} (h : r.Valid)
    (hsole : ∀ i f, sole' i → r.target i = some f → r.sole i ∨ r.count f = 1) :
    Refs.Valid { r with sole := sole' } :=
  ⟨h.exact, fun i f hs hi => (hsole i f hs hi).elim (fun h' => h.sole i f h' hi) id⟩

variable [DecidableEq ι]

theorem refs_update (target : ι → Option φ) (i : ι) (o : Option φ) (f : φ) :
    refs (Function.update target i o) f + (if target i = some f then 1 else 0) =
      refs target f + (if o = some f then 1 else 0) := by
  have hrest : ∀ g : ι → Option φ, refs g f = (if g i = some f then 1 else 0) +
      ∑ j ∈ Finset.univ.erase i, if g j = some f then 1 else 0 := fun g =>
    (Finset.add_sum_erase _ _ (Finset.mem_univ i)).symm
  have hsame : (∑ j ∈ Finset.univ.erase i, if Function.update target i o j = some f then 1 else 0) =
      ∑ j ∈ Finset.univ.erase i, if target j = some f then 1 else 0 := by
    refine Finset.sum_congr rfl fun j hj => ?_
    rw [Function.update_of_ne (Finset.ne_of_mem_erase hj)]
  rw [hrest, hrest target, hsame, Function.update_self]
  omega

theorem refs_eq_one {target : ι → Option φ} (hi : target i = some f)
    (hall : ∀ j, target j = some f → j = i) : refs target f = 1 := by
  have hupd := refs_update target i none f
  have hzero : refs (Function.update target i none) f = 0 := by
    refine refs_eq_zero.mpr fun j hj => ?_
    by_cases hji : j = i
    · simp [hji] at hj
    · rw [Function.update_of_ne hji] at hj
      exact hji (hall j hj)
  simp only [hzero, hi, if_true, reduceCtorEq, if_false] at hupd
  omega

theorem Refs.Valid.unique (h : r.Valid) (hf : r.count f = 1) (hi : r.target i = some f)
    (hj : r.target j = some f) : j = i := by
  by_contra hne
  have hupd := refs_update r.target i none f
  have hj' : Function.update r.target i none j = some f := by rwa [Function.update_of_ne hne]
  have hone := one_le_refs hj'
  have hex := h.exact f
  simp [hi] at hupd
  omega

theorem Refs.Valid.point {held : List φ} (h : r.Valid) (sole' : ι → Prop) (hh : r.held = f :: held)
    (hi : r.target i = none) (hsole : ∀ j, j ≠ i → sole' j → r.sole j)
    (hnew : sole' i → r.count f = 1) :
    Refs.Valid ⟨Function.update r.target i (some f), sole', held, r.count⟩ := by
  constructor
  · intro g
    have hex := h.exact g
    have hupd := refs_update r.target i (some f) g
    rw [hh, List.count_cons] at hex
    by_cases hg : f = g
    · simp [hi, hg] at hupd hex ⊢
      omega
    · simp [hi, hg] at hupd hex ⊢
      omega
  · intro j g hs hj
    by_cases hji : j = i
    · subst hji
      obtain rfl : f = g := by simpa using hj
      exact hnew hs
    · exact h.sole j g (hsole j hji hs) (by simpa [hji] using hj)

theorem Refs.Valid.unpoint (h : r.Valid) (hi : r.target i = some f) :
    Refs.Valid { r with target := Function.update r.target i none, held := f :: r.held } := by
  constructor
  · intro g
    have hex := h.exact g
    have hupd := refs_update r.target i none g
    by_cases hg : f = g
    · simp [hi, hg] at hupd ⊢
      omega
    · simp [hi, hg] at hupd ⊢
      omega
  · intro j g hs hj
    by_cases hji : j = i
    · simp [hji] at hj
    · exact h.sole j g hs (by simpa [hji] using hj)

end Hios.RefCount
