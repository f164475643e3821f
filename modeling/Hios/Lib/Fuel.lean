import Mathlib.Order.Lattice
import Mathlib.Order.Nat

/-! Loops that run on fuel: with enough of it they end, and more changes nothing. -/
namespace Hios.Fuel
variable {α β : Type*}

def Ends (f : Nat → Option α) (a : α) : Prop := ∃ n, ∀ fuel, n ≤ fuel → f fuel = some a

theorem Ends.of_eq {f : Nat → Option α} {a : α} (h : ∀ fuel, f fuel = some a) : Ends f a :=
  ⟨0, fun fuel _ => h fuel⟩

theorem Ends.congr {f g : Nat → Option α} {a : α} (hf : Ends f a) (h : ∀ fuel, g fuel = f fuel) :
    Ends g a := by
  obtain ⟨n, hn⟩ := hf
  exact ⟨n, fun fuel hle => (h fuel).trans (hn fuel hle)⟩

theorem Ends.bind {f : Nat → Option α} {g : Nat → α → Option β} {a : α} {b : β} (hf : Ends f a)
    (hg : Ends (fun fuel => g fuel a) b) : Ends (fun fuel => (f fuel).bind (g fuel)) b := by
  obtain ⟨n, hn⟩ := hf
  obtain ⟨k, hk⟩ := hg
  refine ⟨max n k, fun fuel hle => ?_⟩
  have hfirst : f fuel = some a := hn fuel (le_trans (le_max_left n k) hle)
  simp only [hfirst, Option.bind_some]
  exact hk fuel (le_trans (le_max_right n k) hle)

theorem Ends.map {f : Nat → Option α} {g : α → β} {a : α} (hf : Ends f a) :
    Ends (fun fuel => (f fuel).map g) (g a) := by
  obtain ⟨n, hn⟩ := hf
  exact ⟨n, fun fuel hle => by simp only [hn fuel hle, Option.map_some]⟩

theorem Ends.turn {f g : Nat → Option α} {a : α} (hg : Ends g a)
    (h : ∀ fuel, f (fuel + 1) = g fuel) : Ends f a := by
  obtain ⟨n, hn⟩ := hg
  refine ⟨n + 1, fun fuel hle => ?_⟩
  obtain ⟨k, rfl⟩ : ∃ k, fuel = k + 1 := ⟨fuel - 1, by omega⟩
  rw [h]
  exact hn k (by omega)

theorem Ends.succ {f : Nat → Option α} {a : α} (hf : Ends f a) :
    Ends (fun fuel => f (fuel + 1)) a := by
  obtain ⟨n, hn⟩ := hf
  exact ⟨n, fun fuel hle => hn (fuel + 1) (by omega)⟩

end Hios.Fuel
