import Hios.Lib.Run
import Mathlib.Tactic.Choose
import Mathlib.Tactic.TypeStar

/-! Steps that leave things open: what comes about whatever is chosen. -/
namespace Hios.Silent
open Hios.Run
variable {σ α ε : Type*}

/-- Whatever is chosen, the steps from here are silent until one of the states of `K`. -/
inductive Inevitable (next : σ → α → Option (Option ε × σ)) (K : σ → Prop) : σ → Prop
  | here {s : σ} : K s → Inevitable next K s
  | step {s : σ} {t : α → σ} : (∀ a, next s a = some (none, t a)) → (∀ a, Inevitable next K (t a)) →
      Inevitable next K s

variable {next : σ → α → Option (Option ε × σ)} {K L : σ → Prop} {s t : σ}

theorem Inevitable.trans (h : Inevitable next K s) (hK : ∀ t, K t → Inevitable next L t) :
    Inevitable next L s := by
  induction h with
  | here hs => exact hK _ hs
  | step hnext _ ih => exact .step hnext ih

theorem Inevitable.mono (h : Inevitable next K s) (hK : ∀ t, K t → L t) : Inevitable next L s :=
  h.trans fun t ht => .here (hK t ht)

/-- A step that is taken starts at a state of `K`, or it is silent and a state of `K` is still to
come. -/
theorem Inevitable.taken (h : Inevitable next K s) {a : α} {e : Option ε}
    (ht : next s a = some (e, t)) :
    K s ∨ e = none ∧ Inevitable next K t := by
  cases h with
  | here hs => exact .inl hs
  | step hnext hthen =>
    obtain ⟨rfl, rfl⟩ := Prod.mk.inj (Option.some.inj ((hnext a).symm.trans ht))
    exact .inr ⟨rfl, hthen a⟩

end Hios.Silent
