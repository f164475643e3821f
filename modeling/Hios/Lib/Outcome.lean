/-! How a computation that may fail ends, as a condition on its value and one on
its error. -/
namespace Hios.Outcome
variable {ε α β σ : Type}

def Ends (E : ε → Prop) (Q : α → Prop) : Except ε α → Prop
  | .ok a => Q a
  | .error e => E e

abbrev Returns (Q : α → Prop) : Except ε α → Prop := Ends (fun _ => False) Q

abbrev IfReturns (Q : α → Prop) : Except ε α → Prop := Ends (fun _ => True) Q

instance (E : ε → Prop) (Q : α → Prop) [∀ e, Decidable (E e)] [∀ a, Decidable (Q a)] :
    ∀ x : Except ε α, Decidable (Ends E Q x)
  | .ok a => inferInstanceAs (Decidable (Q a))
  | .error e => inferInstanceAs (Decidable (E e))

theorem bind_eq_ok {x : Except ε α} {f : α → Except ε β} {b : β} :
    x >>= f = .ok b ↔ ∃ a, x = .ok a ∧ f a = .ok b := by
  constructor
  · intro h
    cases x with
    | ok a => exact ⟨a, rfl, h⟩
    | error e => cases h
  · rintro ⟨a, ha, h⟩
    rw [ha]
    exact h

theorem toOption_eq_some {x : Except ε α} {a : α} : x.toOption = some a ↔ x = .ok a := by
  cases x with
  | ok b => simp [Except.toOption]
  | error e => simp [Except.toOption]

variable {E : ε → Prop} {P Q : α → Prop}

theorem Ends.bind {R : β → Prop} {x : Except ε α} {f : α → Except ε β} (hx : Ends E Q x)
    (hf : ∀ a, Q a → Ends E R (f a)) : Ends E R (x >>= f) := by
  cases x with
  | ok a => exact hf a hx
  | error e => exact hx

theorem Ends.mono {x : Except ε α} (hx : Ends E P x) (h : ∀ a, P a → Q a) : Ends E Q x := by
  cases x with
  | ok a => exact h a hx
  | error e => exact hx

theorem Ends.map {R : β → Prop} {x : Except ε α} {f : α → β} (hx : Ends E (fun a => R (f a)) x) :
    Ends E R (x.map f) := by
  cases x with
  | ok a => exact hx
  | error e => exact hx

theorem Ends.weaken {F : ε → Prop} {x : Except ε α} (hx : Ends E P x) (h : ∀ e, E e → F e) :
    Ends F P x := by
  cases x with
  | ok a => exact hx
  | error e => exact h e hx

theorem Ends.foldlM {I : σ → Prop} {f : σ → α → Except ε σ} {l : List α} {s : σ} (hs : I s)
    (hf : ∀ s, ∀ a ∈ l, I s → Ends E I (f s a)) : Ends E I (l.foldlM f s) := by
  induction l generalizing s with
  | nil => exact hs
  | cons a l ih =>
    refine (hf s a List.mem_cons_self hs).bind fun t ht => ?_
    exact ih ht fun u b hb => hf u b (List.mem_cons_of_mem a hb)

theorem Returns.exists_ok {x : Except ε α} (hx : Returns Q x) : ∃ a, x = .ok a ∧ Q a := by
  cases x with
  | ok a => exact ⟨a, rfl, hx⟩
  | error e => exact hx.elim

theorem IfReturns.of_ok {x : Except ε α} {a : α} (hx : IfReturns Q x) (h : x = .ok a) : Q a := by
  subst h
  exact hx

theorem ifReturns_iff {x : Except ε α} : IfReturns Q x ↔ ∀ a, x = .ok a → Q a := by
  refine ⟨fun hx a h => hx.of_ok h, fun h => ?_⟩
  cases x with
  | ok a => exact h a rfl
  | error e => trivial

end Hios.Outcome
