import Mathlib.Logic.Function.Basic

/-! Locks with one owner each: every locked object is held by exactly one of its
possible owners, an owner holds at most one object. -/
namespace Hios.Ownership
variable {ο β : Type*}

structure Exclusive (holds : ο → Option β) (locked : β → Prop) : Prop where
  held : ∀ b, locked b ↔ ∃ o, holds o = some b
  unique : ∀ o o' b, holds o = some b → holds o' = some b → o = o'

variable {holds holds' : ο → Option β} {locked locked' : β → Prop} {o o' : ο} {b : β}

theorem Exclusive.congr (h : Exclusive holds locked) (hh : ∀ o, holds' o = holds o)
    (hl : ∀ b, locked' b ↔ locked b) : Exclusive holds' locked' := by
  obtain rfl : holds' = holds := funext hh
  exact ⟨fun b => (hl b).trans (h.held b), h.unique⟩

theorem Exclusive.locked_of (h : Exclusive holds locked) (ho : holds o = some b) : locked b :=
  (h.held b).mpr ⟨o, ho⟩

theorem Exclusive.empty (hh : ∀ o, holds o = none) (hl : ∀ b, ¬ locked b) :
    Exclusive holds locked := by
  refine ⟨fun b => ⟨fun hb => absurd hb (hl b), fun ⟨o, ho⟩ => ?_⟩, fun o _ b ho => ?_⟩
  · rw [hh o] at ho
    cases ho
  · rw [hh o] at ho
    cases ho

theorem Exclusive.acquire (h : Exclusive holds locked) (hfree : ¬ locked b) (ho : holds o = none)
    (hself : holds' o = some b) (hothers : ∀ p, p ≠ o → holds' p = holds p)
    (hl : ∀ x, locked' x ↔ x = b ∨ locked x) : Exclusive holds' locked' := by
  have hcases : ∀ p x, holds' p = some x → p = o ∧ x = b ∨ holds p = some x ∧ x ≠ b := by
    intro p x hp
    by_cases hpo : p = o
    · rw [hpo, hself] at hp
      exact .inl ⟨hpo, (Option.some.inj hp).symm⟩
    · rw [hothers p hpo] at hp
      exact .inr ⟨hp, fun e => hfree (e ▸ h.locked_of hp)⟩
  refine ⟨fun x => (hl x).trans ⟨fun hx => ?_, fun ⟨p, hp⟩ => ?_⟩, fun p q x hp hq => ?_⟩
  · cases hx with
    | inl e => exact ⟨o, e ▸ hself⟩
    | inr hx =>
      obtain ⟨p, hp⟩ := (h.held x).mp hx
      have hpo : p ≠ o := fun e => by simp [e, ho] at hp
      exact ⟨p, (hothers p hpo).trans hp⟩
  · cases hcases p x hp with
    | inl e => exact .inl e.2
    | inr e => exact .inr (h.locked_of e.1)
  · cases hcases p x hp with
    | inl e =>
      cases hcases q x hq with
      | inl e' => exact e.1.trans e'.1.symm
      | inr e' => exact absurd e.2 e'.2
    | inr e =>
      cases hcases q x hq with
      | inl e' => exact absurd e'.2 e.2
      | inr e' => exact h.unique p q x e.1 e'.1

theorem Exclusive.release (h : Exclusive holds locked) (ho : holds o = some b)
    (hself : holds' o = none) (hothers : ∀ p, p ≠ o → holds' p = holds p)
    (hl : ∀ x, locked' x ↔ x ≠ b ∧ locked x) : Exclusive holds' locked' := by
  have hcases : ∀ p x, holds' p = some x → p ≠ o ∧ holds p = some x := by
    intro p x hp
    have hpo : p ≠ o := fun e => by simp [e, hself] at hp
    exact ⟨hpo, (hothers p hpo).symm.trans hp⟩
  refine ⟨fun x => (hl x).trans ⟨fun ⟨hne, hx⟩ => ?_, fun ⟨p, hp⟩ => ?_⟩, fun p q x hp hq => ?_⟩
  · obtain ⟨p, hp⟩ := (h.held x).mp hx
    have hpo : p ≠ o := fun e => hne (by rw [e, ho] at hp; exact (Option.some.inj hp).symm)
    exact ⟨p, (hothers p hpo).trans hp⟩
  · obtain ⟨hpo, hp⟩ := hcases p x hp
    exact ⟨fun e => hpo (h.unique p o b (e ▸ hp) ho), h.locked_of hp⟩
  · exact h.unique p q x (hcases p x hp).2 (hcases q x hq).2

theorem Exclusive.transfer (h : Exclusive holds locked) (ho : holds o = some b)
    (ho' : holds o' = none) (hself : holds' o = none) (hgot : holds' o' = some b)
    (hothers : ∀ p, p ≠ o → p ≠ o' → holds' p = holds p) (hl : ∀ x, locked' x ↔ locked x) :
    Exclusive holds' locked' := by
  have hne : o ≠ o' := fun e => by simp [e, ho'] at ho
  have hcases : ∀ p x, holds' p = some x → p = o' ∧ x = b ∨ p ≠ o ∧ p ≠ o' ∧ holds p = some x := by
    intro p x hp
    have hpo : p ≠ o := fun e => by simp [e, hself] at hp
    by_cases hpo' : p = o'
    · rw [hpo', hgot] at hp
      exact .inl ⟨hpo', (Option.some.inj hp).symm⟩
    · exact .inr ⟨hpo, hpo', (hothers p hpo hpo').symm.trans hp⟩
  refine ⟨fun x => (hl x).trans ⟨fun hx => ?_, fun ⟨p, hp⟩ => ?_⟩, fun p q x hp hq => ?_⟩
  · obtain ⟨p, hp⟩ := (h.held x).mp hx
    by_cases hpo : p = o
    · rw [hpo, ho] at hp
      exact ⟨o', hgot.trans hp⟩
    · have hpo' : p ≠ o' := fun e => by simp [e, ho'] at hp
      exact ⟨p, (hothers p hpo hpo').trans hp⟩
  · cases hcases p x hp with
    | inl e => exact e.2 ▸ h.locked_of ho
    | inr e => exact h.locked_of e.2.2
  · cases hcases p x hp with
    | inl e =>
      cases hcases q x hq with
      | inl e' => exact e.1.trans e'.1.symm
      | inr e' => exact absurd (h.unique q o b (e.2 ▸ e'.2.2) ho) e'.1
    | inr e =>
      cases hcases q x hq with
      | inl e' => exact absurd (h.unique p o b (e'.2 ▸ e.2.2) ho) e.1
      | inr e' => exact h.unique p q x e.2.2 e'.2.2

end Hios.Ownership
