import Mathlib.Algebra.BigOperators.Group.List.Defs
import Mathlib.Algebra.Ring.Int.Defs

/-! Runs of a partial step function. A label that is not enabled has no
successor; so has a step whose code panics, which ends the run. -/
namespace Hios.Run
variable {σ α : Type*} {step : σ → α → Option σ}

def run (step : σ → α → Option σ) : σ → List α → Option σ
  | s, [] => some s
  | s, a :: as => (step s a).bind fun t => run step t as

def Always (step : σ → α → Option σ) (P : σ → Prop) : σ → List α → Prop
  | s, [] => P s
  | s, a :: as => P s ∧ ∀ t, step s a = some t → Always step P t as

def StepsMeet (step : σ → α → Option σ) (C : σ → α → Prop) : σ → List α → Prop
  | _, [] => True
  | s, a :: as => ∀ t, step s a = some t → C s a ∧ StepsMeet step C t as

instance instDecidableStepsMeet {step : σ → α → Option σ} {C : σ → α → Prop}
    [∀ s a, Decidable (C s a)] :
    ∀ (as : List α) (s : σ), Decidable (StepsMeet step C s as)
  | [], _ => .isTrue trivial
  | a :: as, s =>
    have (t : σ) : Decidable (StepsMeet step C t as) := instDecidableStepsMeet as t
    inferInstanceAs (Decidable (∀ t ∈ step s a, C s a ∧ StepsMeet step C t as))

theorem run_cons_some {s t : σ} {a : α} {as : List α} :
    run step s (a :: as) = some t ↔ ∃ u, step s a = some u ∧ run step u as = some t := by
  simp [run, Option.bind_eq_some_iff]

theorem run_append (as bs : List α) (s : σ) :
    run step s (as ++ bs) = (run step s as).bind fun t => run step t bs := by
  induction as generalizing s with
  | nil => rfl
  | cons a as ih =>
    cases h : step s a with
    | none => simp [run, h]
    | some t => simpa [run, h] using ih t

/-- A run leads from `t` to a state with `P`. -/
def Comes (step : σ → α → Option σ) (P : σ → Prop) (t : σ) : Prop :=
  ∃ as t', run step t as = some t' ∧ P t'

section
variable {P Q : σ → Prop} {t t' : σ}

theorem Comes.refl (h : P t) : Comes step P t := ⟨[], t, rfl, h⟩

theorem Comes.trans (h : Comes step P t) (hnext : ∀ t', P t' → Comes step Q t') :
    Comes step Q t := by
  obtain ⟨as, t', has, ht'⟩ := h
  obtain ⟨bs, u, hbs, hu⟩ := hnext t' ht'
  exact ⟨as ++ bs, u, by rw [run_append, has, Option.bind_some, hbs], hu⟩

theorem Comes.next (a : α) (t' : σ) (hstep : step t a = some t') (h : Comes step P t') :
    Comes step P t := by
  obtain ⟨as, u, has, hu⟩ := h
  exact ⟨a :: as, u, run_cons_some.mpr ⟨t', hstep, has⟩, hu⟩

end

theorem run_inv {P : σ → Prop} (hstep : ∀ s a t, P s → step s a = some t → P t)
    {as : List α} {s t : σ} (hs : P s) (h : run step s as = some t) : P t := by
  induction as generalizing s with
  | nil =>
    obtain rfl : s = t := by simpa [run] using h
    exact hs
  | cons a as ih =>
    obtain ⟨u, hu, ht⟩ := run_cons_some.mp h
    exact ih (hstep s a u hs hu) ht

/-- If a step keeps `P` exactly when it meets `C`, a run keeps `P` exactly when
all its steps meet `C`. -/
theorem always_iff_stepsMeet {P : σ → Prop} {C : σ → α → Prop}
    (h : ∀ s a t, P s → step s a = some t → (P t ↔ C s a))
    (as : List α) {s : σ} (hs : P s) :
    Always step P s as ↔ StepsMeet step C s as := by
  induction as generalizing s with
  | nil => simp [Always, StepsMeet, hs]
  | cons a as ih =>
    simp only [Always, StepsMeet, hs, true_and]
    refine forall₂_congr fun t ht => ?_
    by_cases hc : C s a
    · simpa [hc] using ih ((h s a t hs ht).mpr hc)
    · have hp : ¬ P t := fun hp => hc ((h s a t hs ht).mp hp)
      cases as <;> simp [Always, hc, hp]

theorem always_iff_stepsMeet_of_inv {I P : σ → Prop} {C : σ → α → Prop}
    (hI : ∀ s a t, I s → step s a = some t → I t)
    (h : ∀ s a t, I s → P s → step s a = some t → (P t ↔ C s a))
    (as : List α) {s : σ} (hi : I s) (hs : P s) :
    Always step P s as ↔ StepsMeet step C s as := by
  induction as generalizing s with
  | nil => simp [Always, StepsMeet, hs]
  | cons a as ih =>
    simp only [Always, StepsMeet, hs, true_and]
    refine forall₂_congr fun t ht => ?_
    by_cases hc : C s a
    · simpa [hc] using ih (hI s a t hi ht) ((h s a t hi hs ht).mpr hc)
    · have hp : ¬ P t := fun hp => hc ((h s a t hi hs ht).mp hp)
      cases as <;> simp [Always, hc, hp]

theorem run_inv_of_stepsMeet {I : σ → Prop} {C : σ → α → Prop}
    (hI : ∀ s a t, I s → C s a → step s a = some t → I t) {as : List α} {s t : σ} (hs : I s)
    (hC : StepsMeet step C s as) (h : run step s as = some t) : I t := by
  induction as generalizing s with
  | nil =>
    obtain rfl : s = t := by simpa [run] using h
    exact hs
  | cons a as ih =>
    obtain ⟨u, hu, ht⟩ := run_cons_some.mp h
    obtain ⟨hc, hC⟩ := hC u hu
    exact ih (hI s a u hs hc hu) hC ht

theorem always_of_stepsMeet {I : σ → Prop} {C : σ → α → Prop}
    (hI : ∀ s a t, I s → C s a → step s a = some t → I t)
    {as : List α} {s : σ} (hs : I s) (hC : StepsMeet step C s as) : Always step I s as := by
  induction as generalizing s with
  | nil => exact hs
  | cons a as ih =>
    refine ⟨hs, fun t ht => ?_⟩
    obtain ⟨hc, hC⟩ := hC t ht
    exact ih (hI s a t hs hc ht) hC

theorem stepsMeet_of_stepsMeet {I : σ → Prop} {C D : σ → α → Prop}
    (hI : ∀ s a t, I s → C s a → step s a = some t → D s a ∧ I t)
    {as : List α} {s : σ} (hs : I s) (hC : StepsMeet step C s as) : StepsMeet step D s as := by
  induction as generalizing s with
  | nil => trivial
  | cons a as ih =>
    intro t ht
    obtain ⟨hc, hC⟩ := hC t ht
    obtain ⟨hd, hi⟩ := hI s a t hs hc ht
    exact ⟨hd, ih hi hC⟩

theorem always_of_inv {I : σ → Prop} (hI : ∀ s a t, I s → step s a = some t → I t) {as : List α}
    {s : σ} (hs : I s) :
    Always step I s as := by
  induction as generalizing s with
  | nil => exact hs
  | cons a as ih => exact ⟨hs, fun t ht => ih (hI s a t hs ht)⟩

theorem stepsMeet_append {C : σ → α → Prop} {as bs : List α} {s t : σ}
    (h : StepsMeet step C s (as ++ bs)) (hrun : run step s as = some t) :
    StepsMeet step C s as ∧ StepsMeet step C t bs := by
  induction as generalizing s with
  | nil =>
    obtain rfl : s = t := by simpa [run] using hrun
    exact ⟨trivial, h⟩
  | cons a as ih =>
    obtain ⟨u, hu, ht⟩ := run_cons_some.mp hrun
    refine ⟨fun v hv => ?_, (ih (h u hu).2 ht).2⟩
    obtain rfl := Option.some.inj (hu.symm.trans hv)
    exact ⟨(h u hu).1, (ih (h u hu).2 ht).1⟩

theorem Always.mono {P Q : σ → Prop} (h : ∀ s, P s → Q s) {as : List α} {s : σ}
    (hs : Always step P s as) :
    Always step Q s as := by
  induction as generalizing s with
  | nil => exact h s hs
  | cons a as ih => exact ⟨h s hs.1, fun t ht => ih (hs.2 t ht)⟩

theorem Always.and {P Q : σ → Prop} {as : List α} {s : σ} (hP : Always step P s as)
    (hQ : Always step Q s as) :
    Always step (fun s => P s ∧ Q s) s as := by
  induction as generalizing s with
  | nil => exact ⟨hP, hQ⟩
  | cons a as ih => exact ⟨⟨hP.1, hQ.1⟩, fun t ht => ih (hP.2 t ht) (hQ.2 t ht)⟩

/-- A step's `cost` is paid by what the potential loses, or by the step's `gain`. -/
theorem run_cost {I : σ → Prop} {Φ : σ → Int} {cost gain : α → Int}
    (hstep : ∀ s a t, I s → I t → step s a = some t → Φ t + cost a ≤ Φ s + gain a) {as : List α}
    {s t : σ} (hI : Always step I s as) (h : run step s as = some t) :
    Φ t + (as.map cost).sum ≤ Φ s + (as.map gain).sum := by
  induction as generalizing s with
  | nil =>
    obtain rfl : s = t := by simpa [run] using h
    exact Int.le_refl _
  | cons a as ih =>
    obtain ⟨v, hv, ht⟩ := run_cons_some.mp h
    have hrest := ih (hI.2 v hv) ht
    have hv' : I v := by
      cases as with
      | nil => exact hI.2 v hv
      | cons b bs => exact (hI.2 v hv).1
    have hone := hstep s a v hI.1 hv' hv
    simp only [List.map_cons, List.sum_cons]
    omega

def Serves (step : σ → α → Option σ) (C : σ → α → Prop) (P : σ → Prop) : σ → List α → Prop
  | s, [] => P s
  | s, a :: as => P s ∧ (C s a → ∃ t, step s a = some t ∧ Serves step C P t as)

theorem serves_of_inv {I P : σ → Prop} {C : σ → α → Prop}
    (hI : ∀ s a, I s → C s a → ∃ t, step s a = some t ∧ I t) (hP : ∀ s, I s → P s) {s : σ}
    (hs : I s) (as : List α) : Serves step C P s as := by
  induction as generalizing s with
  | nil => exact hP s hs
  | cons a as ih =>
    refine ⟨hP s hs, fun hc => ?_⟩
    obtain ⟨t, ht, hit⟩ := hI s a hs hc
    exact ⟨t, ht, ih hit⟩

section Trace
variable {τ ε : Type*} {estep : σ → α → Option (Option ε × σ)}

def trace (estep : σ → α → Option (Option ε × σ)) : σ → List α → Option (List ε × σ)
  | s, [] => some ([], s)
  | s, a :: as => (estep s a).bind fun r => (trace estep r.2 as).map fun r' =>
    (r.1.toList ++ r'.1, r'.2)

theorem trace_cons_some {s t : σ} {a : α} {as : List α} {es : List ε} :
    trace estep s (a :: as) = some (es, t) ↔
      ∃ e u es', estep s a = some (e, u) ∧ trace estep u as = some (es', t) ∧
      es = e.toList ++ es' := by
  simp only [trace, Option.bind_eq_some_iff, Option.map_eq_some_iff, Prod.exists, Prod.mk.injEq]
  constructor
  · rintro ⟨e, u, hu, es', t', ht, hes, htt⟩
    exact ⟨e, u, es', hu, htt ▸ ht, hes.symm⟩
  · rintro ⟨e, u, es', hu, ht, hes⟩
    exact ⟨e, u, hu, es', t, ht, hes.symm, rfl⟩

theorem trace_inv_on {P : σ → Prop} {L : α → Prop}
    (hstep : ∀ s a e t, L a → P s → estep s a = some (e, t) → P t) {as : List α} {es : List ε}
    {s t : σ} (hL : ∀ a ∈ as, L a) (hs : P s) (h : trace estep s as = some (es, t)) : P t := by
  induction as generalizing s es with
  | nil =>
    obtain ⟨-, rfl⟩ : [] = es ∧ s = t := by simpa [trace] using h
    exact hs
  | cons a as ih =>
    obtain ⟨e, u, es', hu, ht, -⟩ := trace_cons_some.mp h
    exact ih (fun b hb => hL b (List.mem_cons_of_mem a hb))
      (hstep s a e u (hL a List.mem_cons_self) hs hu) ht

theorem trace_inv {P : σ → Prop} (hstep : ∀ s a e t, P s → estep s a = some (e, t) → P t)
    {as : List α} {es : List ε} {s t : σ} (hs : P s) (h : trace estep s as = some (es, t)) : P t :=
  trace_inv_on (L := fun _ => True) (fun s a e t _ => hstep s a e t) (fun _ _ => trivial) hs h

/-- Forward simulation: a step without an event is a stutter of the abstract
machine, which accepts the events of every run whose labels are of a given kind. -/
theorem trace_refines_on {spec : τ → ε → Option τ} {R : σ → τ → Prop} {L : α → Prop}
    (hstep : ∀ s a e t u, L a → R s u → estep s a = some (e, t) →
      ∃ u', run spec u e.toList = some u' ∧ R t u')
    {as : List α} {es : List ε} {s t : σ} {u : τ} (hL : ∀ a ∈ as, L a) (hs : R s u)
    (h : trace estep s as = some (es, t)) : ∃ u', run spec u es = some u' ∧ R t u' := by
  induction as generalizing s es u with
  | nil =>
    obtain ⟨rfl, rfl⟩ : [] = es ∧ s = t := by simpa [trace] using h
    exact ⟨u, rfl, hs⟩
  | cons a as ih =>
    obtain ⟨e, v, es', hv, ht, rfl⟩ := trace_cons_some.mp h
    obtain ⟨u₁, hu₁, hR⟩ := hstep s a e v u (hL a List.mem_cons_self) hs hv
    obtain ⟨u', hu', hR'⟩ := ih (fun b hb => hL b (List.mem_cons_of_mem a hb)) hR ht
    exact ⟨u', by rw [run_append, hu₁]; exact hu', hR'⟩

theorem trace_refines {spec : τ → ε → Option τ} {R : σ → τ → Prop}
    (hstep : ∀ s a e t u, R s u → estep s a = some (e, t) → ∃ u', run spec u e.toList = some u' ∧
      R t u')
    {as : List α} {es : List ε} {s t : σ} {u : τ} (hs : R s u)
    (h : trace estep s as = some (es, t)) :
    ∃ u', run spec u es = some u' ∧ R t u' :=
  trace_refines_on (L := fun _ => True) (fun s a e t u _ => hstep s a e t u)
    (fun _ _ => trivial) hs h

/-- A machine that answers as another one does, step by step, answers so in a whole run. -/
theorem trace_follows {fstep : τ → α → Option (Option ε × τ)} {R : σ → τ → Prop}
    (hstep : ∀ s u a e u', R s u → fstep u a = some (e, u') → ∃ t, estep s a = some (e, t) ∧ R t u')
    {as : List α} {es : List ε} {s : σ} {u u' : τ} (hs : R s u)
    (h : trace fstep u as = some (es, u')) :
    ∃ t, trace estep s as = some (es, t) ∧ R t u' := by
  induction as generalizing s es u with
  | nil =>
    obtain ⟨rfl, rfl⟩ : [] = es ∧ u = u' := by simpa [trace] using h
    exact ⟨s, rfl, hs⟩
  | cons a as ih =>
    obtain ⟨e, v, es', hv, ht, rfl⟩ := trace_cons_some.mp h
    obtain ⟨t, hst, hR⟩ := hstep s u a e v hs hv
    obtain ⟨t', ht', hR'⟩ := ih hR ht
    exact ⟨t', trace_cons_some.mpr ⟨e, t, es', hst, ht', rfl⟩, hR'⟩

end Trace

end Hios.Run
