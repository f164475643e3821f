import Mathlib.Logic.Function.Basic

/-! Processes as a family: numbers, fathers and which of them have exited, with the
root process and the one that adopts orphans. -/
namespace Hios.Kernel

structure Kin where
  pid : Int
  father : Int
  zombie : Bool
  deriving DecidableEq

abbrev Family (ι : Type) := ι → Option Kin

variable {ι : Type} [DecidableEq ι] {rootSlot initSlot : ι} {F : Family ι}

def Kin.adopt (pid newFather : Int) (k : Kin) : Kin :=
  if k.father = pid then { k with father := newFather } else k

@[simp] theorem Kin.adopt_pid (pid newFather : Int) (k : Kin) :
    (k.adopt pid newFather).pid = k.pid := by
  unfold adopt
  split
  · rfl
  · rfl

@[simp] theorem Kin.adopt_zombie (pid newFather : Int) (k : Kin) :
    (k.adopt pid newFather).zombie = k.zombie := by
  unfold adopt
  split
  · rfl
  · rfl

def Family.spawn (F : Family ι) (t : ι) (pid father : Int) : Family ι :=
  Function.update F t (some ⟨pid, father, false⟩)

def Family.exit (F : Family ι) (t : ι) (pid : Int) : Family ι := fun s =>
  (F s).map fun k => if s = t then { k.adopt pid 1 with zombie := true } else k.adopt pid 1

def Family.reap (F : Family ι) (t : ι) : Family ι := Function.update F t none

def Family.Alive (F : Family ι) (pid : Int) (s : ι) : Prop :=
  ∃ k, F s = some k ∧ k.pid = pid ∧ k.zombie = false

/-- Numbers are distinct and positive but for the root's, every father lives, and
process 1 is the first to be created. -/
structure Family.Consistent (rootSlot initSlot : ι) (F : Family ι) : Prop where
  pid_inj : ∀ s t j k, F s = some j → F t = some k → j.pid = k.pid → s = t
  root : F.Alive 0 rootSlot
  pid_pos : ∀ t k, t ≠ rootSlot → F t = some k → 0 < k.pid
  init : ∀ k, F initSlot = some k → k.pid = 1 ∧ k.zombie = false ∧ k.father = 0
  first : F initSlot = none → ∀ t, t ≠ rootSlot → F t = none
  father : ∀ t k, t ≠ rootSlot → F t = some k → ∃ s, s ≠ t ∧ F.Alive k.father s

theorem Family.Consistent.spawn {t : ι} {pid father : Int} (h : F.Consistent rootSlot initSlot)
    (ht : t ≠ rootSlot) (hfree : F t = none) (hpid : 0 < pid)
    (hfresh : ∀ s k, F s = some k → k.pid ≠ pid) (hfather : ∃ s, F.Alive father s)
    (hfirst : F initSlot = none → t = initSlot ∧ pid = 1) :
    (F.spawn t pid father).Consistent rootSlot initSlot := by
  have hother : ∀ s k, (F.spawn t pid father) s = some k → s = t ∧ k = ⟨pid, father, false⟩ ∨
      F s = some k := by
    intro s k hk
    by_cases hs : s = t
    · rw [Family.spawn, hs, Function.update_self] at hk
      exact .inl ⟨hs, (Option.some.inj hk).symm⟩
    · rw [Family.spawn, Function.update_of_ne hs] at hk
      exact .inr hk
  have halive : ∀ s q, F.Alive q s → s ≠ t ∧ (F.spawn t pid father).Alive q s := by
    rintro s q ⟨k, hk, hq, hz⟩
    have hs : s ≠ t := fun e => by simp [e, hfree] at hk
    exact ⟨hs, k, by rw [Family.spawn, Function.update_of_ne hs, hk], hq, hz⟩
  obtain ⟨f, hf⟩ := hfather
  refine ⟨?_, (halive rootSlot 0 h.root).2, ?_, ?_, ?_, ?_⟩
  · intro s u j k hj hk he
    cases hother s j hj with
    | inl hs =>
      cases hother u k hk with
      | inl hu => exact hs.1.trans hu.1.symm
      | inr hu => exact absurd (he.symm.trans (by rw [hs.2])) (hfresh u k hu)
    | inr hs =>
      cases hother u k hk with
      | inl hu => exact absurd (he.trans (by rw [hu.2])) (hfresh s j hs)
      | inr hu => exact h.pid_inj s u j k hs hu he
  · intro s k hs hk
    cases hother s k hk with
    | inl he =>
      rw [he.2]
      exact hpid
    | inr he => exact h.pid_pos s k hs he
  · intro k hk
    cases hother initSlot k hk with
    | inl he =>
      obtain ⟨rfl, rfl⟩ := he
      have honly : f = rootSlot := by
        by_contra hne
        obtain ⟨j, hj, -⟩ := hf
        rw [h.first hfree f hne] at hj
        cases hj
      obtain ⟨j, hj, hjp, -⟩ := hf
      obtain ⟨k, hk, hkp, -⟩ := h.root
      rw [honly, hk] at hj
      rw [← Option.some.inj hj, hkp] at hjp
      exact ⟨(hfirst hfree).2, rfl, hjp.symm⟩
    | inr he => exact h.init k he
  · intro hinit s hs
    have hinit' : F initSlot = none := by
      by_cases he : initSlot = t
      · rw [Family.spawn, he, Function.update_self] at hinit
        cases hinit
      · rwa [Family.spawn, Function.update_of_ne he] at hinit
    rw [Family.spawn, (hfirst hinit').1, Function.update_self] at hinit
    cases hinit
  · intro s k hs hk
    cases hother s k hk with
    | inl he =>
      obtain ⟨rfl, rfl⟩ := he
      exact ⟨f, halive f father hf⟩
    | inr he =>
      obtain ⟨u, hu, ha⟩ := h.father s k hs he
      exact ⟨u, hu, (halive u k.father ha).2⟩

theorem Family.Consistent.exit {t : ι} {own : Kin} (h : F.Consistent rootSlot initSlot)
    (ht : t ≠ rootSlot) (hti : t ≠ initSlot) (hown : F t = some own) :
    (F.exit t own.pid).Consistent rootSlot initSlot := by
  have hpid : ∀ s k, F.exit t own.pid s = some k → ∃ j, F s = some j ∧ k.pid = j.pid ∧
      k.father = (j.adopt own.pid 1).father ∧ k.zombie = (j.zombie || decide (s = t)) := by
    intro s k hk
    obtain ⟨j, hj, hjk⟩ := Option.map_eq_some_iff.mp hk
    refine ⟨j, hj, ?_⟩
    by_cases hs : s = t
    · rw [if_pos hs] at hjk
      rw [← hjk]
      simp [hs]
    · rw [if_neg hs] at hjk
      rw [← hjk]
      simp [hs]
  have halive : ∀ s q, s ≠ t → F.Alive q s → (F.exit t own.pid).Alive q s := by
    rintro s q hs ⟨k, hk, hq, hz⟩
    refine ⟨k.adopt own.pid 1, ?_, ?_, ?_⟩
    · simp [Family.exit, hk, hs]
    · simpa using hq
    · simpa using hz
  obtain ⟨i, hi⟩ : ∃ i, F initSlot = some i := by
    cases hi : F initSlot with
    | none =>
      rw [h.first hi t ht] at hown
      cases hown
    | some i => exact ⟨i, rfl⟩
  have hinit := h.init i hi
  have hne_init : own.pid ≠ 1 :=
    fun e => hti (h.pid_inj t initSlot own i hown hi (e.trans hinit.1.symm))
  refine ⟨?_, halive rootSlot 0 (Ne.symm ht) h.root, ?_, ?_, ?_, ?_⟩
  · intro s u j k hj hk he
    obtain ⟨j', hj', hjp, -⟩ := hpid s j hj
    obtain ⟨k', hk', hkp, -⟩ := hpid u k hk
    exact h.pid_inj s u j' k' hj' hk' (hjp.symm.trans (he.trans hkp))
  · intro s k hs hk
    obtain ⟨k', hk', hkp, -⟩ := hpid s k hk
    rw [hkp]
    exact h.pid_pos s k' hs hk'
  · intro k hk
    obtain ⟨k', hk', hkp, hkf, hkz⟩ := hpid initSlot k hk
    obtain ⟨hp, hz, hf⟩ := h.init k' hk'
    have hzero : own.pid ≠ 0 := fun e => absurd (h.pid_pos t own ht hown) (by omega)
    refine ⟨hkp.trans hp, ?_, ?_⟩
    · simp [hkz, hz, Ne.symm hti]
    · rw [hkf, Kin.adopt, if_neg (by rw [hf]; exact Ne.symm hzero), hf]
  · intro hnone
    simp [Family.exit, hi] at hnone
  · intro s k hs hk
    obtain ⟨k', hk', hkp, hkf, -⟩ := hpid s k hk
    by_cases horphan : k'.father = own.pid
    · have hsi : s ≠ initSlot := by
        intro e
        rw [e, hi] at hk'
        rw [← Option.some.inj hk', hinit.2.2] at horphan
        exact absurd (h.pid_pos t own ht hown) (by omega)
      refine ⟨initSlot, Ne.symm hsi, ?_⟩
      rw [hkf, Kin.adopt, if_pos horphan]
      exact halive initSlot 1 (Ne.symm hti) ⟨i, hi, hinit.1, hinit.2.1⟩
    · obtain ⟨u, hu, j, hj, hjp, hjz⟩ := h.father s k' hs hk'
      have hut : u ≠ t := by
        intro e
        rw [e, hown] at hj
        exact horphan (by rw [← hjp, ← Option.some.inj hj])
      refine ⟨u, hu, ?_⟩
      rw [hkf, Kin.adopt, if_neg horphan]
      exact halive u k'.father hut ⟨j, hj, hjp, hjz⟩

theorem Family.Consistent.reap {t : ι} {own : Kin} (h : F.Consistent rootSlot initSlot)
    (ht : t ≠ rootSlot) (hown : F t = some own) (hz : own.zombie = true) :
    (F.reap t).Consistent rootSlot initSlot := by
  have hsub : ∀ s k, F.reap t s = some k → s ≠ t ∧ F s = some k := by
    intro s k hk
    by_cases hs : s = t
    · rw [Family.reap, hs, Function.update_self] at hk
      cases hk
    · rw [Family.reap, Function.update_of_ne hs] at hk
      exact ⟨hs, hk⟩
  have halive : ∀ s q, F.Alive q s → (F.reap t).Alive q s := by
    rintro s q ⟨k, hk, hq, hkz⟩
    have hs : s ≠ t := by
      intro e
      rw [e, hown] at hk
      rw [← Option.some.inj hk, hz] at hkz
      cases hkz
    exact ⟨k, by rw [Family.reap, Function.update_of_ne hs, hk], hq, hkz⟩
  have hti : t ≠ initSlot := by
    intro e
    rw [e] at hown
    rw [(h.init own hown).2.1] at hz
    cases hz
  refine ⟨?_, halive rootSlot 0 h.root, ?_, ?_, ?_, ?_⟩
  · intro s u j k hj hk he
    exact h.pid_inj s u j k (hsub s j hj).2 (hsub u k hk).2 he
  · intro s k hs hk
    exact h.pid_pos s k hs (hsub s k hk).2
  · intro k hk
    exact h.init k (hsub initSlot k hk).2
  · intro hnone s hs
    rw [Family.reap, Function.update_of_ne (Ne.symm hti)] at hnone
    rw [h.first hnone t ht] at hown
    cases hown
  · intro s k hs hk
    obtain ⟨u, hu, ha⟩ := h.father s k hs (hsub s k hk).2
    exact ⟨u, hu, halive u k.father ha⟩

end Hios.Kernel
