import Mathlib

/-! The elevator's insertion rule over any linear order of keys: a list that
descends at most once goes on to do so. -/
namespace Hios.Elevator
variable {ι κ : Type*} [LinearOrder κ]

def Fits (key : ι → κ) (r x y : ι) : Prop :=
  (key x < key r ∨ ¬ key x < key y) ∧ key r < key y

instance (key : ι → κ) (r x y : ι) : Decidable (Fits key r x y) :=
  inferInstanceAs (Decidable (_ ∧ _))

/-- Insert behind the first node whose successor fits, else at the end. The
first node keeps its place. -/
def insertReq (key : ι → κ) (r : ι) : List ι → List ι
  | [] => [r]
  | [x] => [x, r]
  | x :: y :: l => if Fits key r x y then x :: r :: y :: l else x :: insertReq key r (y :: l)

def Ascending (key : ι → κ) (l : List ι) : Prop := l.Pairwise fun x y => key x < key y

def TwoRuns (key : ι → κ) (l : List ι) : Prop :=
  ∃ a b, l = a ++ b ∧ Ascending key a ∧ Ascending key b

theorem insert_perm (key : ι → κ) (r : ι) (l : List ι) : (insertReq key r l).Perm (r :: l) := by
  induction l using insertReq.induct key r with
  | case1 => simp [insertReq]
  | case2 x => simpa [insertReq] using List.Perm.swap r x []
  | case3 x y l h => simpa [insertReq, h] using List.Perm.swap r x (y :: l)
  | case4 x y l h ih =>
    rw [insertReq, if_neg h]
    exact (ih.cons x).trans (.swap r x (y :: l))

theorem mem_insertReq {key : ι → κ} {r x : ι} {l : List ι} :
    x ∈ insertReq key r l ↔ x = r ∨ x ∈ l := by
  rw [(insert_perm key r l).mem_iff, List.mem_cons]

theorem nodup_insertReq (key : ι → κ) {r : ι} {l : List ι} (hr : r ∉ l) (hl : l.Nodup) :
    (insertReq key r l).Nodup :=
  (insert_perm key r l).nodup_iff.mpr (List.nodup_cons.mpr ⟨hr, hl⟩)

theorem insert_cons (key : ι → κ) (r x : ι) (l : List ι) :
    ∃ m, insertReq key r (x :: l) = x :: m := by
  cases l with
  | nil => exact ⟨_, rfl⟩
  | cons y l =>
    by_cases h : Fits key r x y
    · exact ⟨r :: y :: l, by rw [insertReq, if_pos h]⟩
    · exact ⟨insertReq key r (y :: l), by rw [insertReq, if_neg h]⟩

theorem ascending_cons {key : ι → κ} {x y : ι} {l : List ι} :
    Ascending key (x :: y :: l) ↔ key x < key y ∧ Ascending key (y :: l) := by
  simp only [Ascending, List.pairwise_cons, List.mem_cons, forall_eq_or_imp]
  constructor
  · rintro ⟨⟨hxy, -⟩, hyl, hl⟩
    exact ⟨hxy, hyl, hl⟩
  · rintro ⟨hxy, hyl, hl⟩
    exact ⟨⟨hxy, fun z hz => hxy.trans (hyl z hz)⟩, hyl, hl⟩

theorem Ascending.twoRuns {key : ι → κ} {l : List ι} (h : Ascending key l) : TwoRuns key l :=
  ⟨l, [], by simp, h, List.Pairwise.nil⟩

theorem TwoRuns.cons_ascending {key : ι → κ} {x : ι} {l : List ι} (h : Ascending key l) :
    TwoRuns key (x :: l) := ⟨[x], l, rfl, by simp [Ascending], h⟩

theorem TwoRuns.cons_lt {key : ι → κ} {x y : ι} {l : List ι} (hxy : key x < key y)
    (h : TwoRuns key (y :: l)) : TwoRuns key (x :: y :: l) := by
  obtain ⟨a, b, hl, ha, hb⟩ := h
  cases a with
  | nil =>
    obtain rfl : y :: l = b := by simpa using hl
    exact cons_ascending hb
  | cons z a =>
    obtain ⟨rfl, rfl⟩ : y = z ∧ l = a ++ b := by simpa using hl
    exact ⟨x :: y :: a, b, rfl, ascending_cons.mpr ⟨hxy, ha⟩, hb⟩

theorem TwoRuns.tail {key : ι → κ} {x : ι} {l : List ι} (h : TwoRuns key (x :: l)) :
    TwoRuns key l := by
  obtain ⟨a, b, hl, ha, hb⟩ := h
  cases a with
  | nil =>
    obtain rfl : x :: l = b := by simpa using hl
    exact Ascending.twoRuns (List.pairwise_cons.mp hb).2
  | cons z a =>
    obtain ⟨rfl, rfl⟩ : x = z ∧ l = a ++ b := by simpa using hl
    exact ⟨a, b, rfl, (List.pairwise_cons.mp ha).2, hb⟩

theorem TwoRuns.ascending_of_descent {key : ι → κ} {x y : ι} {l : List ι}
    (hxy : ¬ key x < key y) (h : TwoRuns key (x :: y :: l)) : Ascending key (y :: l) := by
  obtain ⟨a, b, hl, ha, hb⟩ := h
  match a with
  | [] =>
    obtain rfl : x :: y :: l = b := by simpa using hl
    exact absurd (ascending_cons.mp hb).1 hxy
  | [z] =>
    obtain ⟨-, rfl⟩ : x = z ∧ y :: l = b := by simpa using hl
    exact hb
  | z :: w :: a =>
    obtain ⟨rfl, rfl, -⟩ : x = z ∧ y = w ∧ l = a ++ b := by simpa using hl
    exact absurd (ascending_cons.mp ha).1 hxy

/-- The key of the first node may change, as long as it stays below a
successor it was below. -/
theorem TwoRuns.rekey_head {key key' : ι → κ} {x : ι} {l : List ι} (h : TwoRuns key (x :: l))
    (hl : ∀ y ∈ l, key' y = key y) (hx : ∀ y ∈ l, key x < key y → key' x < key y) :
    TwoRuns key' (x :: l) := by
  have congr : ∀ m : List ι, (∀ y ∈ m, y ∈ l) → Ascending key m → Ascending key' m := by
    intro m hm hasc
    refine hasc.imp_of_mem fun {a b} ha hb hab => ?_
    rwa [hl a (hm a ha), hl b (hm b hb)]
  obtain ⟨a, b, heq, ha, hb⟩ := h
  cases a with
  | nil =>
    obtain rfl : x :: l = b := by simpa using heq
    exact TwoRuns.cons_ascending (congr l (fun _ => id) (List.pairwise_cons.mp hb).2)
  | cons z a =>
    obtain ⟨rfl, rfl⟩ : x = z ∧ l = a ++ b := by simpa using heq
    refine ⟨x :: a, b, rfl, List.pairwise_cons.mpr ⟨fun y hy => ?_, ?_⟩, ?_⟩
    · have hya : y ∈ a ++ b := List.mem_append_left b hy
      rw [hl y hya]
      exact hx y hya ((List.pairwise_cons.mp ha).1 y hy)
    · exact congr a (fun y hy => List.mem_append_left b hy) (List.pairwise_cons.mp ha).2
    · exact congr b (fun y hy => List.mem_append_right a hy) hb

theorem TwoRuns.congr {key key' : ι → κ} {l : List ι} (h : TwoRuns key l)
    (hl : ∀ y ∈ l, key' y = key y) : TwoRuns key' l := by
  cases l with
  | nil => exact ⟨[], [], rfl, List.Pairwise.nil, List.Pairwise.nil⟩
  | cons x l =>
    have hx : key' x = key x := hl x List.mem_cons_self
    exact h.rekey_head (fun y hy => hl y (List.mem_cons_of_mem x hy)) fun y _ hxy => hx ▸ hxy

/-- Above the first key, an ascending list is an ordinary sorted insertion. -/
theorem Ascending.after_insert {key : ι → κ} {r x : ι} {l : List ι} (h : Ascending key (x :: l))
    (hr : key x < key r) (hne : ∀ y ∈ l, key y ≠ key r) :
    Ascending key (insertReq key r (x :: l)) := by
  induction l generalizing x with
  | nil => simpa [insertReq, Ascending] using hr
  | cons y l ih =>
    obtain ⟨hxy, hl⟩ := ascending_cons.mp h
    by_cases hfit : Fits key r x y
    · rw [insertReq, if_pos hfit]
      exact ascending_cons.mpr ⟨hr, ascending_cons.mpr ⟨hfit.2, hl⟩⟩
    · have hyr : key y < key r := by
        have hle : key y ≤ key r := not_lt.mp fun hlt => hfit ⟨.inl hr, hlt⟩
        exact hle.lt_of_ne (hne y List.mem_cons_self)
      rw [insertReq, if_neg hfit]
      obtain ⟨m, hm⟩ := insert_cons key r y l
      have hrec := ih hl hyr fun z hz => hne z (List.mem_cons_of_mem y hz)
      rw [hm] at hrec ⊢
      exact ascending_cons.mpr ⟨hxy, hrec⟩

/-- The step of the argument: where the insertion can fall never makes a
second descent. -/
theorem TwoRuns.after_insert {key : ι → κ} {r : ι} {l : List ι} (h : TwoRuns key l)
    (hne : ∀ y ∈ l, key y ≠ key r) : TwoRuns key (insertReq key r l) := by
  induction l using insertReq.induct key r with
  | case1 => exact .cons_ascending List.Pairwise.nil
  | case2 x => exact .cons_ascending (by simp [Ascending])
  | case3 x y l hfit =>
    rw [insertReq, if_pos hfit]
    by_cases hxy : key x < key y
    · have hxr : key x < key r := hfit.1.resolve_right (not_not_intro hxy)
      exact .cons_lt hxr (.cons_lt hfit.2 h.tail)
    · exact .cons_ascending (ascending_cons.mpr ⟨hfit.2, h.ascending_of_descent hxy⟩)
  | case4 x y l hfit ih =>
    have htail : ∀ z ∈ y :: l, key z ≠ key r := fun z hz => hne z (List.mem_cons_of_mem x hz)
    rw [insertReq, if_neg hfit]
    by_cases hxy : key x < key y
    · obtain ⟨m, hm⟩ := insert_cons key r y l
      have hrec := ih h.tail htail
      rw [hm] at hrec ⊢
      exact .cons_lt hxy hrec
    · have hyr : key y < key r := by
        have hle : key y ≤ key r := not_lt.mp fun hlt => hfit ⟨.inr hxy, hlt⟩
        exact hle.lt_of_ne (htail y List.mem_cons_self)
      refine .cons_ascending ((h.ascending_of_descent hxy).after_insert hyr fun z hz => ?_)
      exact htail z (List.mem_cons_of_mem y hz)

def firstRun (key : ι → κ) : List ι → List ι
  | [] => []
  | [x] => [x]
  | x :: y :: l => if key x < key y then x :: firstRun key (y :: l) else [x]

theorem insert_above {key : ι → κ} {r x : ι} {l : List ι} (hr : key x < key r)
    (hne : ∀ y ∈ l, key y ≠ key r) :
    ∃ a b, l = a ++ b ∧ insertReq key r (x :: l) = x :: a ++ r :: b ∧ ∀ y ∈ a, key y < key r := by
  induction l generalizing x with
  | nil => exact ⟨[], [], rfl, rfl, by simp⟩
  | cons y l ih =>
    by_cases hfit : Fits key r x y
    · exact ⟨[], y :: l, rfl, by simp [insertReq, hfit], by simp⟩
    · have hyr : key y < key r := by
        have hle : key y ≤ key r := not_lt.mp fun hlt => hfit ⟨.inl hr, hlt⟩
        exact hle.lt_of_ne (hne y List.mem_cons_self)
      obtain ⟨a, b, hl, hins, ha⟩ := ih hyr fun z hz => hne z (List.mem_cons_of_mem y hz)
      refine ⟨y :: a, b, by rw [hl, List.cons_append], ?_, ?_⟩
      · rw [insertReq, if_neg hfit, hins]
        rfl
      · simpa using ⟨hyr, ha⟩

theorem insert_below {key : ι → κ} {r x : ι} {l : List ι} (hr : key r < key x)
    (hne : ∀ y ∈ l, key y ≠ key r) :
    ∃ a b, x :: l = firstRun key (x :: l) ++ (a ++ b) ∧
      insertReq key r (x :: l) = firstRun key (x :: l) ++ (a ++ r :: b) ∧
      ∀ y ∈ a, key y < key r := by
  induction l generalizing x with
  | nil => exact ⟨[], [], rfl, rfl, by simp⟩
  | cons y l ih =>
    by_cases hxy : key x < key y
    · have hfit : ¬ Fits key r x y := fun h => h.1.elim hr.asymm (· hxy)
      obtain ⟨a, b, hl, hins, ha⟩ := ih (hr.trans hxy) fun z hz => hne z (List.mem_cons_of_mem y hz)
      rw [firstRun, if_pos hxy, insertReq, if_neg hfit, hins]
      exact ⟨a, b, by rw [List.cons_append, ← hl], rfl, ha⟩
    · rw [firstRun, if_neg hxy]
      by_cases hry : key r < key y
      · exact ⟨[], y :: l, rfl, by simp [insertReq, Fits, hxy, hry], by simp⟩
      · -- behind the descent the smaller keys are passed in order
        have hyr : key y < key r := (not_lt.mp hry).lt_of_ne (hne y List.mem_cons_self)
        have hfit : ¬ Fits key r x y := fun h => hry h.2
        obtain ⟨a, b, hl, hins, ha⟩ :=
          insert_above hyr fun z hz => hne z (List.mem_cons_of_mem y hz)
        refine ⟨y :: a, b, by rw [hl]; rfl, ?_, by simpa using ⟨hyr, ha⟩⟩
        rw [insertReq, if_neg hfit, hins]
        rfl

theorem firstRun_head (key : ι → κ) (x : ι) (l : List ι) :
    ∃ m, firstRun key (x :: l) = x :: m := by
  cases l with
  | nil => exact ⟨[], rfl⟩
  | cons y l =>
    by_cases hxy : key x < key y
    · exact ⟨firstRun key (y :: l), by rw [firstRun, if_pos hxy]⟩
    · exact ⟨[], by rw [firstRun, if_neg hxy]⟩

end Hios.Elevator
