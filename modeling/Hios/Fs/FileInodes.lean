import Hios.Fs.FileTable

/-! The files of the file table that hold a reference to their inode: those in use
that no `sys_open` has only reserved. -/
namespace Hios.Fs
open Hios.RefCount
variable {ι : Type*}

def InodePtr.entries : InodePtr → List InodeIx
  | .entry i => [i]
  | _ => []

def OpenFiles.Reserved (s : OpenFiles ι) (f : Fin NR_FILE) : Prop :=
  ∃ p fd, s.opening p = some (fd, f)

instance [Fintype ι] (s : OpenFiles ι) (f : Fin NR_FILE) : Decidable (s.Reserved f) :=
  inferInstanceAs (Decidable (∃ p fd, s.opening p = some (fd, f)))

def fileInode [Fintype ι] (s : OpenFiles ι) (f : Fin NR_FILE) : List InodeIx :=
  if (s.file f).fCount = 0 ∨ s.Reserved f then [] else (s.file f).fInode.entries

theorem entries_length (p : InodePtr) : p.entries.length ≤ 1 := by
  cases p with
  | null => exact Nat.zero_le 1
  | wild => exact Nat.zero_le 1
  | entry i => exact Nat.le_refl 1

section
variable [Fintype ι] {s s' : OpenFiles ι} {f g : Fin NR_FILE} {p : ι} {ev : Option FileEvent}

theorem fileInode_length (s : OpenFiles ι) (f : Fin NR_FILE) : (fileInode s f).length ≤ 1 := by
  unfold fileInode
  split
  · exact Nat.zero_le 1
  · exact entries_length _

theorem fileInode_congr (hin : (s'.file g).fInode = (s.file g).fInode)
    (h : (s'.file g).fCount = 0 ∨ s'.Reserved g ↔ (s.file g).fCount = 0 ∨ s.Reserved g) :
    fileInode s' g = fileInode s g := by
  simp only [fileInode, hin, h]

theorem FilesCounted.count_eq_zero (h : FilesCounted s) :
    (s.file f).fCount = 0 ↔ ∀ x, pointsAt s x ≠ some f := by
  rw [h.count f, refs_eq_zero]

theorem fileInode_of_points (h : FilesCounted s) (h' : FilesCounted s')
    (hopen : s'.opening = s.opening) (hin : ∀ g, (s'.file g).fInode = (s.file g).fInode)
    (hpoint : ∀ g, (∃ x, pointsAt s' x = some g) ↔ ∃ x, pointsAt s x = some g) :
    fileInode s' = fileInode s := by
  funext g
  refine fileInode_congr (hin g) ?_
  have hpts := not_congr (hpoint g)
  simp only [not_exists] at hpts
  rw [h.count_eq_zero, h'.count_eq_zero]
  unfold OpenFiles.Reserved
  rw [hopen]
  exact or_congr_left hpts

variable [DecidableEq ι]

theorem setCount_fInode (table : FileTable) (f g : Fin NR_FILE) (n : Nat) :
    (setCount table f n g).fInode = (table g).fInode := by
  by_cases hg : g = f
  · simp [setCount, hg]
  · simp [setCount, hg]

theorem setCount_other (table : FileTable) {f g : Fin NR_FILE} (hg : g ≠ f) (n : Nat) :
    setCount table f n g = table g :=
  Function.update_of_ne hg ..

omit [Fintype ι] in
theorem opening_keep {d : Descriptors} {file : FileTable} (ho : s.opening p = none) :
    (s.put p d none file).opening = s.opening := by
  rw [put_opening, ← ho]
  exact Function.update_eq_self p s.opening

theorem forkFiles_fInode (d : Descriptors) (table : FileTable) (g : Fin NR_FILE) :
    (forkFiles d table g).fInode = (table g).fInode := by
  have hfold : ∀ (l : List (Fin NR_OPEN)) (table : FileTable),
      (l.foldl (fun table i => (d.filp i).elim table (incCount table)) table g).fInode =
        (table g).fInode := by
    intro l
    induction l with
    | nil => exact fun _ => rfl
    | cons i l ih =>
      intro table
      rw [List.foldl_cons, ih]
      cases d.filp i with
      | none => rfl
      | some f => exact setCount_fInode table f g _
  exact hfold _ table

theorem fileInode_openStart (h : FilesCounted s) (hst : fileStep s (.openStart p) = some (ev, s')) :
    fileInode s' = fileInode s := by
  obtain ⟨d, hd, hs⟩ := Option.map_eq_some_iff.mp hst
  obtain ⟨ho, hp⟩ := caller_some hd
  have h' := h.openStart ho hp
  obtain rfl := (Prod.mk.inj hs).2
  have hnone : ∀ d', d'.filp = d.filp → FilesCounted (s.put p d' none s.file) →
      fileInode (s.put p d' none s.file) = fileInode s := by
    intro d' hfilp h'
    refine fileInode_of_points h h' (opening_keep ho) (fun _ => rfl) fun g => ?_
    rw [pointsAt_same hp hfilp]
  simp only [openReserve] at h' ⊢
  cases hfd : lowestFd d 0 with
  | none =>
    simp only [hfd] at h' ⊢
    exact hnone d rfl h'
  | some fd =>
    cases hf : lowestFile s.file with
    | none =>
      simp only [hfd, hf] at h' ⊢
      exact hnone (d.keepOnExec fd) rfl h'
    | some f =>
      simp only
      funext g
      refine fileInode_congr (setCount_fInode ..) ?_
      by_cases hg : g = f
      · subst hg
        refine iff_of_true (.inr ⟨p, fd, ?_⟩) (.inl (lowestFile_free hf))
        rw [put_opening, Function.update_self]
      · refine or_congr ?_ ?_
        · rw [show (s.put p ((d.keepOnExec fd).set fd (some f)) (some (fd, f))
            (incCount s.file f)).file g = s.file g from
            setCount_other _ hg _]
        · constructor
          · rintro ⟨q, fd', hq⟩
            by_cases hqp : q = p
            · rw [hqp, put_opening, Function.update_self] at hq
              exact absurd (Prod.mk.inj (Option.some.inj hq)).2.symm hg
            · rw [put_opening, Function.update_of_ne hqp] at hq
              exact ⟨q, fd', hq⟩
          · rintro ⟨q, fd', hq⟩
            have hqp : q ≠ p := fun e => by
              rw [e, ho] at hq
              cases hq
            exact ⟨q, fd', by rwa [put_opening, Function.update_of_ne hqp]⟩

theorem FilesCounted.reserver (h : FilesCounted s) {q : ι} {fd fd' : Fin NR_OPEN}
    (hp : s.opening p = some (fd, f)) (hq : s.opening q = some (fd', f)) : q = p := by
  have hsame := h.valid.unique (h.sole hp) (h.reserved p fd f hp) (h.reserved q fd' f hq)
  exact (Prod.mk.inj hsame).1

/-- Where `sys_open` ends, its file is no longer reserved, and the others are as before. -/
theorem FilesCounted.reserved_end (h : FilesCounted s) {fd : Fin NR_OPEN}
    (ho : s.opening p = some (fd, f)) (d : Descriptors) (file : FileTable) (g : Fin NR_FILE) :
    (s.put p d none file).Reserved g ↔ s.Reserved g ∧ g ≠ f := by
  constructor
  · rintro ⟨q, fd', hq⟩
    have hqp : q ≠ p := fun e => by
      rw [e, put_opening, Function.update_self] at hq
      cases hq
    rw [put_opening, Function.update_of_ne hqp] at hq
    refine ⟨⟨q, fd', hq⟩, fun e => ?_⟩
    exact hqp (h.reserver ho (e ▸ hq))
  · rintro ⟨⟨q, fd', hq⟩, hg⟩
    have hqp : q ≠ p := fun e => by
      rw [e, ho] at hq
      exact hg (Prod.mk.inj (Option.some.inj hq)).2.symm
    exact ⟨q, fd', by rwa [put_opening, Function.update_of_ne hqp]⟩

theorem fileInode_failed (h : FilesCounted s)
    (hst : fileStep s (.openEnd p .failed) = some (ev, s')) :
    fileInode s' = fileInode s := by
  obtain ⟨d, hp, hs⟩ := Option.bind_eq_some_iff.mp hst
  obtain ⟨⟨fd, f⟩, ho, hs⟩ := Option.map_eq_some_iff.mp hs
  obtain rfl := (Prod.mk.inj hs).2
  funext g
  refine fileInode_congr (setCount_fInode ..) ?_
  by_cases hg : g = f
  · subst hg
    refine iff_of_true (.inl ?_) (.inr ⟨p, fd, ho⟩)
    simp [OpenFiles.put, setCount]
  · refine or_congr ?_ ?_
    · rw [show (s.put p (d.set fd none) none (setCount s.file f 0)).file g =
        s.file g from setCount_other _ hg _]
    · exact (h.reserved_end ho _ _ g).trans (and_iff_left hg)

theorem fileInode_opened (h : FilesCounted s) {i : InodeIx} {iMode flag : Nat} {fd : Fin NR_OPEN}
    (ho : s.opening p = some (fd, f))
    (hst : fileStep s (.openEnd p (.opened (.entry i) iMode flag)) = some (ev, s')) :
    fileInode s f = [] ∧ fileInode s' = Function.update (fileInode s) f [i] := by
  obtain ⟨d, hp, hs⟩ := Option.bind_eq_some_iff.mp hst
  obtain ⟨⟨fd', f'⟩, ho', hs⟩ := Option.map_eq_some_iff.mp hs
  obtain ⟨rfl, rfl⟩ := Prod.mk.inj (Option.some.inj (ho.symm.trans ho'))
  obtain rfl := (Prod.mk.inj hs).2
  refine ⟨if_pos (.inr ⟨p, fd, ho⟩), ?_⟩
  funext g
  by_cases hg : g = f
  · subst hg
    rw [Function.update_self, fileInode, if_neg]
    · simp [OpenFiles.put, InodePtr.entries]
    · intro hor
      cases hor with
      | inl hz => simp [OpenFiles.put] at hz
      | inr hres => exact ((h.reserved_end ho _ _ g).mp hres).2 rfl
  · rw [Function.update_of_ne hg]
    have hfile : (s.put p d none
      (Function.update s.file f ⟨iMode, flag % 65536, 1, .entry i, 0⟩)).file g = s.file g :=
      Function.update_of_ne hg ..
    refine fileInode_congr (by rw [hfile]) ?_
    rw [hfile]
    exact or_congr_right ((h.reserved_end ho _ _ g).trans (and_iff_left hg))

/-- `sys_close` of the last descriptor hands out the reference of the file. -/
theorem fileInode_close (h : FilesCounted s) {fd : Nat}
    (hst : fileStep s (.close p fd) = some (ev, s')) :
    (ev = none ∧ fileInode s' = fileInode s) ∨ ∃ f, ev = some (.iput f (s.file f).fInode) ∧
      fileInode s f = (s.file f).fInode.entries ∧
      fileInode s' = Function.update (fileInode s) f [] := by
  obtain ⟨d, hd, hs⟩ := Option.bind_eq_some_iff.mp hst
  obtain ⟨ho, hp⟩ := caller_some hd
  obtain ⟨r, hclose, hs⟩ := Option.map_eq_some_iff.mp hs
  cases h.sysClose hp fd with
  | inl hnone =>
    obtain ⟨d', n, hn, hfilp, -⟩ := hnone
    obtain rfl := Option.some.inj (hn.symm.trans hclose)
    obtain ⟨rfl, rfl⟩ := Prod.mk.inj hs
    refine .inl ⟨rfl, ?_⟩
    refine fileInode_of_points h (h.same ho hp hfilp) (opening_keep ho) (fun _ => rfl) fun g => ?_
    rw [pointsAt_same hp hfilp]
  | inr hsome =>
    obtain ⟨e, f, rfl, hf, hn⟩ := hsome
    obtain rfl := Option.some.inj (hn.symm.trans hclose)
    obtain ⟨rfl, rfl⟩ := Prod.mk.inj hs
    have hpoint : pointsAt s (p, e) = some f := by simp [pointsAt, hp, hf]
    have hfree : ¬ s.Reserved f := by
      rintro ⟨q, fd', hq⟩
      exact h.not_reserved ho hpoint q fd' hq
    have hpos : (s.file f).fCount ≠ 0 := fun hz => h.count_eq_zero.mp hz _ hpoint
    have hopen : (s.put p ((d.keepOnExec e.val).set e none) none
      (setCount s.file f ((s.file f).fCount - 1))).opening =
        s.opening := opening_keep ho
    have hres : ∀ g, (s.put p ((d.keepOnExec e.val).set e none) none
        (setCount s.file f ((s.file f).fCount - 1))).Reserved g ↔ s.Reserved g := by
      intro g
      unfold OpenFiles.Reserved
      rw [hopen]
    have hother : ∀ g, g ≠ f → fileInode (s.put p ((d.keepOnExec e.val).set e none) none
        (setCount s.file f ((s.file f).fCount - 1))) g = fileInode s g := by
      intro g hg
      have hfile : (s.put p ((d.keepOnExec e.val).set e none) none
          (setCount s.file f ((s.file f).fCount - 1))).file g = s.file g := setCount_other _ hg _
      refine fileInode_congr (by rw [hfile]) ?_
      rw [hfile, hres]
    by_cases hone : (s.file f).fCount = 1
    · refine .inr ⟨f, if_pos hone, ?_, ?_⟩
      · rw [fileInode, if_neg]
        exact fun hor => hor.elim hpos hfree
      · funext g
        by_cases hg : g = f
        · subst hg
          rw [Function.update_self, fileInode, if_pos]
          exact .inl (by simp [OpenFiles.put, setCount, hone])
        · rw [Function.update_of_ne hg]
          exact hother g hg
    · refine .inl ⟨if_neg hone, ?_⟩
      funext g
      by_cases hg : g = f
      · subst hg
        refine fileInode_congr (setCount_fInode ..) ?_
        rw [hres]
        refine or_congr_left (iff_of_false ?_ hpos)
        simp only [OpenFiles.put, setCount, Function.update_self]
        omega
      · exact hother g hg

variable (hfew : Fintype.card ι * NR_OPEN < 65536)

include hfew in
theorem fileInode_dup (h : FilesCounted s) {fildes : Nat}
    (hst : fileStep s (.dup p fildes) = some (ev, s')) :
    fileInode s' = fileInode s := by
  have h' := h.step hfew hst
  obtain ⟨d, hd, hs⟩ := Option.map_eq_some_iff.mp hst
  obtain ⟨ho, hp⟩ := caller_some hd
  have hput : s.put p (dupfd fildes 0 d s.file).2.1 none (dupfd fildes 0 d s.file).2.2 = s' :=
    (Prod.mk.inj hs).2
  subst hput
  have hsame : ∀ d', d'.filp = d.filp → FilesCounted (s.put p d' none s.file) →
      fileInode (s.put p d' none s.file) = fileInode s := by
    intro d' hfilp h'
    refine fileInode_of_points h h' (opening_keep ho) (fun _ => rfl) fun g => ?_
    rw [pointsAt_same hp hfilp]
  simp only [dupfd] at h' ⊢
  by_cases hfd : fildes < NR_OPEN
  · simp only [dif_pos hfd] at h' ⊢
    cases hf : d.filp ⟨fildes, hfd⟩ with
    | none =>
      simp only [hf] at h' ⊢
      exact hsame d rfl h'
    | some f =>
      simp only [hf, show ¬ 0 ≥ NR_OPEN by decide, if_false] at h' ⊢
      cases harg : lowestFd d 0 with
      | none =>
        simp only [harg] at h' ⊢
        exact hsame d rfl h'
      | some arg =>
        simp only [harg] at h' ⊢
        refine fileInode_of_points h h' (opening_keep ho) (fun g => setCount_fInode ..) fun g => ?_
        have hpoint : pointsAt s (p, ⟨fildes, hfd⟩) = some f := by simp [pointsAt, hp, hf]
        have hempty : pointsAt s (p, arg) = none := by simp [pointsAt, hp, lowestFd_free harg]
        rw [pointsAt_put hp arg (some f) rfl]
        constructor
        · rintro ⟨x, hx⟩
          by_cases hxa : x = (p, arg)
          · rw [hxa, Function.update_self] at hx
            exact ⟨_, hpoint.trans hx⟩
          · rw [Function.update_of_ne hxa] at hx
            exact ⟨x, hx⟩
        · rintro ⟨x, hx⟩
          have hxa : x ≠ (p, arg) := fun e => by
            rw [e, hempty] at hx
            cases hx
          exact ⟨x, by rwa [Function.update_of_ne hxa]⟩
  · simp only [dif_neg hfd] at h' ⊢
    exact hsame d rfl h'

include hfew in
theorem fileInode_fork (h : FilesCounted s) {child : ι}
    (hst : fileStep s (.fork p child) = some (ev, s')) :
    fileInode s' = fileInode s := by
  have h' := h.step hfew hst
  obtain ⟨d, hd, hs⟩ := Option.bind_eq_some_iff.mp hst
  obtain ⟨ho, hp⟩ := caller_some hd
  by_cases hchild : s.proc child = none
  · rw [if_pos hchild] at hs
    obtain rfl := (Prod.mk.inj (Option.some.inj hs)).2
    have hidle : s.opening child = none := by
      cases hopen : s.opening child with
      | none => rfl
      | some r =>
        have hres := h.reserved child r.1 r.2 hopen
        simp [pointsAt, hchild] at hres
    refine fileInode_of_points h h' (opening_keep hidle) (fun g => forkFiles_fInode ..) fun g => ?_
    have hpts : ∀ q e, pointsAt (s.put child d none (forkFiles d s.file)) (q, e) =
        if q = child then pointsAt s (p, e) else pointsAt s (q, e) := by
      intro q e
      by_cases hq : q = child
      · simp [pointsAt, OpenFiles.put, hq, hp]
      · simp [pointsAt, OpenFiles.put, hq]
    constructor
    · rintro ⟨⟨q, e⟩, hx⟩
      rw [hpts] at hx
      by_cases hq : q = child
      · rw [if_pos hq] at hx
        exact ⟨(p, e), hx⟩
      · rw [if_neg hq] at hx
        exact ⟨(q, e), hx⟩
    · rintro ⟨⟨q, e⟩, hx⟩
      have hq : q ≠ child := fun heq => by
        simp [pointsAt, heq, hchild] at hx
      exact ⟨(q, e), by rw [hpts, if_neg hq]; exact hx⟩
  · rw [if_neg hchild] at hs
    cases hs

end

end Hios.Fs
