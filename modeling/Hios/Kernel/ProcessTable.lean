import Hios.Kernel.Pids
import Hios.Kernel.Family
import Hios.Kernel.CopyOnWrite

/-! The task table of the running system as a family of processes. -/
namespace Hios.Kernel
open Hios.Mm Hios.Run Hios.Outcome

def kin (τ : Task) : Kin := ⟨τ.pid, τ.father, τ.state = .zombie⟩

def kinOf (g : TaskNr → Option Task) : Family TaskNr := fun t => (g t).map kin

theorem kinOf_update (g : TaskNr → Option Task) (t : TaskNr) (τ : Task) :
    kinOf (Function.update g t (some τ)) = Function.update (kinOf g) t (some (kin τ)) := by
  funext s
  by_cases hs : s = t
  · simp [kinOf, hs]
  · simp [kinOf, hs]

theorem kinOf_clear (g : TaskNr → Option Task) (t : TaskNr) :
    kinOf (Function.update g t none) = (kinOf g).reap t := by
  funext s
  by_cases hs : s = t
  · simp [kinOf, Family.reap, hs]
  · simp [kinOf, Family.reap, hs]

theorem kinOf_map {g : TaskNr → Option Task} (t : TaskNr) {f : Task → Task}
    (hf : ∀ τ, kin (f τ) = kin τ) :
    kinOf (Function.update g t ((g t).map f)) = kinOf g := by
  funext s
  by_cases hs : s = t
  · simp [kinOf, hs, Function.comp_def, hf]
  · simp [kinOf, hs]

theorem kin_raise (τ : Task) (sig : Nat) : kin (τ.raise sig) = kin τ := rfl

theorem Kin.adopt_idem (pid : Int) (k : Kin) : (k.adopt pid 1).adopt pid 1 = k.adopt pid 1 := by
  by_cases hf : k.father = pid
  · by_cases h1 : (1 : Int) = pid
    · simp [adopt, hf, h1]
    · simp [adopt, hf, h1]
  · simp [adopt, hf]

theorem kinOf_adoptChild (pid : Int) (m : Machine) (i : TaskNr) :
    kinOf (adoptChild pid m i).task =
      Function.update (kinOf m.task) i ((kinOf m.task i).map (·.adopt pid 1)) := by
  simp only [adoptChild]
  cases hi : m.task i with
  | none => simp [kinOf, hi]
  | some τ =>
    by_cases hf : τ.father = pid
    · have hset : kinOf (m.setTask i (some { τ with father := 1 })).task =
          Function.update (kinOf m.task) i ((kinOf m.task i).map (·.adopt pid 1)) := by
        rw [Machine.setTask, kinOf_update]
        simp [kinOf, hi, kin, Kin.adopt, hf]
      simp only [if_pos hf]
      split
      · rw [Machine.setTask, kinOf_map 1 fun τ => kin_raise τ SIGCHLD]
        exact hset
      · exact hset
    · simp [kinOf, hi, kin, Kin.adopt, hf]

theorem kinOf_adoptChildren (pid : Int) (l : List TaskNr) (m : Machine) :
    kinOf (l.foldl (adoptChild pid) m).task = fun s =>
      if s ∈ l then (kinOf m.task s).map (·.adopt pid 1) else kinOf m.task s := by
  induction l generalizing m with
  | nil => simp
  | cons i l ih =>
    rw [List.foldl_cons, ih]
    funext s
    rw [kinOf_adoptChild]
    by_cases hs : s = i
    · subst hs
      simp only [Function.update_self, List.mem_cons, true_or, if_true]
      by_cases hl : s ∈ l
      · simp [hl, Option.map_map, Function.comp_def, Kin.adopt_idem]
      · simp [hl]
    · simp [hs]

theorem release_clears {m : Machine} {t : TaskNr} {page : Nat}
    (honly : ∀ i, i ≠ 0 → isTask m page i → i = t) :
    IfReturns (fun m' => m'.task = Function.update m.task t none ∧ m'.lastPid = m.lastPid)
      (releaseUntilSchedule page m) := by
  simp only [releaseUntilSchedule]
  cases hf : (List.finRange NR_TASKS).find? fun i => i ≠ 0 ∧ isTask m page i with
  | none => trivial
  | some i =>
    have hi := List.find?_some hf
    simp only [decide_eq_true_eq] at hi
    rw [honly i hi.1 hi.2]
    exact (untouched_freePage page (m.setTask t none)).mono fun m' h => ⟨h.task, h.lastPid⟩

theorem tellFather_kin {m : Machine} {t : TaskNr} {current : Task} (pid : Int)
    (honly : ∀ i, i ≠ 0 → isTask m current.page i → i = t) :
    IfReturns (fun m' => m'.lastPid = m.lastPid ∧
      (kinOf m'.task = kinOf m.task ∨ kinOf m'.task = (kinOf m.task).reap t))
        (tellFather current pid m) := by
  simp only [tellFather]
  split
  · exact ⟨rfl, .inl (kinOf_map _ fun τ => kin_raise τ SIGCHLD)⟩
  · refine (release_clears honly).mono fun m' h => ⟨h.2, .inr ?_⟩
    rw [h.1, kinOf_clear]

/-- What `do_exit` does to the family: the task is a zombie, or is gone at once
when it has no father to tell. -/
structure ExitKin (t : TaskNr) (pid : Int) (m m' : Machine) : Prop where
  lastPid : m'.lastPid = m.lastPid
  family : kinOf m'.task = (kinOf m.task).exit t pid ∨
    kinOf m'.task = ((kinOf m.task).exit t pid).reap t

theorem doExit_kin {c : Config} {m : Machine} {t : TaskNr} {current : Task} (code : Int)
    (h : Inv c [] m) (ht : t ≠ 0) (hτ : m.task t = some current) :
    IfReturns (ExitKin t current.pid m) (doExit t current code m) := by
  simp only [doExit]
  refine (untouched_freePageTables _ _ m).bind (R := ExitKin t current.pid m) fun m₁ h₁ => ?_
  refine (untouched_freePageTables _ _ m₁).bind (R := ExitKin t current.pid m) fun m₂ h₂ => ?_
  have h₂ := h₁.trans h₂
  obtain ⟨g, hg, hsame⟩ := adoptChildren_eq current.pid m₂ (List.finRange NR_TASKS)
  have hkin := kinOf_adoptChildren current.pid (List.finRange NR_TASKS) m₂
  rw [hg] at hkin ⊢
  rw [h₂.task] at hkin hsame
  simp only [List.mem_finRange, if_true] at hkin
  have hzombie : kinOf (Function.update g t
      ((g t).map fun τ => { τ with state := .zombie, exitCode := code })) =
        (kinOf m.task).exit t current.pid := by
    funext s
    have hs := congrFun hkin s
    simp only [kinOf] at hs
    by_cases hst : s = t
    · simp only [hst] at hs
      simp only [kinOf, hst, Function.update_self, Family.exit, if_true, Option.map_map]
      cases hgt : g t with
      | none => simp [hgt, hτ] at hs
      | some τ =>
        simp only [hgt, hτ, Option.map_some, Option.some.injEq] at hs
        simp only [hτ, Option.map_some, Function.comp_apply, Option.some.injEq, ← hs]
        simp [kin]
    · simp only [kinOf, Function.update_of_ne hst, hs, Family.exit, if_neg hst]
  have hpages : ∀ i, i ≠ 0 → isTask (Machine.setTask { m₂ with task := g } t
      ((g t).map fun τ => { τ with state := .zombie, exitCode := code })) current.page i →
        i = t := by
    rintro i hi ⟨σ, hσ, hpage⟩
    by_contra hit
    have hσ : g i = some σ := by simpa [Machine.setTask, hit] using hσ
    have hfoot := hsame i
    rw [hσ] at hfoot
    obtain ⟨ρ, hρ, hfoot⟩ := Option.map_eq_some_iff.mp hfoot.symm
    have hρpage : ρ.page = current.page := ((Prod.mk.inj hfoot).1).trans hpage
    exact hit (slot_unique h ht hi hτ hρ hρpage)
  refine (tellFather_kin current.father hpages).mono fun m' h' => ⟨h'.1.trans h₂.lastPid, ?_⟩
  rw [← hzombie]
  exact h'.2

/-- The invariant: the family is consistent and `last_pid` is in range, and is
still to become 1 while slot 1 is empty. -/
structure PidTable (m : Machine) : Prop where
  family : (kinOf m.task).Consistent 0 1
  lastPid : 0 ≤ m.lastPid ∧ m.lastPid < 2 ^ 31
  fresh : m.task 1 = none → m.lastPid = 0 ∨ m.lastPid = 1

theorem PidTable.untouched {m m' : Machine} (h : PidTable m) (hu : Untouched m m') :
    PidTable m' := by
  refine ⟨?_, ?_, ?_⟩
  · rw [hu.task]
    exact h.family
  · rw [hu.lastPid]
    exact h.lastPid
  · rw [hu.task, hu.lastPid]
    exact h.fresh

theorem alive_iff {g : TaskNr → Option Task} {pid : Int} {t : TaskNr} :
    (kinOf g).Alive pid t ↔ ∃ τ, g t = some τ ∧ τ.pid = pid ∧ τ.state ≠ .zombie := by
  constructor
  · rintro ⟨k, hk, hp, hz⟩
    obtain ⟨τ, hτ, rfl⟩ := Option.map_eq_some_iff.mp hk
    exact ⟨τ, hτ, hp, by simpa [kin] using hz⟩
  · rintro ⟨τ, hτ, hp, hz⟩
    exact ⟨kin τ, by rw [kinOf, hτ, Option.map_some], hp, by simpa [kin] using hz⟩

theorem PidTable.zero_taken {m : Machine} (h : PidTable m) : pidTaken m 0 := by
  obtain ⟨τ, hτ, hp, -⟩ := alive_iff.mp h.family.root
  exact ⟨0, τ, hτ, hp⟩

theorem pidTable_boot (c : Config) : PidTable (boot c) := by
  have honly : ∀ t k, kinOf (boot c).task t = some k → t = 0 ∧ k = kin initTask := by
    intro t k hk
    obtain ⟨τ, hτ, rfl⟩ := Option.map_eq_some_iff.mp hk
    by_cases ht : t = 0
    · simp only [boot, memInit, ht, if_true, Option.some.injEq] at hτ
      exact ⟨ht, by rw [hτ]⟩
    · simp [boot, memInit, ht] at hτ
  refine ⟨⟨?_, ?_, ?_, ?_, ?_, ?_⟩, ⟨le_refl 0, show (0 : Int) < 2 ^ 31 by decide⟩,
    fun _ => .inl rfl⟩
  · intro s t j k hj hk _
    rw [(honly s j hj).1, (honly t k hk).1]
  · exact alive_iff.mpr ⟨initTask, rfl, rfl, by decide⟩
  · intro t k ht hk
    exact absurd (honly t k hk).1 ht
  · intro k hk
    exact absurd (honly 1 k hk).1 (by decide)
  · intro _ t ht
    cases hk : kinOf (boot c).task t with
    | none => rfl
    | some k => exact absurd (honly t k hk).1 ht
  · intro t k ht hk
    exact absurd (honly t k hk).1 ht

/-- `find_empty_process` chooses a pid in range that no task has, and it is 1
while slot 1 is empty. -/
theorem PidTable.chooses {m : Machine} (h : PidTable m) :
    ∃ pid, (findEmptyProcess m).2 = { m with lastPid := pid } ∧ ¬ pidTaken m pid ∧ 0 < pid ∧
    pid < 2 ^ 31 ∧
      (m.task 1 = none → pid = 1) ∧
      ∀ fuel, NR_TASKS < fuel → findPid m m.lastPid fuel m.lastPid = pid := by
  obtain ⟨pid, hge, hlt, hfree, hfuel⟩ := findPid_spec m h.lastPid
  have hne : pid ≠ 0 := fun e => hfree (e ▸ h.zero_taken)
  refine ⟨pid, ?_, hfree, by omega, hlt, fun hempty => ?_, hfuel⟩
  · rw [findEmptyProcess, hfuel _ (Nat.lt_succ_self _)]
  · have hone : ¬ pidTaken m 1 := by
      rintro ⟨i, τ, hi, hp⟩
      have hkin : kinOf m.task i = some (kin τ) := by rw [kinOf, hi, Option.map_some]
      by_cases hi0 : i = 0
      · obtain ⟨σ, hσ, hσp, -⟩ := alive_iff.mp h.family.root
        rw [hi0, hσ] at hi
        rw [← Option.some.inj hi, hσp] at hp
        exact absurd hp (by decide)
      · rw [h.family.first (by rw [kinOf, hempty]; rfl) i hi0] at hkin
        cases hkin
    rw [← hfuel (NR_TASKS + 1) (Nat.lt_succ_self _)]
    cases h.fresh hempty with
    | inl hlast =>
      have hstep : nextPid 0 = 1 := by decide
      rw [hlast, findPid, if_pos h.zero_taken, if_neg (by decide), hstep, NR_TASKS, findPid,
        if_neg hone]
    | inr hlast => rw [hlast, findPid, if_neg hone]

theorem findSlot_spec (m : Machine) :
    (∀ t, (findEmptyProcess m).1 = some t → t ≠ 0 ∧ m.task t = none ∧ ∀ s, s ≠ 0 → s < t →
      m.task s ≠ none) ∧
    ((findEmptyProcess m).1 = none → ∀ s, s ≠ 0 → m.task s ≠ none) := by
  simp only [findEmptyProcess]
  refine ⟨fun t ht => ?_, fun hnone s hs hfree => ?_⟩
  · have hgood := List.find?_some ht
    simp only [decide_eq_true_eq] at hgood
    refine ⟨hgood.1, hgood.2, fun s hs hlt hfree => ?_⟩
    obtain ⟨-, as, bs, hsplit, hbefore⟩ := List.find?_eq_some_iff_append.mp ht
    have hsorted := List.pairwise_lt_finRange NR_TASKS
    rw [hsplit] at hsorted
    have hmem := List.mem_finRange s
    rw [hsplit, List.mem_append, List.mem_cons] at hmem
    obtain hmem | rfl | hmem := hmem
    · simpa [hs, hfree] using hbefore s hmem
    · exact lt_irrefl _ hlt
    · have hgt := (List.pairwise_append.mp hsorted).2.1
      exact lt_asymm hlt ((List.pairwise_cons.mp hgt).1 s hmem)
  · simpa [hs, hfree] using List.find?_eq_none.mp hnone s (List.mem_finRange s)

theorem PidTable.fork {m : Machine} {s : TaskNr} {current : Task} (h : PidTable m)
    (hs : m.task s = some current) (hz : current.state ≠ .zombie) :
    IfReturns (fun r => PidTable r.2) (sysFork current m) := by
  obtain ⟨pid, hfind, hfree, hpos, hlt, hfirst, -⟩ := h.chooses
  have hnamed : PidTable { m with lastPid := pid } :=
    ⟨h.family, ⟨hpos.le, hlt⟩, fun hempty => .inr (hfirst hempty)⟩
  have hslot := findSlot_spec m
  unfold sysFork
  generalize findEmptyProcess m = r at hfind hslot
  obtain ⟨slot, m₁⟩ := r
  obtain rfl : m₁ = { m with lastPid := pid } := hfind
  cases slot with
  | none => exact hnamed
  | some nr =>
    obtain ⟨hnr, hempty, hlow⟩ := hslot.1 nr rfl
    refine (newTask_copyProcess current (m := { m with lastPid := pid }) hempty).mono fun r hr => ?_
    cases hr.task with
    | inl hsame => exact hnamed.untouched ⟨hsame, hr.lastPid⟩
    | inr hnew =>
      obtain ⟨p, htask, hpid, hfather, hrun⟩ := hnew
      have hkin : kinOf r.2.task = (kinOf m.task).spawn nr pid current.pid := by
        rw [htask, kinOf_update, Family.spawn]
        simp [kin, hpid, hfather, hrun]
      have hone : m.task 1 = none → nr = 1 := by
        intro h1
        by_contra hne
        have hlt1 : (1 : TaskNr) < nr := by
          have hv0 : nr.val ≠ 0 := fun e => hnr (Fin.ext e)
          have hv1 : nr.val ≠ 1 := fun e => hne (Fin.ext e)
          have hlt : 1 < nr.val := by omega
          exact hlt
        exact hlow 1 (by decide) hlt1 h1
      have hlast : r.2.lastPid = pid := hr.lastPid
      refine ⟨?_, ?_, fun h1 => .inr ?_⟩
      · rw [hkin]
        refine h.family.spawn hnr (by rw [kinOf, hempty]; rfl) hpos (fun i k hk hkp => ?_)
          ⟨s, alive_iff.mpr ⟨current, hs, rfl, hz⟩⟩ fun h1 => ?_
        · obtain ⟨τ, hτ, rfl⟩ := Option.map_eq_some_iff.mp hk
          exact hfree ⟨i, τ, hτ, hkp⟩
        · have h1 : m.task 1 = none := by simpa [kinOf] using h1
          exact ⟨hone h1, hfirst h1⟩
      · rw [hlast]
        exact ⟨hpos.le, hlt⟩
      · rw [hlast]
        apply hfirst
        by_cases he : nr = 1
        · rw [← he]
          exact hempty
        · rwa [htask, Function.update_of_ne (Ne.symm he)] at h1

theorem PidTable.of_family {m m' : Machine} (h : PidTable m) (hlast : m'.lastPid = m.lastPid)
    (hfamily : (kinOf m'.task).Consistent 0 1) (hfresh : m'.task 1 = none → m.task 1 = none) :
    PidTable m' := by
  refine ⟨hfamily, ?_, fun h1 => ?_⟩
  · rw [hlast]
    exact h.lastPid
  · rw [hlast]
    exact h.fresh (hfresh h1)

theorem kinOf_eq_none {g : TaskNr → Option Task} {t : TaskNr} : kinOf g t = none ↔ g t = none := by
  simp [kinOf]

theorem PidTable.exit {c : Config} {m : Machine} {t : TaskNr} {current : Task} (h : PidTable m)
    (code : Int) (hinv : Inv c [] m) (ht : t ≠ 0) (ht1 : t ≠ 1) (hτ : m.task t = some current) :
    IfReturns PidTable (doExit t current code m) := by
  have hown : kinOf m.task t = some (kin current) := by rw [kinOf, hτ, Option.map_some]
  have hexit := h.family.exit ht ht1 hown
  have hzombie : (kinOf m.task).exit t current.pid t =
      some { (kin current).adopt current.pid 1 with zombie := true } := by
    simp [Family.exit, hown]
  refine (doExit_kin code hinv ht hτ).mono fun m' hm' => ?_
  cases hm'.family with
  | inl hfam =>
    refine h.of_family hm'.lastPid (hfam ▸ hexit) fun h1 => ?_
    rw [← kinOf_eq_none, hfam] at h1
    simpa [Family.exit, kinOf] using h1
  | inr hfam =>
    refine h.of_family hm'.lastPid (hfam ▸ hexit.reap ht hzombie rfl) fun h1 => ?_
    rw [← kinOf_eq_none, hfam, Family.reap, Function.update_of_ne (Ne.symm ht1)] at h1
    simpa [Family.exit, kinOf] using h1

theorem PidTable.release {c : Config} {m : Machine} {t : TaskNr} {τ : Task} (h : PidTable m)
    (hinv : Inv c [] m) (ht : t ≠ 0) (hτ : m.task t = some τ) (hz : τ.state = .zombie) :
    IfReturns PidTable (releaseUntilSchedule τ.page m) := by
  have hown : kinOf m.task t = some (kin τ) := by rw [kinOf, hτ, Option.map_some]
  have hdead : (kin τ).zombie = true := by simp [kin, hz]
  have honly : ∀ i, i ≠ 0 → isTask m τ.page i → i = t := fun i hi ⟨σ, hσ, hpage⟩ =>
    slot_unique hinv ht hi hτ hσ hpage
  refine (release_clears honly).mono fun m' hm' => ?_
  refine h.of_family hm'.2 ?_ fun h1 => ?_
  · rw [hm'.1, kinOf_clear]
    exact h.family.reap ht hown hdead
  · by_cases he : t = 1
    · have hlive := (h.family.init (kin τ) (he ▸ hown)).2.1
      rw [hdead] at hlive
      cases hlive
    · rwa [hm'.1, Function.update_of_ne (Ne.symm he)] at h1

theorem PidTable.perform {c : Config} {m : Machine} {a : Act} (h : PidTable m) (hinv : Inv c [] m)
    (hone : ∀ t code, a = .exit t code → t ≠ 1) (he : enabled m a) :
    IfReturns (fun r => PidTable r.2) (perform m a) := by
  cases a with
  | fork s =>
    obtain ⟨τ, hτ, hz⟩ := he
    simp only [Kernel.perform, asTask, hτ]
    exact Ends.map (h.fork hτ hz)
  | read t a =>
    obtain ⟨-, ⟨τ, hτ, -⟩, -⟩ := he
    simp only [Kernel.perform, asTask, hτ]
    exact Ends.map ((untouched_readUser _ m).mono fun r hr => h.untouched hr)
  | write t a v =>
    obtain ⟨-, ⟨τ, hτ, -⟩, -⟩ := he
    simp only [Kernel.perform, asTask, hτ]
    exact Ends.map ((untouched_writeUser _ v m).mono fun r hr => h.untouched hr)
  | verifyArea t addr size =>
    obtain ⟨τ, hτ, -⟩ := he
    simp only [Kernel.perform, asTask, hτ, verifyArea]
    exact Ends.map ((untouched_verifyLoop _ _ m).mono fun m' hm' => h.untouched hm')
  | exit t code =>
    obtain ⟨ht, τ, hτ, -⟩ := he
    simp only [Kernel.perform, asTask, hτ]
    exact Ends.map (h.exit code hinv ht (hone t code rfl) hτ)
  | release t =>
    obtain ⟨ht, hsome, hdead⟩ := he
    obtain ⟨τ, hτ⟩ := Option.isSome_iff_exists.mp hsome
    have hz : τ.state = .zombie := by
      by_contra hz
      exact hdead ⟨τ, hτ, hz⟩
    simp only [Kernel.perform, asTask, hτ]
    exact Ends.map (h.release hinv ht hτ hz)

theorem pidTable_step {c : Config} {m m' : Machine} {a : Act} {e : Option Event}
    (hone : ∀ t code, a = .exit t code → t ≠ 1) (h : Inv c [] m ∧ PidTable m)
    (hs : step m a = some (e, m')) :
    Inv c [] m' ∧ PidTable m' := by
  refine ⟨(step_effect h.1 hs).inv, ?_⟩
  by_cases he : enabled m a
  · have hkeep := h.2.perform h.1 hone he
    rw [step, if_pos he] at hs
    cases hr : perform m a with
    | ok r =>
      rw [hr] at hs hkeep
      obtain rfl : r = (e, m') := by simpa [Except.toOption] using hs
      exact hkeep
    | error p =>
      rw [hr] at hs
      simp [Except.toOption] at hs
  · simp [step, he] at hs

theorem pidTable_run (c : Config) {as : List Act} {es : List Event} {m : Machine}
    (hone : ∀ t code, Act.exit t code ∈ as → t ≠ 1) (h : trace step (boot c) as = some (es, m)) :
    PidTable m :=
  (trace_inv_on (L := fun a => ∀ t code, a = .exit t code → t ≠ 1)
    (fun _ _ _ _ ha hm hs => pidTable_step ha hm hs)
    (by rintro a ha t code rfl; exact hone t code ha) ⟨inv_boot c, pidTable_boot c⟩ h).2

/-- As long as process 1 does not exit, pids are distinct, 0 is the pid of slot 0 alone and 1
that of slot 1, every father is a task that has not exited, and
`find_empty_process` ends at a pid that no task has, with the lowest free slot. -/
theorem process_table_consistent (c : Config) {as : List Act} {es : List Event} {m : Machine}
    (hone : ∀ t code, Act.exit t code ∈ as → t ≠ 1) (h : trace step (boot c) as = some (es, m)) :
    (∀ s t σ τ, m.task s = some σ → m.task t = some τ → σ.pid = τ.pid → s = t) ∧
    (∀ t τ, m.task t = some τ → 0 ≤ τ.pid ∧ (τ.pid = 0 ↔ t = 0) ∧ (t = 1 → τ.pid = 1)) ∧
    (∀ t τ, t ≠ 0 → m.task t = some τ →
      ∃ s σ, m.task s = some σ ∧ σ.pid = τ.father ∧ σ.state ≠ .zombie) ∧
    (∃ pid, ¬ pidTaken m pid ∧ ∀ fuel, NR_TASKS < fuel → findPid m m.lastPid fuel m.lastPid = pid) ∧
    (∀ t, (findEmptyProcess m).1 = some t →
      t ≠ 0 ∧ m.task t = none ∧ ∀ s, s ≠ 0 → s < t → m.task s ≠ none) ∧
    ((findEmptyProcess m).1 = none → ∀ s, s ≠ 0 → m.task s ≠ none) := by
  have htable := pidTable_run c hone h
  have hkin : ∀ t τ, m.task t = some τ → kinOf m.task t = some (kin τ) := fun t τ hτ => by
    rw [kinOf, hτ, Option.map_some]
  obtain ⟨pid, -, hfree, -, -, -, hfuel⟩ := htable.chooses
  refine ⟨fun s t σ τ hσ hτ he => ?_, fun t τ hτ => ?_, fun t τ ht hτ => ?_, ⟨pid, hfree, hfuel⟩,
    findSlot_spec m⟩
  · exact htable.family.pid_inj s t _ _ (hkin s σ hσ) (hkin t τ hτ) he
  · by_cases ht : t = 0
    · obtain ⟨σ, hσ, hp, -⟩ := alive_iff.mp htable.family.root
      rw [ht, hσ] at hτ
      rw [← Option.some.inj hτ, hp, ht]
      exact ⟨le_refl 0, by decide, by decide⟩
    · have hpos : 0 < τ.pid := htable.family.pid_pos t _ ht (hkin t τ hτ)
      refine ⟨hpos.le, ⟨fun h0 => by omega, fun h0 => absurd h0 ht⟩, fun h1 => ?_⟩
      exact (htable.family.init (kin τ) (h1 ▸ hkin t τ hτ)).1
  · obtain ⟨s, -, ha⟩ := htable.family.father t _ ht (hkin t τ hτ)
    obtain ⟨σ, hσ, hp, hz⟩ := alive_iff.mp ha
    exact ⟨s, σ, hσ, hp, hz⟩

theorem process_table_consistent_family : ∃ m es,
    trace step (boot bootConfig) [.fork 0, .fork 1] = some (es, m) ∧
    ∀ s t σ τ, m.task s = some σ → m.task t = some τ → σ.pid = τ.pid → s = t := by
  have hsome : (trace step (boot bootConfig) [.fork 0, .fork 1]).isSome := by
    decide +kernel
  obtain ⟨⟨es, m⟩, h⟩ := Option.isSome_iff_exists.mp hsome
  exact ⟨m, es, h, (process_table_consistent bootConfig (by simp) h).1⟩

end Hios.Kernel
