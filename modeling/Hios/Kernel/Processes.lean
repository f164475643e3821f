import Hios.Mm.Tables

/-! Fork, exit and release: the references they move and the views they give. -/
namespace Hios.Kernel
open Hios.Mm Hios.RefCount
variable {c : Config} {m : Machine} {s t nr : TaskNr} {τ : Task}

theorem no_table_of_empty {held : List Nat} (h : Inv c held m) (hτ : m.task t = none) :
    ¬ hasTable m (slotDir t) := by
  intro hi
  obtain ⟨s, σ, hs, hσ, -⟩ := h.dirs _ hi
  rw [slotDir_inj hs.symm, hτ] at hσ
  simp at hσ

theorem no_table_of_zombie {held : List Nat} (h : Inv c held m) (hτ : m.task t = some τ)
    (hz : τ.state = .zombie) : ¬ hasTable m (slotDir t) := by
  intro hi
  obtain ⟨s, σ, hs, hσ, hσz⟩ := h.dirs _ hi
  rw [slotDir_inj hs.symm, hτ] at hσ
  obtain rfl := Option.some.inj hσ
  exact hσz hz

theorem view_of_no_table {i : Fin 1024} (h : ¬ hasTable m i) (k j : Fin 1024) :
    view m i k j = 0 := by
  simp [view, h]

structure CopiedMem (c : Config) (s nr : TaskNr) (p : Task) (m : Machine) (err : Int)
  (m' : Machine) :
    Prop where
  inv : Inv c [] m'
  task : m'.task = Function.update m.task nr (some { p with base := newBase nr })
  view : ∀ i k j, i ≠ slotDir nr → view m' i k j = view m i k j
  failed : err ≠ 0 → ¬ hasTable m' (slotDir nr)
  child : err = 0 → ∀ k j, Mm.view m' (slotDir nr) k j = inherited c m s k j

theorem copyMem_spec {current p : Task} (h : Inv c [p.page] m) (hone : count m p.page = 1)
    (hs : m.task s = some current) (hnr : nr ≠ 0) (hfree : m.task nr = none)
    (hz : p.state ≠ .zombie) :
    Holds (fun r => CopiedMem c s nr p m r.1 r.2)
      (copyMem current nr p (m.setTask nr (some p))) := by
  have hsn : s ≠ nr := fun e => by simp [← e, hs] at hfree
  have hbase : current.base = newBase s := h.base s current hs
  set p' : Task := { p with base := newBase nr } with hp'
  have hinv : Inv c [] (m.setTask nr (some p')) := Inv.fillSlot (τ := p') h hnr hfree rfl hone
  have htask : (m.setTask nr (some p')).task nr = some p' := by simp [Machine.setTask]
  have habs : ¬ hasTable m (slotDir nr) := no_table_of_empty h hfree
  have hset : (m.setTask nr (some p)).setTask nr (some p') = m.setTask nr (some p') := by
    simp [Machine.setTask]
  have hcopy := hinv.copyPageTables (s := s) hnr hsn htask hz habs
  simp only [copyMem, ← hp', hset, hbase]
  refine hcopy.bind fun r hr => ?_
  obtain ⟨err, m'⟩ := r
  by_cases herr : err = 0
  · rw [if_neg (not_not_intro herr)]
    exact ⟨hr.inv, hr.task, hr.view, fun h0 => absurd rfl h0, fun _ => hr.child herr⟩
  · rw [if_pos herr]
    obtain ⟨m'', hm'', hfreed⟩ := hr.inv.freePageTables hnr
    rw [hm'', ok_bind]
    exact ⟨hfreed.inv, hfreed.task.trans hr.task,
      fun i k j hi => (hfreed.view i k j hi).trans (hr.view i k j hi),
        fun _ => hfreed.gone, by simp⟩

/-- What `copy_process` does: a child that sees what its parent sees, or
nothing at all. -/
structure Forked (c : Config) (s nr : TaskNr) (m m' : Machine) : Prop where
  inv : Inv c [] m'
  view : ∀ i k j, i ≠ slotDir nr → view m' i k j = view m i k j
  failed : m'.task nr = none → m'.task = m.task
  child : m'.task nr ≠ none → ∃ p, m'.task = Function.update m.task nr (some p) ∧
    p.state = .running ∧
    ∀ k j, Mm.view m' (slotDir nr) k j = inherited c m s k j

theorem inherited_congr {m' : Machine} (h : ∀ i k j, view m' i k j = view m i k j)
    (k j : Fin 1024) :
    inherited c m' s k j = inherited c m s k j := by
  simp [inherited, h]

theorem copyProcess_spec {current : Task} (h : Inv c [] m) (hs : m.task s = some current)
    (hnr : nr ≠ 0) (hfree : m.task nr = none) :
    Holds (fun r => Forked c s nr m r.2) (copyProcess current nr m) := by
  have hsn : s ≠ nr := fun e => by simp [← e, hs] at hfree
  have habs := no_table_of_empty h hfree
  cases hg : getFreePage m with
  | none =>
    simp only [copyProcess, hg]
    exact ⟨h, fun _ _ _ _ => rfl, fun _ => rfl, fun hne => absurd hfree hne⟩
  | some r =>
    obtain ⟨page, m₁⟩ := r
    have hfresh := h.freshPage hg
    simp only [copyProcess, hg]
    refine (copyMem_spec hfresh.inv hfresh.count (hfresh.task ▸ hs) hnr (hfresh.task ▸ hfree)
      (by simp)).bind fun r hr => ?_
    obtain ⟨err, m'⟩ := r
    have hview : ∀ i k j, i ≠ slotDir nr → view m' i k j = view m i k j := fun i k j hi =>
      (hr.view i k j hi).trans (hfresh.view i k j)
    obtain ⟨p, htasks, rfl⟩ : ∃ p, m'.task = Function.update m.task nr (some p) ∧ p.page = page :=
      ⟨_, hfresh.task ▸ hr.task, rfl⟩
    have htask : m'.task nr = some p := by rw [htasks, Function.update_self]
    by_cases herr : err = 0
    · rw [if_neg (not_not_intro herr)]
      refine ⟨hr.inv.setTasks (fun t => ?_) (fun t => ?_) fun t τ hτ hτz _ => ?_, hview,
        fun hne => ?_, fun _ => ?_⟩
      · by_cases ht : t = nr
        · rw [ht, Function.update_self, Option.map_map]
          rfl
        · rw [Function.update_of_ne ht]
      · by_cases ht : t = nr
        · rw [ht, Function.update_self, Option.map_map]
          rfl
        · rw [Function.update_of_ne ht]
      · by_cases ht : t = nr
        · rw [ht, Function.update_self, htask]
          exact ⟨_, rfl, by simp⟩
        · exact ⟨τ, by rw [Function.update_of_ne ht, hτ], hτz⟩
      · simp [Machine.setTask, htask] at hne
      · refine ⟨{ p with state := .running }, ?_, rfl, fun k j => ?_⟩
        · simp [Machine.setTask, htask, htasks]
        · exact (hr.child herr k j).trans (inherited_congr hfresh.view k j)
    · rw [if_pos herr]
      have hempty := hr.inv.emptySlot hnr htask (hr.failed herr)
      have hsame : Function.update m'.task nr none = m.task := by
        rw [htasks, Function.update_idem, ← hfree, Function.update_eq_self]
      rw [hempty.freePage, ok_bind]
      refine ⟨hempty.drop, fun i k j hi => hview i k j hi, fun _ => hsame, fun hne => ?_⟩
      exact absurd ((congrFun hsame nr).trans hfree) hne

theorem inv_lastPid (h : Inv c [] m) (pid : Int) : Inv c [] { m with lastPid := pid } :=
  h.of_sameTables ⟨fun _ _ => rfl, fun _ _ _ => rfl⟩ (fun _ _ _ => rfl) (fun _ _ => rfl) rfl
    rfl rfl rfl rfl

def filledSlot (m m' : Machine) : Option TaskNr :=
  (List.finRange NR_TASKS).find? fun t => (m.task t).isNone ∧ (m'.task t).isSome

theorem filledSlot_of_same {m' : Machine} (h : m'.task = m.task) : filledSlot m m' = none := by
  rw [filledSlot, List.find?_eq_none]
  intro t _
  cases ht : m.task t <;> simp [h, ht]

theorem filledSlot_of_update {m' : Machine} {p : Task} (hfree : m.task nr = none)
    (h : m'.task = Function.update m.task nr (some p)) : filledSlot m m' = some nr := by
  have hself : (m.task nr).isNone ∧ (m'.task nr).isSome := by simp [hfree, h]
  have honly : ∀ t, (m.task t).isNone ∧ (m'.task t).isSome → t = nr := by
    rintro t ⟨ht, ht'⟩
    by_contra hne
    rw [h, Function.update_of_ne hne] at ht'
    cases hm : m.task t <;> simp [hm] at ht ht'
  cases hf : filledSlot m m' with
  | none =>
    have hno := List.find?_eq_none.mp hf nr (List.mem_finRange nr)
    simp [hself] at hno
  | some t =>
    have ht := List.find?_some hf
    rw [honly t (by simpa using ht)]

/-- `fork` either leaves the tasks as they were or fills a slot with a child that
sees what its parent sees. -/
structure ForkResult (c : Config) (s : TaskNr) (m : Machine) (slot : Option TaskNr) (m' : Machine) :
    Prop where
  inv : Inv c [] m'
  view : ∀ i k j, (∀ nr, slot = some nr → i ≠ slotDir nr) → view m' i k j = view m i k j
  failed : slot = none → m'.task = m.task
  child : ∀ nr, slot = some nr → nr ≠ 0 ∧ m.task nr = none ∧
    ∃ p, m'.task = Function.update m.task nr (some p) ∧ p.state = .running ∧
      ∀ k j, Mm.view m' (slotDir nr) k j = inherited c m s k j

theorem sysFork_spec {current : Task} (h : Inv c [] m) (hs : m.task s = some current) :
    Holds (fun r => ForkResult c s m (filledSlot m r.2) r.2) (sysFork current m) := by
  have h₁ := inv_lastPid h (findPid m m.lastPid (NR_TASKS + 1) m.lastPid)
  simp only [sysFork, findEmptyProcess]
  cases hf : (List.finRange NR_TASKS).find? fun i => i ≠ 0 ∧ m.task i = none with
  | none =>
    have hsame : filledSlot m { m with lastPid := findPid m m.lastPid (NR_TASKS + 1) m.lastPid } =
      none :=
      filledSlot_of_same rfl
    simp only [Holds, hsame]
    exact ⟨h₁, fun _ _ _ _ => rfl, fun _ => rfl, by simp⟩
  | some nr =>
    have hslot := List.find?_some hf
    simp only [decide_eq_true_eq] at hslot
    refine (copyProcess_spec h₁ hs hslot.1 hslot.2).mono fun r hr => ?_
    by_cases hnr : r.2.task nr = none
    · have hsame : r.2.task = m.task := hr.failed hnr
      rw [filledSlot_of_same hsame]
      refine ⟨hr.inv, fun i k j _ => ?_, fun _ => hsame, by simp⟩
      by_cases hi : i = slotDir nr
      · rw [hi, view_of_no_table (no_table_of_empty hr.inv hnr),
          view_of_no_table (no_table_of_empty h hslot.2)]
      · exact hr.view i k j hi
    · obtain ⟨p, hp, hrun, hview⟩ := hr.child hnr
      have hp : r.2.task = Function.update m.task nr (some p) := hp
      rw [filledSlot_of_update hslot.2 hp]
      refine ⟨hr.inv, fun i k j hi => hr.view i k j (hi nr rfl), by simp, fun nr' hnr' => ?_⟩
      obtain rfl := Option.some.inj hnr'
      exact ⟨hslot.1, hslot.2, p, hp, hrun, hview⟩

def Live (m : Machine) (t : TaskNr) : Prop := ∃ τ, m.task t = some τ ∧ τ.state ≠ .zombie

instance (m : Machine) (t : TaskNr) : Decidable (Live m t) :=
  decidable_of_iff ((m.task t).any fun τ => τ.state ≠ .zombie) (by simp [Live, Option.any_eq_true])

def footprint (τ : Task) : Nat × Nat × TaskState := (τ.page, τ.base, τ.state)

def SameSlots (g g' : TaskNr → Option Task) : Prop :=
  ∀ t, (g' t).map footprint = (g t).map footprint

theorem SameSlots.trans {g g' g'' : TaskNr → Option Task} (h : SameSlots g g')
    (h' : SameSlots g' g'') :
    SameSlots g g'' := fun t => (h' t).trans (h t)

theorem SameSlots.live {g : TaskNr → Option Task} (h : SameSlots m.task g) (t : TaskNr) :
    Live { m with task := g } t ↔ Live m t := by
  have ht := h t
  simp only [Live]
  cases hg : g t with
  | none =>
    cases hm : m.task t with
    | none => simp
    | some τ => simp [hg, hm] at ht
  | some σ =>
    cases hm : m.task t with
    | none => simp [hg, hm] at ht
    | some τ =>
      simp only [hg, hm, Option.map_some, Option.some.injEq, footprint, Prod.mk.injEq] at ht
      simp [ht.2.2]

theorem inv_sameSlots {held : List Nat} {g : TaskNr → Option Task} (h : Inv c held m)
    (hg : SameSlots m.task g) : Inv c held { m with task := g } := by
  refine h.setTasks (fun t => ?_) (fun t => ?_) fun t τ hτ hz _ => (hg.live t).mpr ⟨τ, hτ, hz⟩
  · have hpage := congrArg (Option.map fun x => x.1) (hg t)
    rwa [Option.map_map, Option.map_map] at hpage
  · have hbase := congrArg (Option.map fun x => x.2.1) (hg t)
    rwa [Option.map_map, Option.map_map] at hbase

theorem sameSlots_update (m : Machine) (t : TaskNr) (f : Task → Task)
    (hf : ∀ τ, footprint (f τ) = footprint τ) :
    SameSlots m.task (m.setTask t ((m.task t).map f)).task := by
  intro s
  by_cases hs : s = t
  · simp only [Machine.setTask, hs, Function.update_self, Option.map_map]
    congr 1
    exact funext hf
  · simp [Machine.setTask, hs]

theorem adoptChild_eq (pid : Int) (m : Machine) (i : TaskNr) :
    ∃ g, adoptChild pid m i = { m with task := g } ∧ SameSlots m.task g := by
  simp only [adoptChild]
  cases hi : m.task i with
  | none => exact ⟨m.task, rfl, fun _ => rfl⟩
  | some τ =>
    by_cases hf : τ.father = pid
    · have hset := sameSlots_update m i (fun σ => { σ with father := 1 }) fun _ => rfl
      rw [hi, Option.map_some] at hset
      simp only [if_pos hf]
      by_cases hz : τ.state = .zombie
      · rw [if_pos hz]
        exact ⟨_, rfl, hset.trans (sameSlots_update _ 1 (·.raise SIGCHLD) fun _ => rfl)⟩
      · rw [if_neg hz]
        exact ⟨_, rfl, hset⟩
    · simp only [if_neg hf]
      exact ⟨m.task, rfl, fun _ => rfl⟩

theorem adoptChildren_eq (pid : Int) (m : Machine) (l : List TaskNr) :
    ∃ g, l.foldl (adoptChild pid) m = { m with task := g } ∧ SameSlots m.task g := by
  induction l generalizing m with
  | nil => exact ⟨m.task, rfl, fun _ => rfl⟩
  | cons i l ih =>
    obtain ⟨g, hg, hsame⟩ := adoptChild_eq pid m i
    obtain ⟨g', hg', hsame'⟩ := ih (adoptChild pid m i)
    rw [hg] at hg' hsame'
    rw [List.foldl_cons, hg]
    exact ⟨g', hg', hsame.trans hsame'⟩

structure Released (c : Config) (t : TaskNr) (m m' : Machine) : Prop where
  inv : Inv c [] m'
  task : m'.task = Function.update m.task t none
  view : ∀ i k j, view m' i k j = view m i k j

theorem slot_unique {held : List Nat} {σ : Task} (h : Inv c held m) (ht : t ≠ 0) (hs : s ≠ 0)
    (hτ : m.task t = some τ) (hσ : m.task s = some σ) (hpage : σ.page = τ.page) : s = t := by
  have htarget : target m (.inr (.inr t)) = some τ.page := by simp [target, slotTarget, ht, hτ]
  have hstarget : target m (.inr (.inr s)) = some τ.page := by
    simp [target, slotTarget, hs, hσ, hpage]
  have hone := h.valid.sole (.inr (.inr t)) _ trivial htarget
  simpa using h.ref_unique hone htarget hstarget

theorem release_spec (h : Inv c [] m) (ht : t ≠ 0) (hτ : m.task t = some τ)
    (habs : ¬ hasTable m (slotDir t)) :
    ∃ m', releaseUntilSchedule τ.page m = .ok m' ∧ Released c t m m' := by
  have hempty := h.emptySlot ht hτ habs
  have hself : isTask m τ.page t := ⟨τ, hτ, rfl⟩
  refine ⟨_, ?_, hempty.drop, rfl, fun _ _ _ => rfl⟩
  simp only [releaseUntilSchedule]
  cases hf : (List.finRange NR_TASKS).find? fun i => i ≠ 0 ∧ isTask m τ.page i with
  | none =>
    have hno := List.find?_eq_none.mp hf t (List.mem_finRange t)
    simp [ht, hself] at hno
  | some i =>
    have hi := List.find?_some hf
    simp only [decide_eq_true_eq] at hi
    obtain ⟨hi, σ, hσ, hpage⟩ := hi
    obtain rfl := slot_unique h ht hi hτ hσ hpage
    exact hempty.freePage

/-- What `do_exit` does: the task is gone, and no other task sees a difference. -/
structure Exited (c : Config) (t : TaskNr) (m m' : Machine) : Prop where
  inv : Inv c [] m'
  live : ∀ s, Live m' s ↔ Live m s ∧ s ≠ t
  view : ∀ i k j, i ≠ slotDir t → view m' i k j = view m i k j

theorem live_setTask {s : TaskNr} (o : Option Task) (ho : ∀ σ, o = some σ → σ.state = .zombie) :
    Live (m.setTask t o) s ↔ Live m s ∧ s ≠ t := by
  by_cases hs : s = t
  · simp only [Live, Machine.setTask, hs, Function.update_self]
    simp only [ne_eq, not_true_eq_false, and_false, iff_false]
    rintro ⟨σ, hσ, hz⟩
    exact hz (ho σ hσ)
  · simp [Live, Machine.setTask, hs]

theorem live_congr {m' : Machine} (h : m'.task = m.task) (s : TaskNr) : Live m' s ↔ Live m s := by
  simp [Live, h]

theorem tellFather_spec (current : Task) (pid : Int) (h : Inv c [] m) (ht : t ≠ 0)
    (hτ : m.task t = some τ) (hz : τ.state = .zombie) (hpage : τ.page = current.page) :
    ∃ m', tellFather current pid m = .ok m' ∧ Exited c t m m' := by
  have hdead : ∀ s, Live m s → s ≠ t := by
    rintro s ⟨σ, hσ, hσz⟩ hs
    rw [hs, hτ] at hσ
    exact hσz (Option.some.inj hσ ▸ hz)
  simp only [tellFather]
  cases hf : (List.finRange NR_TASKS).find? fun i => pid ≠ 0 ∧
    (m.task i).any fun τ => τ.pid = pid with
  | none =>
    obtain ⟨m', hm', hrel⟩ := release_spec h ht hτ (no_table_of_zombie h hτ hz)
    rw [hpage] at hm'
    refine ⟨m', hm', hrel.inv, fun s => ?_, fun i k j _ => hrel.view i k j⟩
    exact (live_congr hrel.task s).trans (live_setTask none (by simp))
  | some i =>
    have hsame := sameSlots_update m i (·.raise SIGCHLD) fun _ => rfl
    refine ⟨_, rfl, inv_sameSlots h hsame, fun s => ?_, fun _ _ _ _ => rfl⟩
    exact (hsame.live s).trans ⟨fun hs => ⟨hs, hdead s hs⟩, fun hs => hs.1⟩

theorem inv_zombie (h : Inv c [] m) (code : Int) (habs : ¬ hasTable m (slotDir t)) :
    Inv c [] (m.setTask t
      ((m.task t).map fun τ => { τ with state := .zombie, exitCode := code })) := by
  refine h.setTasks (fun s => ?_) (fun s => ?_) fun s σ hσ hz hs => ?_
  · by_cases hst : s = t
    · rw [hst, Function.update_self, Option.map_map]
      rfl
    · rw [Function.update_of_ne hst]
  · by_cases hst : s = t
    · rw [hst, Function.update_self, Option.map_map]
      rfl
    · rw [Function.update_of_ne hst]
  · have hst : s ≠ t := fun e => habs (e ▸ hs)
    exact ⟨σ, by rw [Function.update_of_ne hst, hσ], hz⟩

theorem doExit_spec {current : Task} (code : Int) (h : Inv c [] m) (ht : t ≠ 0)
    (hτ : m.task t = some current) : ∃ m', doExit t current code m = .ok m' ∧ Exited c t m m' := by
  have hbase := h.base t current hτ
  obtain ⟨m₁, hm₁, hfreed₁⟩ := h.freePageTables ht
  obtain ⟨m₂, hm₂, hfreed₂⟩ := hfreed₁.inv.freePageTables ht
  have htask₂ : m₂.task = m.task := hfreed₂.task.trans hfreed₁.task
  obtain ⟨g, hg, hsame⟩ := adoptChildren_eq current.pid m₂ (List.finRange NR_TASKS)
  have hinv₃ := inv_sameSlots hfreed₂.inv hsame
  have habs₃ : ¬ hasTable { m₂ with task := g } (slotDir t) := hfreed₂.gone
  have hlive₃ : ∀ s, Live { m₂ with task := g } s ↔ Live m s := fun s =>
    (hsame.live s).trans (live_congr htask₂ s)
  obtain ⟨τ, hgt, hpage⟩ : ∃ τ, g t = some τ ∧ τ.page = current.page := by
    have hfoot := hsame t
    rw [htask₂, hτ, Option.map_some, Option.map_eq_some_iff] at hfoot
    obtain ⟨τ, hgt, hfoot⟩ := hfoot
    exact ⟨τ, hgt, (Prod.mk.inj hfoot).1⟩
  have hinv₄ := inv_zombie hinv₃ code habs₃
  simp only [hgt, Option.map_some] at hinv₄
  set m₄ := Machine.setTask { m₂ with task := g } t
    (some { τ with state := .zombie, exitCode := code }) with hm₄
  have htask₄ : m₄.task t = some { τ with state := .zombie, exitCode := code } := by
    simp [hm₄, Machine.setTask]
  obtain ⟨m', hm', hex⟩ := tellFather_spec current current.father hinv₄ ht htask₄ rfl hpage
  refine ⟨m', ?_, hex.inv, fun s => ?_, fun i k j hi => ?_⟩
  · rw [doExit, hbase, hm₁, ok_bind, hm₂, ok_bind, hg]
    simp only [hgt, Option.map_some]
    exact hm'
  · rw [hex.live, live_setTask _ (by simp), hlive₃]
    tauto
  · exact (hex.view i k j hi).trans ((hfreed₂.view i k j hi).trans (hfreed₁.view i k j hi))

end Hios.Kernel
