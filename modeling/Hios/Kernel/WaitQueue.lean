import Hios.Lib.Run
import Mathlib.Logic.Function.Basic
import Mathlib.Logic.Relation
import Mathlib.Tactic.Tauto

/-! One wait queue of `kernel/sched.c`: the head `*p` and the `tmp` each sleeper
keeps on its own stack. A call is cut in two at its `schedule()`. -/
namespace Hios.WaitQueue
open Hios.Run
variable {τ : Type*} [DecidableEq τ]

inductive TaskState where
  | running | interruptible | uninterruptible | zombie | stopped
  deriving DecidableEq

inductive SleepKind where
  | sleepOn | interruptibleSleepOn
  deriving DecidableEq

/-- The activation record of a sleeper: which function it is in, and its `tmp`. -/
structure Sleeper (τ : Type*) where
  kind : SleepKind
  tmp : Option τ
  deriving DecidableEq

/-- `frame t` is present from the time `t` enters a sleep on this queue until
the call returns. -/
structure Queue (τ : Type*) where
  p : Option τ
  state : τ → TaskState
  frame : τ → Option (Sleeper τ)

def SleepKind.state : SleepKind → TaskState
  | .sleepOn => .uninterruptible
  | .interruptibleSleepOn => .interruptible

def setRunning (o : Option τ) (state : τ → TaskState) : τ → TaskState :=
  match o with
  | none => state
  | some u => Function.update state u .running

/-- `tmp = *p; *p = current;` and the sleeping state. -/
def push (k : SleepKind) (t : τ) (q : Queue τ) : Queue τ :=
  { p := some t
    state := Function.update q.state t k.state
    frame := Function.update q.frame t (some ⟨k, q.p⟩) }

/-- Both functions up to `schedule()`. Task 0 panics. -/
def enter (initTask : τ) (k : SleepKind) (t : τ) (q : Queue τ) : Option (Queue τ) :=
  if t = initTask then none
  else if q.frame t = none ∧ q.state t = .running then some (push k t q)
  else none

def wakeUp (q : Queue τ) : Queue τ :=
  { q with p := none, state := setRunning q.p q.state }

/-- `*p = tmp; if (tmp) tmp->state = TASK_RUNNING`, and the call returns. -/
def restore (t : τ) (tmp : Option τ) (q : Queue τ) : Queue τ :=
  { p := tmp
    state := setRunning tmp q.state
    frame := Function.update q.frame t none }

/-- The branch `(**p).state = TASK_RUNNING; goto repeat` of
`interruptible_sleep_on`, up to the next `schedule()`. -/
def sleepAgain (t : τ) (q : Queue τ) : Queue τ :=
  { q with state := Function.update (setRunning q.p q.state) t .interruptible }

def resume (t : τ) (q : Queue τ) : Option (Queue τ) :=
  match q.frame t with
  | none => none
  | some f =>
    if q.state t = .running then
      match f.kind with
      | .sleepOn => some (restore t f.tmp q)
      | .interruptibleSleepOn =>
        if q.p ≠ none ∧ q.p ≠ some t then some (sleepAgain t q)
        else some (restore t f.tmp q)
    else none

/-- The first loop of `schedule()`: a pending signal makes an interruptible
sleeper runnable. -/
def signal (t : τ) (q : Queue τ) : Option (Queue τ) :=
  if q.frame t ≠ none ∧ q.state t = .interruptible then
    some { q with state := Function.update q.state t .running }
  else none

inductive Act (τ : Type*) where
  | enter (k : SleepKind) (t : τ)
  | wakeUp
  | signal (t : τ)
  | resume (t : τ)

def step (initTask : τ) (q : Queue τ) : Act τ → Option (Queue τ)
  | .enter k t => enter initTask k t q
  | .wakeUp => some (wakeUp q)
  | .signal t => signal t q
  | .resume t => resume t q

def empty (state : τ → TaskState) : Queue τ := ⟨none, state, fun _ => none⟩

def Asleep (q : Queue τ) (t : τ) : Prop := q.frame t ≠ none ∧ q.state t ≠ .running
def Woken (q : Queue τ) (t : τ) : Prop := q.frame t ≠ none ∧ q.state t = .running

instance (q : Queue τ) (t : τ) : Decidable (Asleep q t) :=
  inferInstanceAs (Decidable (_ ∧ _))

instance (q : Queue τ) (t : τ) : Decidable (Woken q t) :=
  inferInstanceAs (Decidable (_ ∧ _))

def Link (q : Queue τ) (x y : τ) : Prop := ∃ f, q.frame x = some f ∧ f.tmp = some y

def Linked (q : Queue τ) : τ → τ → Prop := Relation.ReflTransGen (Link q)

def FromHead (q : Queue τ) (y : τ) : Prop := ∃ x, q.p = some x ∧ Linked q x y
def FromWoken (q : Queue τ) (y : τ) : Prop := ∃ w, Woken q w ∧ Linked q w y

def Covered (q : Queue τ) : Prop := ∀ t, Asleep q t → FromHead q t ∨ FromWoken q t

/-- Nobody sleeps on a queue that is `NULL` and has no woken task left to pass
the wake-up on. -/
def NoneStranded (q : Queue τ) : Prop :=
  q.p = none → (∀ w, ¬ Woken q w) → ∀ t, ¬ Asleep q t

omit [DecidableEq τ] in
theorem Covered.noneStranded {q : Queue τ} (h : Covered q) : NoneStranded q := by
  intro hp hw t ht
  rcases h t ht with ⟨x, hx, -⟩ | ⟨w, hw', -⟩
  · simp [hp] at hx
  · exact hw w hw'

/-- What a task resuming in `sleep_on` must find: the sleeper that `*p` names,
if there is one, is also linked from `tmp` or from another woken task. -/
def HeadKept (q : Queue τ) (t : τ) (tmp : Option τ) : Prop :=
  ∀ u, q.p = some u → Asleep q u →
    (∃ x, tmp = some x ∧ Linked q x u) ∨ ∃ w, w ≠ t ∧ Woken q w ∧ Linked q w u

/-- What a task taking the `repeat` branch must find: it is itself linked from
`*p` or from another woken task. -/
def SelfKept (q : Queue τ) (t : τ) : Prop :=
  FromHead q t ∨ ∃ w, w ≠ t ∧ Woken q w ∧ Linked q w t

def ResumeKeeps (q : Queue τ) : Act τ → Prop
  | .resume t => ∀ f, q.frame t = some f →
    match f.kind with
    | .sleepOn => HeadKept q t f.tmp
    | .interruptibleSleepOn => q.p = none ∨ q.p = some t ∨ SelfKept q t
  | _ => True

theorem setRunning_eq_running {o : Option τ} {state : τ → TaskState} {x : τ} :
    setRunning o state x = .running ↔ o = some x ∨ state x = .running := by
  cases o with
  | none => simp [setRunning]
  | some u =>
    by_cases hx : x = u
    · simp [setRunning, hx]
    · simp [setRunning, hx, Ne.symm hx]

theorem link_restore {q : Queue τ} {t : τ} {tmp : Option τ} {x y : τ} :
    Link (restore t tmp q) x y ↔ x ≠ t ∧ Link q x y := by
  by_cases hx : x = t
  · simp [Link, restore, hx]
  · simp [Link, restore, hx]

theorem linked_of_restore {q : Queue τ} {t : τ} {tmp : Option τ} {x y : τ}
    (h : Linked (restore t tmp q) x y) : Linked q x y :=
  Relation.ReflTransGen.mono (fun _ _ h => (link_restore.mp h).2) _ _ h

/-- A chain of links survives the return of `t`, up to the place where it
passes through `t`; from there on it hangs below the restored head. -/
theorem linked_restore {q : Queue τ} {t : τ} {f : Sleeper τ} (hf : q.frame t = some f)
    {x y : τ} (h : Linked q x y) :
    y = t ∨ Linked (restore t f.tmp q) x y ∨ FromHead (restore t f.tmp q) y := by
  induction h using Relation.ReflTransGen.head_induction_on with
  | refl => exact .inr (.inl .refl)
  | @head x z hxz _ ih =>
    rcases ih with hy | hz | hhead
    · exact .inl hy
    · by_cases hx : x = t
      · subst hx
        obtain ⟨g, hg, hgz⟩ := hxz
        obtain rfl : f = g := by simpa [hf] using hg
        exact .inr (.inr ⟨z, hgz, hz⟩)
      · exact .inr (.inl (.head (link_restore.mpr ⟨hx, hxz⟩) hz))
    · exact .inr (.inr hhead)

theorem asleep_restore {q : Queue τ} {t : τ} {tmp : Option τ} {y : τ} :
    Asleep (restore t tmp q) y ↔ y ≠ t ∧ tmp ≠ some y ∧ Asleep q y := by
  have hr : setRunning tmp q.state y = .running ↔ _ := setRunning_eq_running
  by_cases hy : y = t
  · simp [Asleep, restore, hy]
  · simp only [Asleep, restore, ne_eq, Function.update_of_ne hy, hr, hy]
    tauto

theorem woken_restore {q : Queue τ} {t : τ} {tmp : Option τ} {w : τ} :
    Woken (restore t tmp q) w ↔ w ≠ t ∧ q.frame w ≠ none ∧
    (tmp = some w ∨ q.state w = .running) := by
  by_cases hw : w = t
  · simp [Woken, restore, hw]
  · simp [Woken, restore, hw, setRunning_eq_running]

theorem found_restore {q : Queue τ} {t : τ} {f : Sleeper τ} (hf : q.frame t = some f)
    {w y : τ} (hy : y ≠ t) (hw : Woken q w) (h : Linked q w y) :
    FromHead (restore t f.tmp q) y ∨ FromWoken (restore t f.tmp q) y := by
  by_cases hwt : w = t
  · subst hwt
    rcases Relation.ReflTransGen.cases_head h with rfl | ⟨z, ⟨g, hg, hgz⟩, hz⟩
    · exact absurd rfl hy
    · obtain rfl : f = g := by simpa [hf] using hg
      rcases linked_restore hf hz with h' | h' | h'
      · exact absurd h' hy
      · exact .inl ⟨z, hgz, h'⟩
      · exact .inl h'
  · rcases linked_restore hf h with h' | h' | h'
    · exact absurd h' hy
    · exact .inr ⟨w, woken_restore.mpr ⟨hwt, hw.1, .inr hw.2⟩, h'⟩
    · exact .inl h'

/-- The store `*p = tmp` keeps every sleeper linked exactly when the sleeper it
overwrites is linked from elsewhere. -/
theorem covered_restore_iff {q : Queue τ} {t : τ} {f : Sleeper τ} (hf : q.frame t = some f)
    (ht : q.state t = .running) (hq : Covered q) :
    Covered (restore t f.tmp q) ↔ HeadKept q t f.tmp := by
  constructor
  · intro h u hu hasleep
    have hut : u ≠ t := fun e => hasleep.2 (e ▸ ht)
    by_cases htmp : f.tmp = some u
    · exact .inl ⟨u, htmp, .refl⟩
    · rcases h u (asleep_restore.mpr ⟨hut, htmp, hasleep⟩) with ⟨x, hx, hl⟩ | ⟨w, hw, hl⟩
      · exact .inl ⟨x, hx, linked_of_restore hl⟩
      · obtain ⟨hwt, hframe, hw⟩ := woken_restore.mp hw
        rcases hw with hw | hw
        · exact .inl ⟨w, hw, linked_of_restore hl⟩
        · exact .inr ⟨w, hwt, ⟨hframe, hw⟩, linked_of_restore hl⟩
  · intro h y hy
    obtain ⟨hyt, -, hasleep⟩ := asleep_restore.mp hy
    rcases hq y hasleep with ⟨u, hu, hl⟩ | ⟨w, hw, hl⟩
    · by_cases hau : Asleep q u
      · rcases h u hu hau with ⟨x, hx, hxu⟩ | ⟨w, -, hw, hwu⟩
        · rcases linked_restore hf (hxu.trans hl) with h' | h' | h'
          · exact absurd h' hyt
          · exact .inl ⟨x, hx, h'⟩
          · exact .inl h'
        · exact found_restore hf hyt hw (hwu.trans hl)
      · by_cases hfu : q.frame u = none
        · -- a stale head has no link of its own, so the chain ends there
          rcases Relation.ReflTransGen.cases_head hl with rfl | ⟨z, ⟨g, hg, -⟩, -⟩
          · exact absurd hfu hasleep.1
          · simp [hfu] at hg
        · have hrun : q.state u = .running := by
            by_contra hr
            exact hau ⟨hfu, hr⟩
          exact found_restore hf hyt ⟨hfu, hrun⟩ hl
    · exact found_restore hf hyt hw hl

omit [DecidableEq τ] in
theorem headKept_of_own_head {q : Queue τ} {t : τ} {tmp : Option τ} (ht : q.state t = .running)
    (hp : q.p = none ∨ q.p = some t) : HeadKept q t tmp := by
  intro u hu hasleep
  rcases hp with hp | hp
  · simp [hp] at hu
  · obtain rfl : t = u := by simpa [hp] using hu
    exact absurd ht hasleep.2

theorem woken_sleepAgain {q : Queue τ} {t w : τ} :
    Woken (sleepAgain t q) w ↔ w ≠ t ∧ q.frame w ≠ none ∧
    (q.p = some w ∨ q.state w = .running) := by
  by_cases hw : w = t
  · simp [Woken, sleepAgain, hw]
  · simp [Woken, sleepAgain, hw, setRunning_eq_running]

/-- Going back to sleep keeps every sleeper linked exactly when the task itself
is linked from the head or from another woken task. -/
theorem covered_sleepAgain_iff {q : Queue τ} {t : τ} {f : Sleeper τ} (hf : q.frame t = some f)
    (hq : Covered q) : Covered (sleepAgain t q) ↔ SelfKept q t := by
  constructor
  · intro h
    have hasleep : Asleep (sleepAgain t q) t := by simp [Asleep, sleepAgain, hf]
    rcases h t hasleep with hhead | ⟨w, hw, hl⟩
    · exact .inl hhead
    · obtain ⟨hwt, hframe, hw⟩ := woken_sleepAgain.mp hw
      rcases hw with hw | hw
      · exact .inl ⟨w, hw, hl⟩
      · exact .inr ⟨w, hwt, ⟨hframe, hw⟩, hl⟩
  · intro h
    have hself : FromHead (sleepAgain t q) t ∨ FromWoken (sleepAgain t q) t := by
      rcases h with hhead | ⟨w, hwt, hw, hl⟩
      · exact .inl hhead
      · exact .inr ⟨w, woken_sleepAgain.mpr ⟨hwt, hw.1, .inr hw.2⟩, hl⟩
    intro y hy
    by_cases hyt : y = t
    · exact hyt ▸ hself
    · have hasleep : Asleep q y := by
        refine ⟨hy.1, fun hrun => hy.2 ?_⟩
        simp [sleepAgain, hyt, setRunning_eq_running, hrun]
      rcases hq y hasleep with hhead | ⟨w, hw, hl⟩
      · exact .inl hhead
      · by_cases hwt : w = t
        · subst hwt
          rcases hself with ⟨x, hx, hxt⟩ | ⟨v, hv, hvt⟩
          · exact .inl ⟨x, hx, hxt.trans hl⟩
          · exact .inr ⟨v, hv, hvt.trans hl⟩
        · exact .inr ⟨w, woken_sleepAgain.mpr ⟨hwt, hw.1, .inr hw.2⟩, hl⟩

theorem linked_push {k : SleepKind} {t : τ} {q : Queue τ} (ht : q.frame t = none) {x y : τ}
    (h : Linked q x y) : Linked (push k t q) x y := by
  refine Relation.ReflTransGen.mono (fun a b ⟨g, hg, hgb⟩ => ?_) _ _ h
  have ha : a ≠ t := fun e => by simp [e, ht] at hg
  exact ⟨g, by simpa [push, ha] using hg, hgb⟩

theorem covered_push {k : SleepKind} {t : τ} {q : Queue τ} (ht : q.frame t = none)
    (hq : Covered q) : Covered (push k t q) := by
  intro y hy
  by_cases hyt : y = t
  · exact .inl ⟨t, rfl, hyt ▸ .refl⟩
  · have hasleep : Asleep q y := by simpa [Asleep, push, hyt] using hy
    rcases hq y hasleep with ⟨x, hx, hl⟩ | ⟨w, hw, hl⟩
    · have hlink : Link (push k t q) t x := ⟨⟨k, q.p⟩, by simp [push], hx⟩
      exact .inl ⟨t, rfl, .head hlink (linked_push ht hl)⟩
    · have hwt : w ≠ t := fun e => hw.1 (e ▸ ht)
      exact .inr ⟨w, by simpa [Woken, push, hwt] using hw, linked_push ht hl⟩

theorem covered_enter {initTask : τ} {k : SleepKind} {t : τ} {q r : Queue τ}
    (h : enter initTask k t q = some r) (hq : Covered q) : Covered r := by
  simp only [enter] at h
  split at h
  · simp at h
  · split at h
    · rename_i hfree
      obtain rfl := Option.some.inj h
      exact covered_push hfree.1 hq
    · simp at h

theorem covered_wakeUp {q : Queue τ} (hq : Covered q) : Covered (wakeUp q) := by
  intro y hy
  have hasleep : Asleep q y := ⟨hy.1, fun h => hy.2 (setRunning_eq_running.mpr (.inr h))⟩
  rcases hq y hasleep with ⟨x, hx, hl⟩ | ⟨w, hw, hl⟩
  · by_cases hfx : q.frame x = none
    · rcases Relation.ReflTransGen.cases_head hl with rfl | ⟨z, ⟨g, hg, -⟩, -⟩
      · exact absurd hfx hasleep.1
      · simp [hfx] at hg
    · exact .inr ⟨x, ⟨hfx, setRunning_eq_running.mpr (.inl hx)⟩, hl⟩
  · exact .inr ⟨w, ⟨hw.1, setRunning_eq_running.mpr (.inr hw.2)⟩, hl⟩

theorem covered_signal {t : τ} {q r : Queue τ} (h : signal t q = some r) (hq : Covered q) :
    Covered r := by
  simp only [signal] at h
  split at h
  · obtain rfl := Option.some.inj h
    intro y hy
    have hyt : y ≠ t := fun e => by simp [Asleep, e] at hy
    have hasleep : Asleep q y := by simpa [Asleep, hyt] using hy
    rcases hq y hasleep with hhead | ⟨w, hw, hl⟩
    · exact .inl hhead
    · exact .inr ⟨w, ⟨hw.1, by by_cases hwt : w = t <;> simp [hwt, hw.2]⟩, hl⟩
  · simp at h

theorem covered_resume_iff {t : τ} {q r : Queue τ} (h : resume t q = some r) (hq : Covered q) :
    Covered r ↔ ResumeKeeps q (.resume t) := by
  cases hf : q.frame t with
  | none => simp [resume, hf] at h
  | some f =>
    simp only [resume, hf] at h
    split at h
    · rename_i ht
      simp only [ResumeKeeps, hf, Option.some.injEq, forall_eq']
      cases hk : f.kind with
      | sleepOn =>
        obtain rfl : restore t f.tmp q = r := by simpa [hk] using h
        exact covered_restore_iff hf ht hq
      | interruptibleSleepOn =>
        simp only [hk] at h
        split at h
        · rename_i hp
          obtain rfl := Option.some.inj h
          rw [covered_sleepAgain_iff hf hq]
          simp [hp.1, hp.2]
        · rename_i hp
          obtain rfl := Option.some.inj h
          have hown : q.p = none ∨ q.p = some t := by tauto
          simp only [(covered_restore_iff hf ht hq).mpr (headKept_of_own_head ht hown), true_iff]
          tauto
    · simp at h

theorem covered_step_iff {initTask : τ} {q r : Queue τ} {a : Act τ} (hq : Covered q)
    (h : step initTask q a = some r) : Covered r ↔ ResumeKeeps q a := by
  cases a with
  | enter k t => simp [ResumeKeeps, covered_enter h hq]
  | wakeUp =>
    obtain rfl := Option.some.inj h
    simp [ResumeKeeps, covered_wakeUp hq]
  | signal t => simp [ResumeKeeps, covered_signal h hq]
  | resume t => exact covered_resume_iff h hq

omit [DecidableEq τ] in
theorem covered_empty (state : τ → TaskState) : Covered (empty state) :=
  fun _ h => absurd rfl h.1

/-- A run from the empty queue keeps every sleeper reachable, and strands none,
exactly when no resumption drops the last link to a sleeper. -/
theorem no_sleeper_lost_iff (initTask : τ) (state : τ → TaskState) (as : List (Act τ)) :
    Always (step initTask) (fun q => Covered q ∧ NoneStranded q) (empty state) as ↔
      StepsMeet (step initTask) ResumeKeeps (empty state) as := by
  refine always_iff_stepsMeet (fun q a r hq h => ?_) as
    ⟨covered_empty state, (covered_empty state).noneStranded⟩
  rw [← covered_step_iff hq.1 h]
  exact ⟨And.left, fun hr => ⟨hr, hr.noneStranded⟩⟩

/-- Task 2 goes to sleep between the wake-up of task 1 and its resumption; the
store of task 1's `tmp` then empties the queue over it. -/
theorem sleeper_lost :
    ∃ q : Queue (Fin 3),
      run (step 0) (empty fun _ => .running)
        [.enter .sleepOn 1, .wakeUp, .enter .sleepOn 2, .resume 1] = some q ∧
      Asleep q 2 ∧ q.p = none ∧ (∀ w, ¬ Woken q w) ∧ ¬ Covered q := by
  refine ⟨_, rfl, by decide, rfl, by decide, fun hc => ?_⟩
  exact hc.noneStranded rfl (by decide) 2 (by decide)

end Hios.WaitQueue
