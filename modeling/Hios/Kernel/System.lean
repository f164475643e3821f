import Hios.Kernel.Processes
import Hios.Lib.Run

/-! The running system: forks, user-mode reads and writes with their page faults,
`verify_area`, exits and releases, in any order. -/
namespace Hios.Kernel
open Hios.Mm Hios.RefCount Hios.Run

def wordIndex (x : Nat) : Fin 1024 := Fin.ofNat 1024 (x / 4)

inductive Event where
  | forked (s t : TaskNr)
  | read (t : TaskNr) (a : Nat) (v : Byte)
  | wrote (t : TaskNr) (a : Nat) (v : Byte)
  | exited (t : TaskNr)
  deriving DecidableEq

inductive Act where
  | fork (s : TaskNr)
  | read (t : TaskNr) (a : Nat)
  | write (t : TaskNr) (a : Nat) (v : Byte)
  | verifyArea (t : TaskNr) (addr size : Nat)
  | exit (t : TaskNr) (code : Int)
  | release (t : TaskNr)

def entryAt (m : Machine) (x : Nat) : Option Word :=
  if present (m.dir (dirIndex x)) then some (m.mem (pageOf (m.dir (dirIndex x))) (tableIndex x))
    else none

def loadByte (m : Machine) (page x : Nat) : Byte := getByte (m.mem page (wordIndex x)) (x % 4)

def storeByte (m : Machine) (page x : Nat) (v : Byte) : Machine :=
  m.setWord page (wordIndex x) (setByte (m.mem page (wordIndex x)) (x % 4) v)

def readUser (x : Nat) (m : Machine) : Except Panic (Option Byte × Machine) :=
  match entryAt m x with
  | some e => if present e then .ok (some (loadByte m (pageOf e) x), m)
    else (doNoPage x m).map (none, ·)
  | none => (doNoPage x m).map (none, ·)

def writeUser (x : Nat) (v : Byte) (m : Machine) : Except Panic (Bool × Machine) :=
  match entryAt m x with
  | some e =>
    if present e then
      if writable e then .ok (true, storeByte m (pageOf e) x v) else (doWpPage x m).map (false, ·)
    else (doNoPage x m).map (false, ·)
  | none => (doNoPage x m).map (false, ·)

def enabled (m : Machine) : Act → Prop
  | .fork s => Live m s
  | .read t a => t ≠ 0 ∧ Live m t ∧ a < m.limit
  | .write t a _ => t ≠ 0 ∧ Live m t ∧ a < m.limit
  | .verifyArea t _ _ => Live m t
  | .exit t _ => t ≠ 0 ∧ Live m t
  | .release t => t ≠ 0 ∧ (m.task t).isSome ∧ ¬ Live m t

instance (m : Machine) : DecidablePred (enabled m)
  | .fork s => inferInstanceAs (Decidable (Live m s))
  | .read t a => inferInstanceAs (Decidable (t ≠ 0 ∧ Live m t ∧ a < m.limit))
  | .write t a _ => inferInstanceAs (Decidable (t ≠ 0 ∧ Live m t ∧ a < m.limit))
  | .verifyArea t _ _ => inferInstanceAs (Decidable (Live m t))
  | .exit t _ => inferInstanceAs (Decidable (t ≠ 0 ∧ Live m t))
  | .release t => inferInstanceAs (Decidable (t ≠ 0 ∧ (m.task t).isSome ∧ ¬ Live m t))

def asTask (m : Machine) (t : TaskNr) (f : Task → Except Panic (Option Event × Machine)) :
    Except Panic (Option Event × Machine) :=
  match m.task t with
  | some τ => f τ
  | none => .ok (none, m)

def perform (m : Machine) : Act → Except Panic (Option Event × Machine)
  | .fork s => asTask m s fun τ =>
    (sysFork τ m).map fun r => ((filledSlot m r.2).map (.forked s), r.2)
  | .read t a => asTask m t fun τ =>
    (readUser (τ.base + a) m).map fun r => (r.1.map (.read t a), r.2)
  | .write t a v => asTask m t fun τ =>
    (writeUser (τ.base + a) v m).map fun r => (if r.1 then some (.wrote t a v) else none, r.2)
  | .verifyArea t addr size => asTask m t fun τ => (verifyArea τ addr size m).map (none, ·)
  | .exit t code => asTask m t fun τ => (doExit t τ code m).map (some (.exited t), ·)
  | .release t => asTask m t fun τ => (releaseUntilSchedule τ.page m).map (none, ·)

/-- A panic ends the run. -/
def step (m : Machine) (a : Act) : Option (Option Event × Machine) :=
  if enabled m a then (perform m a).toOption else none

def initTask : Task :=
  { state := .running, counter := 15, priority := 15, signal := 0, exitCode := 0,
    pid := 0, father := -1, pgrp := 0, leader := 0, alarm := 0,
    utime := 0, stime := 0, cutime := 0, cstime := 0, startTime := 0, base := 0, page := 0 }

def boot (c : Config) : Machine :=
  memInit LOW_MEM c.high
    { dir := bootDir, mem := c.low, memMap := fun _ => 0, highMemory := 0, limit := c.limit,
      wrapped := false, task := fun t => if t = 0 then some initTask else none,
      lastPid := 0, jiffies := 0 }

variable {c : Config} {m : Machine} {s t : TaskNr}

theorem no_table_boot (c : Config) (i : Fin 1024) : ¬ hasTable (boot c) i := by
  rintro ⟨hi, hp⟩
  have hdir : (boot c).dir i = bootDir i := rfl
  have h4 : ¬ i.val < 4 := by omega
  simp [hdir, bootDir, h4] at hp

theorem target_boot (c : Config) (r : Ref) : target (boot c) r = none := by
  match r with
  | .inl x => simp [target, pteTarget, no_table_boot]
  | .inr (.inl i) => simp [target, dirTarget, no_table_boot]
  | .inr (.inr t) =>
    by_cases ht : t = 0
    · simp [target, slotTarget, ht]
    · simp [target, slotTarget, ht, boot, memInit]

theorem inv_boot (c : Config) : Inv c [] (boot c) := by
  have hcount : ∀ f, count (boot c) f = 0 := by
    intro f
    by_cases hf : LOW_MEM ≤ f ∧ f < c.high
    · have hin : f - LOW_MEM < c.high - LOW_MEM := by omega
      simp [count, boot, memInit, hf, mapNr, hin]
    · simp [count, boot, memInit, hf]
  refine ⟨rfl, rfl, rfl, fun _ _ _ => rfl, fun _ _ => rfl, fun n hn => ?_, ⟨fun f => ?_, ?_⟩,
    ?_, by simp,
    fun i hi => absurd hi (no_table_boot c i), fun i _ hi => absurd hi (no_table_boot c i), ?_, ?_⟩
  · have hout : ¬ n < c.high - LOW_MEM := by omega
    simp [boot, memInit, mapNr, hout, USED]
  · have hrefs : refs (target (boot c)) f = 0 := refs_eq_zero.mpr fun r => by simp [target_boot]
    simp [references, hcount, hrefs]
  · intro r f _ hr
    simp [references, target_boot] at hr
  · intro r f hr
    simp [target_boot] at hr
  · intro i k k' f hf
    simp [pteTarget, no_table_boot] at hf
  · intro t τ hτ
    by_cases ht : t = 0
    · simp only [boot, memInit, ht, if_true, Option.some.injEq] at hτ
      rw [← hτ, ht]
      rfl
    · simp [boot, memInit, ht] at hτ

theorem dirIndex_linear (t : TaskNr) {a : Nat} (ha : a < c.limit) :
    dirIndex (newBase t + a) = slotDir t := by
  have hle := c.limit_le
  have ht := t.isLt
  simp only [NR_TASKS] at ht
  refine Fin.ext ?_
  simp only [dirIndex, Fin.ofNat, newBase, slotDir]
  omega

theorem tableIndex_linear (t : TaskNr) (a : Nat) : tableIndex (newBase t + a) = tableIndex a := by
  refine Fin.ext ?_
  simp only [tableIndex, Fin.ofNat, newBase]
  omega

theorem wordIndex_linear (t : TaskNr) (a : Nat) : wordIndex (newBase t + a) = wordIndex a := by
  refine Fin.ext ?_
  simp only [wordIndex, Fin.ofNat, newBase]
  omega

theorem byteIndex_linear (t : TaskNr) (a : Nat) : (newBase t + a) % 4 = a % 4 := by
  simp only [newBase]
  omega

theorem index_inj {a a' : Nat} (ha : a < c.limit) (ha' : a' < c.limit)
    (hk : tableIndex a' = tableIndex a) (hj : wordIndex a' = wordIndex a) (hb : a' % 4 = a % 4) :
    a' = a := by
  have hle := c.limit_le
  have hk' := congrArg Fin.val hk
  have hj' := congrArg Fin.val hj
  simp only [tableIndex, wordIndex, Fin.ofNat] at hk' hj'
  omega

def viewByte (m : Machine) (t : TaskNr) (a : Nat) : Byte :=
  getByte (view m (slotDir t) (tableIndex a) (wordIndex a)) (a % 4)

theorem viewByte_congr {m' : Machine}
    (h : ∀ k j, view m' (slotDir t) k j = view m (slotDir t) k j) (a : Nat) :
    viewByte m' t a = viewByte m t a := by
  simp [viewByte, h]

def inheritedByte (c : Config) (m : Machine) (s : TaskNr) (a : Nat) : Byte :=
  getByte (inherited c m s (tableIndex a) (wordIndex a)) (a % 4)

inductive Effect (c : Config) (m : Machine) : Option Event → Machine → Prop
  | silent {m' : Machine} (inv : Inv c [] m') (live : ∀ u, Live m' u ↔ Live m u)
      (view : ∀ i k j, view m' i k j = view m i k j) : Effect c m none m'
  | forked {s t : TaskNr} {m' : Machine} (inv : Inv c [] m') (ht : t ≠ 0) (parent : Live m s)
      (free : ¬ Live m t) (live : ∀ u, Live m' u ↔ Live m u ∨ u = t)
      (view : ∀ u, u ≠ t → ∀ a, viewByte m' u a = viewByte m u a)
      (child : ∀ a, viewByte m' t a = inheritedByte c m s a) : Effect c m (some (.forked s t)) m'
  | read {t : TaskNr} {a : Nat} (inv : Inv c [] m) (ht : t ≠ 0) (live : Live m t)
    (ha : a < c.limit) :
      Effect c m (some (.read t a (viewByte m t a))) m
  | wrote {t : TaskNr} {a : Nat} {v : Byte} {m' : Machine} (inv : Inv c [] m') (ht : t ≠ 0)
    (own : Live m t)
      (ha : a < c.limit) (live : ∀ u, Live m' u ↔ Live m u)
      (view : ∀ u, ∀ a' < c.limit, viewByte m' u a' = if u = t ∧ a' = a then v
        else viewByte m u a') :
      Effect c m (some (.wrote t a v)) m'
  | exited {t : TaskNr} {m' : Machine} (inv : Inv c [] m') (ht : t ≠ 0) (own : Live m t)
      (live : ∀ u, Live m' u ↔ Live m u ∧ u ≠ t)
      (view : ∀ u, u ≠ t → ∀ a, viewByte m' u a = viewByte m u a) : Effect c m (some (.exited t)) m'

theorem Effect.inv {e : Option Event} {m' : Machine} (h : Effect c m e m') : Inv c [] m' := by
  cases h with
  | silent inv _ _ => exact inv
  | forked inv _ _ _ _ _ _ => exact inv
  | read inv _ _ _ => exact inv
  | wrote inv _ _ _ _ _ => exact inv
  | exited inv _ _ _ _ => exact inv

theorem Effect.of_quiet {m' : Machine} (h : Quiet c m m') : Effect c m none m' :=
  .silent h.inv (live_congr h.task) h.view

theorem fork_effect {τ : Task} (h : Inv c [] m) (hτ : m.task s = some τ) (hz : τ.state ≠ .zombie) :
    Holds (fun r => Effect c m r.1 r.2)
      ((sysFork τ m).map fun r => ((filledSlot m r.2).map (.forked s), r.2)) := by
  refine (sysFork_spec h hτ).map fun r hr => ?_
  cases hslot : filledSlot m r.2 with
  | none =>
    rw [hslot] at hr
    exact .silent hr.inv (live_congr (hr.failed rfl)) fun i k j => hr.view i k j (by simp)
  | some t =>
    rw [hslot] at hr
    obtain ⟨ht, hfree, p, hp, hrun, hview⟩ := hr.child t rfl
    refine .forked hr.inv ht ⟨τ, hτ, hz⟩ (by simp [Live, hfree]) (fun u => ?_)
      (fun u hu a => ?_) fun a => ?_
    · by_cases hu : u = t
      · simp [Live, hp, hu, hrun]
      · simp [Live, hp, hu]
    · exact viewByte_congr (fun k j => hr.view _ k j fun nr hnr e =>
        hu ((slotDir_inj e).trans (Option.some.inj hnr).symm)) a
    · simp [viewByte, inheritedByte, hview]

theorem entryAt_linear (ht : t ≠ 0) {a : Nat} (ha : a < c.limit) :
    entryAt m (newBase t + a) =
      if hasTable m (slotDir t) then some (pte m (slotDir t) (tableIndex a)) else none := by
  have hge := slotDir_ge ht
  simp [entryAt, dirIndex_linear t ha, tableIndex_linear, hasTable, hge, pte]

theorem noPage_effect {α : Type} (o : α) {τ : Task} {a : Nat} (h : Inv c [] m) (ht : t ≠ 0)
    (hτ : m.task t = some τ) (hz : τ.state ≠ .zombie) (ha : a < c.limit)
    (habs : ¬ (hasTable m (slotDir t) ∧ present (pte m (slotDir t) (tableIndex a)))) :
    Holds (fun r => r.1 = o ∧ Effect c m none r.2) ((doNoPage (newBase t + a) m).map (o, ·)) := by
  rw [← tableIndex_linear t a] at habs
  exact (h.doNoPage ht hτ hz (dirIndex_linear t ha) habs).map fun m' hm' =>
    ⟨rfl, .of_quiet hm'.quiet⟩

theorem read_effect {τ : Task} {a : Nat} (h : Inv c [] m) (ht : t ≠ 0) (hτ : m.task t = some τ)
    (hz : τ.state ≠ .zombie) (ha : a < c.limit) :
    Holds (fun r => Effect c m r.1 r.2)
      ((readUser (τ.base + a) m).map fun r => (r.1.map (.read t a), r.2)) := by
  have hfault := noPage_effect (none : Option Byte) h ht hτ hz ha
  have hdone : ∀ r : Option Byte × Machine, r.1 = none ∧ Effect c m none r.2 →
      Effect c m (r.1.map (.read t a)) r.2 := fun r ⟨hr, he⟩ => by
    rw [hr]
    exact he
  rw [h.base t τ hτ, readUser, entryAt_linear ht ha]
  by_cases hi : hasTable m (slotDir t)
  · simp only [if_pos hi]
    by_cases hp : present (pte m (slotDir t) (tableIndex a))
    · simp only [if_pos hp]
      have hbyte : loadByte m (pageOf (pte m (slotDir t) (tableIndex a))) (newBase t + a) =
          viewByte m t a := by
        simp [loadByte, viewByte, view, hi, hp, wordIndex_linear, byteIndex_linear]
      rw [hbyte]
      exact .read h ht ⟨τ, hτ, hz⟩ ha
    · simp only [if_neg hp]
      exact (hfault fun e => hp e.2).map hdone
  · simp only [if_neg hi]
    exact (hfault fun e => hi e.1).map hdone

theorem store_effect {a : Nat} (v : Byte) (h : Inv c [] m) (ht : t ≠ 0) (hl : Live m t)
    (ha : a < c.limit) (hp : Private m (slotDir t) (tableIndex a)) :
    Effect c m (some (.wrote t a v))
      (storeByte m (pageOf (pte m (slotDir t) (tableIndex a))) (newBase t + a) v) := by
  obtain ⟨⟨hlow, -⟩, hone⟩ := h.private_count hp
  obtain ⟨hi, hpr, -⟩ := hp
  set f := pageOf (pte m (slotDir t) (tableIndex a)) with hf
  have hview : view m (slotDir t) (tableIndex a) = m.mem f := by
    funext j
    simp [view, hi, hpr, hf]
  set x := Function.update (m.mem f) (wordIndex a)
    (setByte (m.mem f (wordIndex a)) (a % 4) v) with hx
  have hstore := h.store hi hpr hlow hone x
  have hset : storeByte m f (newBase t + a) v = Machine.setPage m f x := by
    simp only [storeByte, wordIndex_linear, byteIndex_linear]
    rfl
  rw [hset]
  refine .wrote hstore.1 ht hl ha (fun u => .rfl) fun u a' ha' => ?_
  rw [viewByte, hstore.2, viewByte]
  by_cases hu : u = t
  · subst hu
    by_cases hk : tableIndex a' = tableIndex a
    · rw [if_pos ⟨rfl, hk⟩, hk, hview, hx]
      by_cases hj : wordIndex a' = wordIndex a
      · rw [hj, Function.update_self, getByte_setByte _ _ (Nat.mod_lt _ (by omega))]
        by_cases hb : a % 4 = a' % 4
        · rw [if_pos hb, if_pos ⟨rfl, index_inj ha ha' hk hj hb.symm⟩]
        · rw [if_neg hb, if_neg fun e => hb (by rw [e.2])]
      · rw [Function.update_of_ne hj, if_neg fun e => hj (by rw [e.2])]
    · rw [if_neg fun e => hk e.2, if_neg fun e => hk (by rw [e.2])]
  · rw [if_neg fun e => hu (slotDir_inj e.1), if_neg fun e => hu e.1]

theorem write_effect {τ : Task} {a : Nat} (v : Byte) (h : Inv c [] m) (ht : t ≠ 0)
    (hτ : m.task t = some τ) (hz : τ.state ≠ .zombie) (ha : a < c.limit) :
    Holds (fun r => Effect c m r.1 r.2)
      ((writeUser (τ.base + a) v m).map fun r =>
        (if r.1 then some (.wrote t a v) else none, r.2)) := by
  have hfault := noPage_effect false h ht hτ hz ha
  have hdone : ∀ r : Bool × Machine, r.1 = false ∧ Effect c m none r.2 →
      Effect c m (if r.1 then some (.wrote t a v) else none) r.2 := fun r ⟨hr, he⟩ => by
    rw [hr]
    exact he
  rw [h.base t τ hτ, writeUser, entryAt_linear ht ha]
  by_cases hi : hasTable m (slotDir t)
  · simp only [if_pos hi]
    by_cases hp : present (pte m (slotDir t) (tableIndex a))
    · simp only [if_pos hp]
      by_cases hw : writable (pte m (slotDir t) (tableIndex a))
      · simp only [if_pos hw]
        exact store_effect v h ht ⟨τ, hτ, hz⟩ ha ⟨hi, hp, hw⟩
      · simp only [if_neg hw, doWpPage, dirIndex_linear t ha, tableIndex_linear]
        have hcopy := (h.unshare hi hp).map (R := fun r : Bool × Machine => r.1 = false ∧
          Effect c m none r.2)
          (f := fun m' => (false, m')) fun m' hm' => ⟨rfl, .of_quiet hm'.quiet⟩
        exact hcopy.map hdone
    · simp only [if_neg hp]
      exact (hfault fun e => hp e.2).map hdone
  · simp only [if_neg hi]
    exact (hfault fun e => hi e.1).map hdone

theorem perform_effect {a : Act} (h : Inv c [] m) (he : enabled m a) :
    Holds (fun r => Effect c m r.1 r.2) (perform m a) := by
  cases a with
  | fork s =>
    obtain ⟨τ, hτ, hz⟩ := he
    simp only [perform, asTask, hτ]
    exact fork_effect h hτ hz
  | read t a =>
    obtain ⟨ht, ⟨τ, hτ, hz⟩, ha⟩ := he
    simp only [perform, asTask, hτ]
    exact read_effect h ht hτ hz (h.limit ▸ ha)
  | write t a v =>
    obtain ⟨ht, ⟨τ, hτ, hz⟩, ha⟩ := he
    simp only [perform, asTask, hτ]
    exact write_effect v h ht hτ hz (h.limit ▸ ha)
  | verifyArea t addr size =>
    obtain ⟨τ, hτ, -⟩ := he
    simp only [perform, asTask, hτ, verifyArea]
    exact (h.verifyLoop _ _).map fun m' hm' => .of_quiet hm'.1.quiet
  | exit t code =>
    obtain ⟨ht, τ, hτ, hz⟩ := he
    obtain ⟨m', hm', hex⟩ := doExit_spec code h ht hτ
    simp only [perform, asTask, hτ, hm']
    refine .exited hex.inv ht ⟨τ, hτ, hz⟩ hex.live fun u hu a => ?_
    exact viewByte_congr (fun k j => hex.view _ k j fun e => hu (slotDir_inj e)) a
  | release t =>
    obtain ⟨ht, hsome, hdead⟩ := he
    obtain ⟨τ, hτ⟩ := Option.isSome_iff_exists.mp hsome
    have hz : τ.state = .zombie := by
      by_contra hz
      exact hdead ⟨τ, hτ, hz⟩
    obtain ⟨m', hm', hrel⟩ := release_spec h ht hτ (no_table_of_zombie h hτ hz)
    simp only [perform, asTask, hτ, hm']
    refine .silent hrel.inv (fun u => ?_) hrel.view
    refine ((live_congr hrel.task u).trans (live_setTask none (by simp))).trans
      ⟨fun hu => hu.1, fun hu => ⟨hu, ?_⟩⟩
    exact fun e => hdead (e ▸ hu)

theorem step_effect {a : Act} {e : Option Event} {m' : Machine} (h : Inv c [] m)
    (hs : step m a = some (e, m')) : Effect c m e m' := by
  by_cases he : enabled m a
  · have hp := perform_effect h he
    rw [step, if_pos he] at hs
    cases hr : perform m a with
    | ok r =>
      rw [hr] at hp hs
      obtain rfl : r = (e, m') := by simpa [Except.toOption] using hs
      exact hp
    | error p =>
      rw [hr] at hs
      simp [Except.toOption] at hs
  · simp [step, he] at hs

end Hios.Kernel
