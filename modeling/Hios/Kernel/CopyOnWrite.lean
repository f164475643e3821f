import Hios.Kernel.System

/-! The counts in `mem_map` are exact in every reachable state, and the running
system refines one in which `fork` copies the whole address space at once. -/
namespace Hios.Kernel
open Hios.Mm Hios.RefCount Hios.Run
variable {c : Config} {m m' : Machine} {t : TaskNr}

/-- The present page-table entries under directory indexes from 16 on that name page `f`. -/
def pteRefs (m : Machine) (f : Nat) : Nat :=
  (Finset.univ.filter fun x : Fin 1024 × Fin 1024 => 16 ≤ x.1.val ∧ present (m.dir x.1) ∧
    present (m.mem (pageOf (m.dir x.1)) x.2) ∧ pageOf (m.mem (pageOf (m.dir x.1)) x.2) = f).card

def dirRefs (m : Machine) (f : Nat) : Nat :=
  (Finset.univ.filter fun i : Fin 1024 => 16 ≤ i.val ∧ present (m.dir i) ∧
    pageOf (m.dir i) = f).card

def slotRefs (m : Machine) (f : Nat) : Nat :=
  (Finset.univ.filter fun t : TaskNr => t ≠ 0 ∧ isTask m f t).card

theorem refs_eq_pteRefs {f : Nat} (hf : LOW_MEM ≤ f) :
    refs (fun x => target m (.inl x)) f = pteRefs m f := by
  rw [refs, pteRefs, Finset.card_filter]
  refine Finset.sum_congr rfl fun x _ => if_congr ?_ rfl rfl
  by_cases hi : hasTable m x.1
  · simp only [target, pteTarget, if_pos hi, entryTarget_eq_some]
    constructor
    · rintro ⟨hp, _, he⟩
      exact ⟨hi.1, hi.2, hp, he⟩
    · rintro ⟨_, _, hp, he⟩
      exact ⟨hp, he ▸ hf, he⟩
  · simp only [target, pteTarget, if_neg hi]
    simp only [reduceCtorEq, false_iff]
    exact fun e => hi ⟨e.1, e.2.1⟩

theorem refs_eq_dirRefs (f : Nat) : refs (fun i => target m (.inr (.inl i))) f = dirRefs m f := by
  rw [refs, dirRefs, Finset.card_filter]
  refine Finset.sum_congr rfl fun i _ => if_congr ?_ rfl rfl
  by_cases hi : hasTable m i
  · simp [target, dirTarget, hi, hi.1, hi.2]
  · simp only [target, dirTarget, if_neg hi]
    simp only [reduceCtorEq, false_iff]
    exact fun e => hi ⟨e.1, e.2.1⟩

theorem refs_eq_slotRefs (f : Nat) : refs (fun t => target m (.inr (.inr t))) f = slotRefs m f := by
  rw [refs, slotRefs, Finset.card_filter]
  refine Finset.sum_congr rfl fun t _ => if_congr ?_ rfl rfl
  by_cases ht : t = 0
  · simp [target, slotTarget, ht]
  · simp [target, slotTarget, ht, isTask]

theorem Inv.memMap_eq {f : Nat} (h : Mm.Inv c [] m) (hf : LOW_MEM ≤ f ∧ f < c.high) :
    m.memMap (mapNr f) = pteRefs m f + dirRefs m f + slotRefs m f := by
  have hex : count m f = refs (target m) f + ([] : List Nat).count f := h.valid.exact f
  have hcount := h.count_eq hf
  rw [refs_sum, refs_sum, refs_eq_pteRefs hf.1, refs_eq_dirRefs, refs_eq_slotRefs,
    List.count_nil] at hex
  omega

theorem inv_of_trace {as : List Act} {es : List Event} (h : trace step (boot c) as = some (es, m)) :
    Inv c [] m :=
  trace_inv (fun _ _ _ _ hinv hs => (step_effect hinv hs).inv) (inv_boot c) h

/-- In every reachable state the counts are exact, no counter has wrapped, and
the only panic that a step can run into is out of memory. -/
theorem frame_counts_exact (c : Config) {as : List Act} {es : List Event} {m : Machine}
    (h : trace step (boot c) as = some (es, m)) :
    (∀ f, LOW_MEM ≤ f → f < c.high →
      m.memMap (mapNr f) = pteRefs m f + dirRefs m f + slotRefs m f) ∧
    m.wrapped = false ∧
    ∀ a p, enabled m a → perform m a = .error p → p = .outOfMemory := by
  have hinv := inv_of_trace h
  refine ⟨fun f hlow hhigh => Inv.memMap_eq hinv ⟨hlow, hhigh⟩, hinv.unwrapped, fun a p he hp => ?_⟩
  have hholds := perform_effect hinv he
  rw [hp] at hholds
  exact hholds

def bootConfig : Config where
  low p k := if 1 ≤ p ∧ p ≤ 4 then userEntry ((p - 1) * 1024 + k.val) else 0
  high := 768
  limit := 0xA0000
  low_le_high := by decide
  high_le := by decide
  limit_pos := by decide
  limit_le := by decide
  table_eq i k hi := by
    rw [if_pos (by omega), Nat.add_sub_cancel]

theorem frame_counts_exact_fork_write : ∃ es m,
    trace step (boot bootConfig) [.fork 0, .write 1 5 7, .write 1 5 7] = some (es, m) ∧
    (∀ f, LOW_MEM ≤ f → f < bootConfig.high →
      m.memMap (mapNr f) = pteRefs m f + dirRefs m f + slotRefs m f) ∧
    m.wrapped = false ∧ ∀ a p, enabled m a → perform m a = .error p → p = .outOfMemory := by
  have hsome : (trace step (boot bootConfig) [.fork 0, .write 1 5 7, .write 1 5 7]).isSome := by
    decide +kernel
  obtain ⟨⟨es, m⟩, h⟩ := Option.isSome_iff_exists.mp hsome
  exact ⟨es, m, h, frame_counts_exact bootConfig h⟩

/-- The abstract machine: each process has an address space of its own. Task 0
stands for low memory, which does not change. -/
abbrev Spaces := TaskNr → Option (Nat → Byte)

def Spaces.step (S : Spaces) : Event → Option Spaces
  | .forked s t => if S t = none then (S s).map fun space =>
    Function.update S t (some space) else none
  | .read t a v => (S t).bind fun space => if space a = v then some S else none
  | .wrote t a v => (S t).map fun space => Function.update S t (some (Function.update space a v))
  | .exited t => (S t).map fun _ => Function.update S t none

def lowImage (c : Config) (a : Nat) : Byte :=
  if a < 0xA0000 then getByte (c.low (a / 4096) (wordIndex a)) (a % 4) else 0

def Spaces.boot (c : Config) : Spaces := fun t => if t = 0 then some (lowImage c) else none

structure Refines (c : Config) (m : Machine) (S : Spaces) : Prop where
  inv : Inv c [] m
  low : S 0 = some (lowImage c)
  live : ∀ u, u ≠ 0 → ((S u).isSome ↔ Live m u)
  view : ∀ u space, u ≠ 0 → S u = some space → ∀ a < c.limit, viewByte m u a = space a

theorem refines_boot (c : Config) : Refines c (boot c) (Spaces.boot c) := by
  refine ⟨inv_boot c, rfl, fun u hu => ?_, fun u space hu hs => ?_⟩
  · simp [Spaces.boot, hu, Live, boot, memInit]
  · simp [Spaces.boot, hu] at hs

theorem inheritedByte_zero (c : Config) (m : Machine) {a : Nat} (ha : a < c.limit) :
    inheritedByte c m 0 a = lowImage c a := by
  have hle := c.limit_le
  have hk : (tableIndex a).val = a / 4096 := by
    simp only [tableIndex, Fin.ofNat]
    omega
  simp only [inheritedByte, inherited, if_true, hk, lowImage]
  by_cases hlow : a < 0xA0000
  · rw [if_pos hlow, if_pos (by omega)]
  · rw [if_neg hlow, if_neg (by omega)]
    simp [getByte]

theorem inheritedByte_of_ne {s : TaskNr} (hs : s ≠ 0) (a : Nat) :
    inheritedByte c m s a = viewByte m s a := by
  simp [inheritedByte, inherited, viewByte, hs]

theorem refines_effect {e : Option Event} {S : Spaces} (h : Refines c m S) (he : Effect c m e m') :
    ∃ S', run Spaces.step S e.toList = some S' ∧ Refines c m' S' := by
  cases he with
  | silent inv live view =>
    refine ⟨S, rfl, inv, h.low, fun u hu => (h.live u hu).trans (live u).symm,
      fun u space hu hs a ha => ?_⟩
    rw [viewByte_congr fun k j => view _ k j]
    exact h.view u space hu hs a ha
  | @forked s t _ inv ht parent free live view child =>
    obtain ⟨space, hspace⟩ : ∃ space, S s = some space := by
      by_cases hs : s = 0
      · exact ⟨_, hs ▸ h.low⟩
      · exact Option.isSome_iff_exists.mp ((h.live s hs).mpr parent)
    have hnone : S t = none := by
      rw [← Option.not_isSome_iff_eq_none, h.live t ht]
      exact free
    refine ⟨Function.update S t (some space), by simp [run, Spaces.step, hnone, hspace], inv, ?_,
      fun u hu => ?_, fun u space' hu hs a ha => ?_⟩
    · rw [Function.update_of_ne ht.symm]
      exact h.low
    · by_cases hut : u = t
      · simp [hut, live]
      · simp [hut, live, h.live u hu]
    · by_cases hut : u = t
      · subst hut
        obtain rfl : space = space' := by simpa using hs
        rw [child]
        by_cases hs0 : s = 0
        · subst hs0
          obtain rfl : lowImage c = space := Option.some.inj (h.low.symm.trans hspace)
          exact inheritedByte_zero c m ha
        · rw [inheritedByte_of_ne hs0]
          exact h.view s space hs0 hspace a ha
      · rw [view u hut]
        exact h.view u space' hu (by simpa [hut] using hs) a ha
  | @read t a inv ht live ha =>
    obtain ⟨space, hspace⟩ := Option.isSome_iff_exists.mp ((h.live t ht).mpr live)
    have hbyte := h.view t space ht hspace a ha
    exact ⟨S, by simp [run, Spaces.step, hspace, hbyte], h⟩
  | @wrote t a v _ inv ht own ha live view =>
    obtain ⟨space, hspace⟩ := Option.isSome_iff_exists.mp ((h.live t ht).mpr own)
    refine ⟨Function.update S t (some (Function.update space a v)),
      by simp [run, Spaces.step, hspace], inv, ?_,
      fun u hu => ?_, fun u space' hu hs a' ha' => ?_⟩
    · rw [Function.update_of_ne ht.symm]
      exact h.low
    · by_cases hut : u = t
      · simp [hut, live, own]
      · simp [hut, live, h.live u hu]
    · rw [view u a' ha']
      by_cases hut : u = t
      · subst hut
        obtain rfl : Function.update space a v = space' := by simpa using hs
        by_cases haa : a' = a
        · simp [haa]
        · simp [haa, h.view u space hu hspace a' ha']
      · rw [if_neg fun e => hut e.1]
        exact h.view u space' hu (by simpa [hut] using hs) a' ha'
  | @exited t _ inv ht own live view =>
    obtain ⟨space, hspace⟩ := Option.isSome_iff_exists.mp ((h.live t ht).mpr own)
    refine ⟨Function.update S t none, by simp [run, Spaces.step, hspace], inv, ?_, fun u hu => ?_,
      fun u space' hu hs a ha => ?_⟩
    · rw [Function.update_of_ne ht.symm]
      exact h.low
    · by_cases hut : u = t
      · simp [hut, live]
      · simp [hut, live, h.live u hu]
    · by_cases hut : u = t
      · simp [hut] at hs
      · rw [view u hut]
        exact h.view u space' hu (by simpa [hut] using hs) a ha

/-- Copy-on-write refines eager copying: the abstract machine accepts the events
of every run, and every process sees its address space of that machine. A write
changes the writer's view at its address and nothing else. -/
theorem cow_refines_eager_copy (c : Config) {as : List Act} {es : List Event} {m : Machine}
    (h : trace step (boot c) as = some (es, m)) :
    (∃ S, run Spaces.step (Spaces.boot c) es = some S ∧
      ∀ t, t ≠ 0 → ((S t).isSome ↔ Live m t) ∧
        ∀ space, S t = some space → ∀ a < c.limit, viewByte m t a = space a) ∧
    ∀ t a v m', step m (.write t a v) = some (some (.wrote t a v), m') →
      ∀ u, ∀ a' < c.limit, viewByte m' u a' = if u = t ∧ a' = a then v else viewByte m u a' := by
  constructor
  · obtain ⟨S, hS, hR⟩ :=
      trace_refines (fun _ _ _ _ _ hR hs => refines_effect hR (step_effect hR.inv hs))
      (refines_boot c) h
    exact ⟨S, hS, fun t ht => ⟨hR.live t ht, fun space hs => hR.view t space ht hs⟩⟩
  · intro t a v m' hs
    cases step_effect (inv_of_trace h) hs with
    | wrote _ _ _ _ _ view => exact view

def sharersRun : List Act :=
  [.fork 0, .write 1 5 7, .write 1 5 7, .fork 1, .write 2 5 9, .write 2 5 9, .read 1 5]

def sharersEvents : List Event :=
  [.forked 0 1, .wrote 1 5 7, .forked 1 2, .wrote 2 5 9, .read 1 5 7]

set_option maxRecDepth 20000 in
theorem cow_refines_eager_copy_shared_page : ∃ m S,
    trace step (boot bootConfig) sharersRun = some (sharersEvents, m) ∧
    run Spaces.step (Spaces.boot bootConfig) sharersEvents = some S := by
  have hrun : (trace step (boot bootConfig) sharersRun).map Prod.fst = some sharersEvents := by
    decide +kernel
  obtain ⟨⟨es, m⟩, h, rfl⟩ := Option.map_eq_some_iff.mp hrun
  obtain ⟨⟨S, hS, -⟩, -⟩ := cow_refines_eager_copy bootConfig h
  exact ⟨m, S, h, hS⟩

end Hios.Kernel
