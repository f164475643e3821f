import Hios.Mm.Faults
import Mathlib.Tactic.Tauto

/-! The loops of `free_page_tables` and `copy_page_tables`. -/
namespace Hios.Mm
open Hios.Kernel Hios.RefCount
variable {c : Config} {held : List Nat} {m : Machine} {i k : Fin 1024}

theorem dirRange_newBase (c : Config) (t : TaskNr) :
    dirRange (newBase t) c.limit = [slotDir t] := by
  have hpos := c.limit_pos
  have hle := c.limit_le
  have ht := t.isLt
  simp only [NR_TASKS] at ht
  have hsize : (c.limit + 0x3fffff) % 2 ^ 32 / 0x400000 = 1 := by omega
  have hdir : dirIndex (newBase t) = slotDir t := by
    refine Fin.ext ?_
    simp only [dirIndex, Fin.ofNat, newBase, slotDir]
    omega
  rw [dirRange, hsize, hdir]
  simp

theorem newBase_aligned (t : TaskNr) : newBase t % 0x400000 = 0 := by
  simp only [newBase]
  omega

theorem newBase_ne_zero {t : TaskNr} (ht : t ≠ 0) : newBase t ≠ 0 := by
  have hpos : t.val ≠ 0 := fun e => ht (Fin.ext e)
  simp only [newBase]
  omega

/-- The turns of `free_page_tables` over one table: only views through this
table change, and entries that have gone stay away. -/
structure Freeing (c : Config) (i : Fin 1024) (m m' : Machine) : Prop where
  inv : Inv c [] m'
  dir : m'.dir = m.dir
  task : m'.task = m.task
  view : ∀ i' k j, i' ≠ i → view m' i' k j = view m i' k j
  absent : ∀ k, ¬ present (pte m i k) → ¬ present (pte m' i k)

theorem Freeing.trans {m' m'' : Machine} (h : Freeing c i m m') (h' : Freeing c i m' m'') :
    Freeing c i m m'' :=
  ⟨h'.inv, h'.dir.trans h.dir, h'.task.trans h.task,
    fun i' k j hi' => (h'.view i' k j hi').trans (h.view i' k j hi'),
      fun k hk => h'.absent k (h.absent k hk)⟩

theorem Freeing.hasTable {m' : Machine} (h : Freeing c i m m') (i' : Fin 1024) :
    hasTable m' i' ↔ hasTable m i' := by simp [Mm.hasTable, h.dir]

theorem Inv.clearPte (h : Inv c [] m) (hi : hasTable m i) :
    Inv c (target m (.inl (i, k))).toList (m.setWord (pageOf (m.dir i)) k 0) := by
  have hzero : entryTarget 0 = none := rfl
  have hnone : ∀ f, entryTarget 0 ≠ some f := fun f hf => by
    rw [hzero] at hf
    simp at hf
  refine h.setPte (sole m) hi ?_ (fun r hr => ?_) (fun f hf => ?_)
    (fun f hf => absurd hf (hnone f)) ?_
    (fun _ _ f hf => absurd hf (hnone f))
  · rw [hzero]
    cases ht : target m (.inl (i, k)) with
    | none =>
      have hself : Function.update (target m) (.inl (i, k)) none = target m := by
        rw [← ht, Function.update_eq_self]
      rw [hself]
      exact h.valid
    | some f =>
      have htar : (references m []).target (.inl (i, k)) = some f := ht
      exact h.valid.unpoint htar
  · match r with
    | .inl (i', k') =>
      obtain ⟨hi', hw⟩ := hr
      rw [h.pte_setPte hi hi'] at hw
      by_cases hik : i' = i ∧ k' = k
      · simp [hik, writable] at hw
      · rw [if_neg hik] at hw
        exact ⟨hi', hw⟩
    | .inr _ => trivial
  · exact h.range _ f (by simpa using hf)
  · intro hw
    simp [writable] at hw

theorem Inv.freeEntry (h : Inv c [] m) (hi : hasTable m i) (k : Fin 1024) :
    ∃ m', freeEntry (pageOf (m.dir i)) m k = .ok m' ∧ Freeing c i m m' ∧
    ¬ present (pte m' i k) := by
  have hpte : m.mem (pageOf (m.dir i)) k = pte m i k := rfl
  have hclear := h.clearPte (k := k) hi
  have hset := fun i' (hi' : Mm.hasTable m i') k' => h.pte_setPte (w := 0) (k := k) hi hi' k'
  have hview : ∀ i' k' j, i' ≠ i → view (m.setWord (pageOf (m.dir i)) k 0) i' k' j =
      view m i' k' j := by
    intro i' k' j hi'
    rw [h.view_setPte hi, if_neg fun e => hi' e.1]
  have habsent : ∀ k', ¬ present (pte m i k') →
      ¬ present (pte (m.setWord (pageOf (m.dir i)) k 0) i k') := by
    intro k' hk'
    rw [hset i hi k']
    split
    · simp
    · exact hk'
  have hgone : ¬ present (pte (m.setWord (pageOf (m.dir i)) k 0) i k) := by
    rw [hset i hi k]
    simp
  by_cases hp : present (pte m i k)
  · by_cases hlow : LOW_MEM ≤ pageOf (pte m i k)
    · -- the count goes down before the entry is cleared; the two stores commute
      have ht := target_pte hi hp hlow
      have hf := h.range _ _ ht
      have hfree := h.freePage_eq hf (h.valid.count_pos (i := Sum.inl (i, k)) ht)
      rw [ht] at hclear
      refine ⟨_, ?_, ⟨hclear.drop, rfl, rfl, hview, habsent⟩, hgone⟩
      simp only [Mm.freeEntry, hpte, if_pos hp, hfree, ok_bind, setWord_setMap, count_setWord]
      rfl
    · have ht : target m (.inl (i, k)) = none := by simp [target, pteTarget, entryTarget, hlow]
      rw [ht] at hclear
      have hfree : Mm.freePage (pageOf (pte m i k)) m = .ok m := by
        simp [Mm.freePage, not_le.mp hlow]
      refine ⟨_, ?_, ⟨hclear, rfl, rfl, hview, habsent⟩, hgone⟩
      simp only [Mm.freeEntry, hpte, if_pos hp, hfree]
      rfl
  · have ht : target m (.inl (i, k)) = none := by simp [target, pteTarget, entryTarget, hp]
    rw [ht] at hclear
    refine ⟨_, ?_, ⟨hclear, rfl, rfl, hview, habsent⟩, hgone⟩
    simp only [Mm.freeEntry, hpte, if_neg hp]
    rfl

theorem Inv.freeEntries (h : Inv c [] m) (hi : hasTable m i) (l : List (Fin 1024)) :
    ∃ m', l.foldlM (Mm.freeEntry (pageOf (m.dir i))) m = .ok m' ∧ Freeing c i m m' ∧
      ∀ k ∈ l, ¬ present (pte m' i k) := by
  induction l generalizing m with
  | nil => exact ⟨m, rfl, ⟨h, rfl, rfl, fun _ _ _ _ => rfl, fun _ hk => hk⟩, by simp⟩
  | cons k l ih =>
    obtain ⟨m₁, hm₁, hfree₁, hgone₁⟩ := h.freeEntry hi k
    obtain ⟨m', hm', hfree', hgone'⟩ := ih hfree₁.inv ((hfree₁.hasTable i).mpr hi)
    rw [hfree₁.dir] at hm'
    refine ⟨m', ?_, hfree₁.trans hfree', fun k' hk' => ?_⟩
    · rw [List.foldlM_cons, hm₁]
      exact hm'
    · cases List.mem_cons.mp hk' with
      | inl e => exact e ▸ hfree'.absent k hgone₁
      | inr hk' => exact hgone' k' hk'

/-- After `free_page_tables` the task has no table, and no other task sees a
difference. -/
structure Freed (c : Config) (i : Fin 1024) (m m' : Machine) : Prop where
  inv : Inv c [] m'
  gone : ¬ hasTable m' i
  task : m'.task = m.task
  view : ∀ i' k j, i' ≠ i → view m' i' k j = view m i' k j

theorem Inv.freeTable (h : Inv c [] m) (hi : 16 ≤ i.val) :
    ∃ m', freeTable m i = .ok m' ∧ Freed c i m m' := by
  by_cases hp : present (m.dir i)
  · have hit : hasTable m i := ⟨hi, hp⟩
    obtain ⟨m₁, hm₁, hfree, hgone⟩ := h.freeEntries hit (List.finRange 1024)
    have hit₁ : hasTable m₁ i := (hfree.hasTable i).mpr hit
    have hempty : hasTable m₁ i → ∀ k, ¬ present (pte m₁ i k) :=
      fun _ k => hgone k (List.mem_finRange k)
    have ht : (references m₁ []).target (.inr (.inl i)) = some (pageOf (m₁.dir i)) := by
      simp [references, target, dirTarget, hit₁]
    have hrange := hfree.inv.table_range hit₁
    have hclear : Inv c [pageOf (m₁.dir i)] (m₁.setDir i 0) := by
      refine hfree.inv.setDir hi ?_ (by simpa using hrange) hempty (by simp) (by simp) (by simp)
      exact hfree.inv.valid.unpoint ht
    have hfreePage := hfree.inv.freePage_eq hrange (hfree.inv.valid.count_pos ht)
    refine ⟨_, ?_, hclear.drop, ?_, hfree.task, fun i' k j hi' => ?_⟩
    · simp only [Mm.freeTable, if_pos hp, hm₁, ok_bind, hfreePage, setDir_setMap, count_setDir]
      rfl
    · have hgone : ¬ hasTable (m₁.setDir i 0) i := by simp [hasTable_setDir_self hi]
      exact hgone
    · exact (view_setDir hi hempty (by simp) i' k j).trans (hfree.view i' k j hi')
  · refine ⟨m, ?_, h, fun hit => hp hit.2, rfl, fun _ _ _ _ => rfl⟩
    simp only [Mm.freeTable, if_neg hp]
    rfl

theorem Inv.freePageTables {t : TaskNr} (h : Inv c [] m) (ht : t ≠ 0) :
    ∃ m', freePageTables (newBase t) m.limit m = .ok m' ∧ Freed c (slotDir t) m m' := by
  obtain ⟨m', hm', hfreed⟩ := h.freeTable (slotDir_ge ht)
  refine ⟨m', ?_, hfreed⟩
  rw [Mm.freePageTables, if_neg (by simp [newBase_aligned]), if_neg (newBase_ne_zero ht), h.limit,
    dirRange_newBase, List.foldlM_cons, hm']
  rfl

/-- The parent's table under entry `i`, when entry `k` may be copied: a table of
a task, or the first 160 entries of the kernel's first table, which map low
memory. -/
def Copyable (m : Machine) (i k : Fin 1024) : Prop :=
  hasTable m i ∨ (i.val = 0 ∧ pageOf (pte m i k) < LOW_MEM)

/-- The turns of `copy_page_tables` over one table: `done` are the entries
already copied from directory entry `src` to `dst`. -/
structure Copying (c : Config) (held : List Nat) (src dst : Fin 1024) (m : Machine)
    (done : List (Fin 1024)) (m' : Machine) : Prop where
  inv : Inv c held m'
  dir : m'.dir = m.dir
  task : m'.task = m.task
  source : ∀ k, present (pte m' src k) = present (pte m src k) ∧
    pageOf (pte m' src k) = pageOf (pte m src k)
  copied : ∀ k ∈ done, present (pte m' dst k) = present (pte m src k) ∧
    (present (pte m src k) → pageOf (pte m' dst k) = pageOf (pte m src k))
  empty : ∀ k, k ∉ done → ¬ present (pte m' dst k)
  view : ∀ i' k j, i' ≠ dst → view m' i' k j = view m i' k j
  pages : ∀ p, (∀ i, hasTable m i → p ≠ pageOf (m.dir i)) → m'.mem p = m.mem p

theorem Copying.hasTable {src dst : Fin 1024} {m' : Machine} {done : List (Fin 1024)}
    (h : Copying c held src dst m done m') (i : Fin 1024) : hasTable m' i ↔ hasTable m i := by
  simp [Mm.hasTable, h.dir]

/-- The copied entry goes into the empty entry of the child, with the reference
counted before. -/
theorem Inv.copyPte {dst : Fin 1024} {w : Word} (h : Inv c (entryTarget w).toList m)
    (hdst : hasTable m dst) (hempty : ¬ present (pte m dst k)) (hro : ¬ writable w)
    (honce : ∀ k', k' ≠ k → ∀ f, entryTarget w = some f → pteTarget m (dst, k') ≠ some f) :
    Inv c [] (m.setWord (pageOf (m.dir dst)) k w) := by
  have ht : target m (.inl (dst, k)) = none := by simp [target, pteTarget, entryTarget, hempty]
  refine h.setPte (fun r => r ≠ .inl (dst, k) ∧ sole m r) hdst ?_ (fun r hr => ?_) (by simp)
    (fun f hf => ?_) (fun hwr => absurd hwr hro) honce
  · cases hw : entryTarget w with
    | none =>
      have hself : Function.update (target m) (.inl (dst, k)) none = target m := by
        rw [← ht, Function.update_eq_self]
      rw [hself]
      rw [hw] at h
      exact h.valid.resole fun r f hr _ => .inl hr.2
    | some f =>
      have hheld : (references m (entryTarget w).toList).held = [f] := by simp [references, hw]
      exact h.valid.point _ hheld ht (fun _ _ hs => hs.2) fun hs => absurd rfl hs.1
  · obtain ⟨i', k'⟩ | r := r
    · obtain ⟨hi', hwr⟩ := hr
      rw [h.pte_setPte hdst hi'] at hwr
      by_cases hik : i' = dst ∧ k' = k
      · rw [if_pos hik] at hwr
        exact absurd hwr hro
      · rw [if_neg hik] at hwr
        exact ⟨fun e => hik (Prod.mk.inj (Sum.inl.inj e)), hi', hwr⟩
    · exact ⟨by simp, trivial⟩
  · exact (h.heldRange f (by simpa using hf)).2

theorem incMap_setWord (m : Machine) (f p : Nat) (k : Fin 1024) (w : Word) :
    incMap f (m.setWord p k w) = (incMap f m).setWord p k w := by
  simp [Machine.setWord, incMap]

theorem setWord_comm (m : Machine) {p q : Nat} (hpq : p ≠ q) (k : Fin 1024) (w : Word) :
    (m.setWord p k w).setWord q k w = (m.setWord q k w).setWord p k w := by
  simp [Machine.setWord, hpq, hpq.symm, Function.update_comm hpq]

theorem entryTarget_eq_some {e : Word} {f : Nat} :
    entryTarget e = some f ↔ present e ∧ LOW_MEM ≤ pageOf e ∧ pageOf e = f := by
  simp [entryTarget, and_assoc]

section CopyEntry
variable {src dst : Fin 1024} {done : List (Fin 1024)} {m' : Machine}

theorem Copying.protect (h : Copying c [] src dst m done m') (hsrc : Mm.hasTable m src)
    (hdst : Mm.hasTable m dst) (hne : src ≠ dst) (hp : present (pte m' src k)) :
    Copying c [] src dst m done (m'.setWord (pageOf (m'.dir src)) k (readOnly (pte m' src k))) := by
  have hsrc' := (h.hasTable src).mpr hsrc
  have hset := fun i' (hi' : Mm.hasTable m' i') k' =>
    h.inv.pte_setPte (w := readOnly (pte m' src k)) (k := k) hsrc' hi' k'
  have hflag := h.inv.reflag (k := k) (w := readOnly (pte m' src k)) hsrc' hp
    (by simpa using hp) (by simp)
    (by simp)
  have hdst : ∀ k', pte (m'.setWord (pageOf (m'.dir src)) k (readOnly (pte m' src k))) dst k' =
      pte m' dst k' := fun k' => by
    rw [hset dst ((h.hasTable dst).mpr hdst) k', if_neg fun e => hne e.1.symm]
  refine ⟨hflag.1, h.dir, h.task, fun k' => ?_, fun k' hk' => ?_, fun k' hk' => ?_,
    fun i' k' j hi' => ?_,
    fun p hp' => ?_⟩
  · rw [hset src hsrc' k']
    by_cases hk' : k' = k
    · rw [if_pos ⟨rfl, hk'⟩, hk']
      simpa using h.source k
    · rw [if_neg fun e => hk' e.2]
      exact h.source k'
  · rw [hdst]
    exact h.copied k' hk'
  · rw [hdst]
    exact h.empty k' hk'
  · exact (hflag.2 i' k' j).trans (h.view i' k' j hi')
  · rw [mem_setWord_of_ne _ _ _ (h.dir ▸ hp' src hsrc)]
    exact h.pages p hp'

theorem Copying.extend {w : Word} (h : Copying c (entryTarget w).toList src dst m done m')
    (hdst : Mm.hasTable m dst) (htables : pageOf (m.dir src) ≠ pageOf (m.dir dst)) (hk : k ∉ done)
    (hro : ¬ writable w) (hp : present w)
    (hsrc : present (pte m src k) ∧ pageOf (pte m src k) = pageOf w)
    (hshared : LOW_MEM ≤ pageOf w → Mm.hasTable m src) :
    Copying c [] src dst m (k :: done) (m'.setWord (pageOf (m'.dir dst)) k w) := by
  have hdst' := (h.hasTable dst).mpr hdst
  have hset := fun i' (hi' : Mm.hasTable m' i') k' => h.inv.pte_setPte (w := w)
    (k := k) hdst' hi' k'
  have hinv : Inv c [] (m'.setWord (pageOf (m'.dir dst)) k w) := by
    refine h.inv.copyPte hdst' (h.empty k hk) hro fun k' hk' f hf hf' => ?_
    -- the child's other entries name what the parent's name, which are different pages
    obtain ⟨-, hlow, hfw⟩ := entryTarget_eq_some.mp hf
    have hit := (h.hasTable src).mpr (hshared hlow)
    rw [pteTarget, if_pos hdst'] at hf'
    obtain ⟨hp', hlow', hfp'⟩ := entryTarget_eq_some.mp hf'
    have hdone : k' ∈ done := by
      by_contra hn
      exact h.empty k' hn hp'
    obtain ⟨hpc, hpagec⟩ := h.copied k' hdone
    have hps : present (pte m src k') := hpc ▸ hp'
    have h₁ : pteTarget m' (src, k') = some f := by
      rw [pteTarget, if_pos hit, entryTarget_eq_some, (h.source k').1, (h.source k').2]
      exact ⟨hps, hpagec hps ▸ hlow', (hpagec hps).symm.trans hfp'⟩
    have h₂ : pteTarget m' (src, k) = some f := by
      rw [pteTarget, if_pos hit, entryTarget_eq_some, (h.source k).1, (h.source k).2]
      exact ⟨hsrc.1, hsrc.2 ▸ hlow, hsrc.2.trans hfw⟩
    exact hk' (h.inv.once src k' k f h₁ h₂)
  have hsame : ∀ k', pte (m'.setWord (pageOf (m'.dir dst)) k w) src k' = pte m' src k' := by
    intro k'
    have hpte : pte (m'.setWord (pageOf (m'.dir dst)) k w) src k' =
        (m'.setWord (pageOf (m'.dir dst)) k w).mem (pageOf (m'.dir src)) k' := rfl
    rw [hpte, mem_setWord_of_ne _ _ _ (h.dir ▸ htables), pte]
  refine ⟨hinv, h.dir, h.task, fun k' => ?_, fun k' hk' => ?_, fun k' hk' => ?_,
    fun i' k' j hi' => ?_,
    fun p hp' => ?_⟩
  · rw [hsame k']
    exact h.source k'
  · by_cases hkk : k' = k
    · rw [hset dst hdst' k', if_pos ⟨rfl, hkk⟩, hkk, hp, hsrc.1]
      exact ⟨rfl, fun _ => hsrc.2.symm⟩
    · rw [hset dst hdst' k', if_neg fun e => hkk e.2]
      exact h.copied k' ((List.mem_cons.mp hk').resolve_left hkk)
  · obtain ⟨hkk, hk'⟩ := not_or.mp (fun e => hk' (List.mem_cons.mpr e))
    rw [hset dst hdst' k', if_neg fun e => hkk e.2]
    exact h.empty k' hk'
  · rw [h.inv.view_setPte hdst', if_neg fun e => hi' e.1]
    exact h.view i' k' j hi'
  · rw [mem_setWord_of_ne _ _ _ (h.dir ▸ hp' dst hdst)]
    exact h.pages p hp'

/-- One turn of the copy loop: the parent's entry loses R/W, its page is counted
once more, and the child names it too. -/
theorem Copying.copyEntry (h : Copying c [] src dst m done m') (hdst : Mm.hasTable m dst)
    (hne : src ≠ dst) (htables : pageOf (m.dir src) ≠ pageOf (m.dir dst))
    (hsrc : Copyable m src k) (hk : k ∉ done) :
    Copying c [] src dst m (k :: done)
      (copyEntry (pageOf (m.dir src)) (pageOf (m.dir dst)) m' k) := by
  have hpte : m'.mem (pageOf (m.dir src)) k = pte m' src k := by rw [pte, h.dir]
  simp only [Mm.copyEntry, hpte]
  by_cases hp : present (pte m' src k)
  · rw [if_pos hp]
    have hpr : present (readOnly (pte m' src k)) := by simpa using hp
    have hsame : present (pte m src k) ∧
        pageOf (pte m src k) = pageOf (readOnly (pte m' src k)) := by
      rw [pageOf_readOnly, (h.source k).2, ← (h.source k).1]
      exact ⟨hp, rfl⟩
    by_cases hlow : LOW_MEM ≤ pageOf (pte m' src k)
    · have hguard : 0x100000 < (readOnly (pte m' src k)).toNat :=
        (lowMem_lt_iff hpr).mpr (by simpa [LOW_MEM] using hlow)
      have hit : Mm.hasTable m src := by
        refine hsrc.resolve_right fun hfirst => ?_
        have hl := hfirst.2
        rw [(h.source k).2] at hlow
        omega
      have hprot := h.protect hit hdst hne hp
      rw [h.dir] at hprot
      set m₁ := m'.setWord (pageOf (m.dir src)) k (readOnly (pte m' src k)) with hm₁
      have hit₁ := (hprot.hasTable src).mpr hit
      have hpte₁ : pte m₁ src k = readOnly (pte m' src k) := by
        have hset := h.inv.pte_setPte (w := readOnly (pte m' src k)) (k := k)
          ((h.hasTable src).mpr hit) ((h.hasTable src).mpr hit) k
        rw [if_pos ⟨rfl, rfl⟩, h.dir] at hset
        exact hset
      have hpage₁ : pageOf (pte m₁ src k) = pageOf (pte m' src k) := by rw [hpte₁, pageOf_readOnly]
      have ht₁ := target_pte hit₁ (hpte₁ ▸ hpr) (hpage₁ ▸ hlow)
      rw [hpage₁] at ht₁
      -- the parent's entry is one reference, and no longer a writable one
      have hshared : ∀ r, sole m₁ r → target m₁ r ≠ some (pageOf (pte m' src k)) := by
        intro r hs hr
        have hone := hprot.inv.valid.sole r _ hs hr
        have hre := hprot.inv.ref_unique hone hr ht₁
        rw [← hre] at hs
        obtain ⟨-, hw⟩ := hs
        rw [hpte₁] at hw
        simp at hw
      obtain ⟨hinc, hinv₂⟩ := hprot.inv.incMap (hprot.inv.range _ _ ht₁) (by simp) hshared
      have hentry : (entryTarget (readOnly (pte m' src k))).toList = [pageOf (pte m' src k)] := by
        simp [entryTarget, hp, hlow]
      have h₂ : Copying c (entryTarget (readOnly (pte m' src k))).toList src dst m done
          (Machine.setMap m₁ (pageOf (pte m' src k)) (count m₁ (pageOf (pte m' src k)) + 1)) := by
        rw [hentry]
        exact ⟨hinv₂, hprot.dir, hprot.task, hprot.source, hprot.copied, hprot.empty, hprot.view,
          hprot.pages⟩
      have h₃ := h₂.extend hdst htables hk (by simp) hpr hsame fun _ => hit
      rw [if_pos hguard, setWord_comm _ htables.symm, incMap_setWord, pageOf_readOnly, ← hm₁, hinc]
      have hdir₂ : (Machine.setMap m₁ (pageOf (pte m' src k))
        (count m₁ (pageOf (pte m' src k)) + 1)).dir =
          m.dir := h₂.dir
      rw [hdir₂] at h₃
      exact h₃
    · have hguard : ¬ 0x100000 < (readOnly (pte m' src k)).toNat := fun hlt =>
        hlow (by simpa [LOW_MEM] using (lowMem_lt_iff hpr).mp hlt)
      have hentry : (entryTarget (readOnly (pte m' src k))).toList = [] := by
        simp [entryTarget, hlow]
      have h₃ := Copying.extend (hentry ▸ h) hdst htables hk (by simp) hpr hsame fun hl =>
        absurd (by simpa using hl) hlow
      rw [if_neg hguard]
      rw [h.dir] at h₃
      exact h₃
  · rw [if_neg hp]
    refine ⟨h.inv, h.dir, h.task, h.source, fun k' hk' => ?_, fun k' hk' => ?_, h.view, h.pages⟩
    · cases List.mem_cons.mp hk' with
      | inl e =>
        have hps : ¬ present (pte m src k) := (h.source k).1 ▸ hp
        rw [e, Bool.eq_false_iff.mpr (h.empty k hk), Bool.eq_false_iff.mpr hps]
        simp
      | inr hk' => exact h.copied k' hk'
    · exact h.empty k' fun hd => hk' (List.mem_cons_of_mem k hd)

theorem Copying.copyEntries (hdst : Mm.hasTable m dst) (hne : src ≠ dst)
    (htables : pageOf (m.dir src) ≠ pageOf (m.dir dst)) (l : List (Fin 1024)) (hl : l.Nodup)
    (hsrc : ∀ k ∈ l, Copyable m src k) (hdone : ∀ k ∈ l, k ∉ done)
    (h : Copying c [] src dst m done m') :
    ∃ done', (∀ k, k ∈ done' ↔ k ∈ l ∨ k ∈ done) ∧ Copying c [] src dst m done'
      (l.foldl (Mm.copyEntry (pageOf (m.dir src)) (pageOf (m.dir dst))) m') := by
  induction l generalizing m' done with
  | nil => exact ⟨done, by simp, h⟩
  | cons k l ih =>
    obtain ⟨hkl, hl⟩ := List.nodup_cons.mp hl
    have hstep := h.copyEntry hdst hne htables (hsrc k List.mem_cons_self)
      (hdone k List.mem_cons_self)
    have hdone' : ∀ x ∈ l, x ∉ k :: done := fun x hx => by
      rw [List.mem_cons, not_or]
      exact ⟨fun e => hkl (e ▸ hx), hdone x (List.mem_cons_of_mem k hx)⟩
    obtain ⟨done', hd', h'⟩ := ih hl (fun x hx => hsrc x (List.mem_cons_of_mem k hx)) hdone' hstep
    refine ⟨done', fun x => ?_, h'⟩
    rw [hd', List.mem_cons, List.mem_cons]
    tauto

end CopyEntry

theorem mem_take_finRange {nr : Nat} (hnr : nr ≤ 1024) (k : Fin 1024) :
    k ∈ (List.finRange 1024).take nr ↔ k.val < nr := by
  rw [List.mem_take_iff_getElem]
  constructor
  · rintro ⟨i, hi, rfl⟩
    simp only [List.length_finRange] at hi
    simp only [List.getElem_finRange, Fin.cast_mk]
    omega
  · intro hk
    exact ⟨k.val, by simp only [List.length_finRange]; omega, by simp⟩

def inherited (c : Config) (m : Machine) (s : TaskNr) (k j : Fin 1024) : Word :=
  if s = 0 then if k.val < 0xA0 then c.low k.val j else 0 else view m (slotDir s) k j

structure CopiedTables (c : Config) (s t : TaskNr) (m : Machine) (err : Int) (m' : Machine) :
  Prop where
  inv : Inv c [] m'
  task : m'.task = m.task
  view : ∀ i k j, i ≠ slotDir t → view m' i k j = view m i k j
  failed : err ≠ 0 → ¬ hasTable m' (slotDir t)
  child : err = 0 → ∀ k j, Mm.view m' (slotDir t) k j = inherited c m s k j

theorem slotDir_inj {s t : TaskNr} (h : slotDir s = slotDir t) : s = t := by
  refine Fin.ext ?_
  have hval : 16 * s.val = 16 * t.val := congrArg Fin.val h
  omega

theorem newBase_eq_zero {s : TaskNr} : newBase s = 0 ↔ s = 0 := by
  constructor
  · intro h
    by_contra hs
    exact newBase_ne_zero hs h
  · rintro rfl
    rfl

theorem Inv.copyable {s : TaskNr} (h : Inv c held m) (hp : present (m.dir (slotDir s)))
    {k : Fin 1024} (hk : k.val < if newBase s = 0 then 0xA0 else 1024) :
    Copyable m (slotDir s) k := by
  by_cases hs : s = 0
  · subst hs
    right
    rw [if_pos (newBase_eq_zero.mpr rfl)] at hk
    have hdir : m.dir (slotDir 0) = userEntry 1 := h.lowDir (slotDir 0) (by simp [slotDir])
    have hlow := h.low 1 k (by simp [LOW_MEM])
    have htable := c.table_eq 0 k (by simp)
    refine ⟨rfl, ?_⟩
    rw [pte, hdir, pageOf_userEntry (by omega), hlow]
    simp only [Fin.val_zero, Nat.zero_add, Nat.zero_mul] at htable
    rw [htable, pageOf_userEntry (by omega)]
    simp only [LOW_MEM]
    omega
  · exact .inl ⟨slotDir_ge hs, hp⟩

theorem child_view_of_copying {s t : TaskNr} {m₂ m' : Machine} {done : List (Fin 1024)}
    (h : Inv c [] m) (h₂ : Inv c [] m₂) (hc : Copying c [] (slotDir s) (slotDir t) m₂ done m')
    (hp : present (m.dir (slotDir s))) (hpte : ∀ k, pte m₂ (slotDir s) k = pte m (slotDir s) k)
    (hview : s ≠ 0 → ∀ k j, view m₂ (slotDir s) k j = view m (slotDir s) k j)
    (hs₂ : s ≠ 0 → hasTable m₂ (slotDir s)) (ht₂ : hasTable m₂ (slotDir t))
    (hdone : ∀ k, k ∈ done ↔ k.val < if newBase s = 0 then 0xA0 else 1024) (k j : Fin 1024) :
    view m' (slotDir t) k j = inherited c m s k j := by
  have ht' := (hc.hasTable (slotDir t)).mpr ht₂
  by_cases hs : s = 0
  · subst hs
    simp only [newBase_eq_zero.mpr rfl, if_true] at hdone
    simp only [inherited, if_true]
    by_cases hk : k.val < 0xA0
    · have hdir : m.dir (slotDir 0) = userEntry 1 := h.lowDir (slotDir 0) (by simp [slotDir])
      have htable := c.table_eq 0 k (by simp)
      simp only [Fin.val_zero, Nat.zero_add, Nat.zero_mul] at htable
      have hentry : pte m₂ (slotDir 0) k = userEntry k.val := by
        rw [hpte, pte, hdir, pageOf_userEntry (by omega), h.low 1 k (by simp [LOW_MEM]), htable]
      obtain ⟨hpres, hpage⟩ := hc.copied k ((hdone k).mpr hk)
      rw [hentry] at hpres hpage
      rw [present_userEntry] at hpres
      have hlow : k.val < LOW_MEM := by simp only [LOW_MEM]; omega
      have hpk : pageOf (pte m' (slotDir t) k) = k.val := by
        rw [hpage (present_userEntry _), pageOf_userEntry (by omega)]
      rw [if_pos hk, view, if_pos ⟨ht', hpres⟩, hpk, hc.inv.low _ _ hlow]
    · rw [if_neg hk, view, if_neg fun e => hc.empty k (fun e' => hk ((hdone k).mp e')) e.2]
  · have hk : k ∈ done := (hdone k).mpr (by rw [if_neg (mt newBase_eq_zero.mp hs)]; exact k.isLt)
    obtain ⟨hpres, hpage⟩ := hc.copied k hk
    rw [inherited, if_neg hs, ← hview hs, view, view]
    by_cases hpk : present (pte m₂ (slotDir s) k)
    · have hne : ∀ i, hasTable m₂ i → pageOf (pte m₂ (slotDir s) k) ≠ pageOf (m₂.dir i) :=
        fun i hi => h₂.page_ne_table hi (hs₂ hs) hpk
      rw [if_pos ⟨ht', hpres.trans hpk⟩, if_pos ⟨hs₂ hs, hpk⟩, hpage hpk, hc.pages _ hne]
    · rw [if_neg fun e => hpk (hpres ▸ e.2), if_neg fun e => hpk e.2]

theorem Inv.copyPageTables {s t : TaskNr} {τ : Task} (h : Inv c [] m) (ht : t ≠ 0) (hst : s ≠ t)
    (hτ : m.task t = some τ) (hz : τ.state ≠ .zombie) (habs : ¬ hasTable m (slotDir t)) :
    Holds (fun r => CopiedTables c s t m r.1 r.2)
      (copyPageTables (newBase s) (newBase t) m.limit m) := by
  have hne : slotDir s ≠ slotDir t := fun e => hst (slotDir_inj e)
  have habs' : ¬ present (m.dir (slotDir t)) := fun e => habs ⟨slotDir_ge ht, e⟩
  have halign : ¬ (newBase s % 0x400000 ≠ 0 ∨ newBase t % 0x400000 ≠ 0) := by simp [newBase_aligned]
  rw [Mm.copyPageTables, if_neg halign, h.limit, dirRange_newBase, dirRange_newBase,
    List.zip_cons_cons,
    List.zip_nil_left, copyTables, if_neg habs']
  by_cases hp : present (m.dir (slotDir s))
  · rw [if_pos hp]
    cases hg : getFreePage m with
    | none => exact ⟨h, rfl, fun _ _ _ _ => rfl, fun _ => habs, by simp⟩
    | some r =>
      obtain ⟨page, m₁⟩ := r
      have hfresh := h.freshPage hg
      have hnt := newTable_of_fresh hfresh ht hτ hz habs
      set m₂ := m₁.setDir (slotDir t) (userEntry page) with hm₂
      have hdir₂ : m₂.dir (slotDir s) = m.dir (slotDir s) := by
        rw [hm₂, dir_setDir, if_neg hne, hfresh.dir]
      have hs₂ : s ≠ 0 → hasTable m₂ (slotDir s) :=
        fun hs => (hnt.tables _ hne).mpr ⟨slotDir_ge hs, hp⟩
      have hcopyable : ∀ k ∈ (List.finRange 1024).take (if newBase s = 0 then 0xA0 else 1024),
          Copyable m₂ (slotDir s) k := fun k hk =>
        hnt.inv.copyable (hdir₂ ▸ hp) ((mem_take_finRange (by split <;> omega) k).mp hk)
      have htables : pageOf (m₂.dir (slotDir s)) ≠ pageOf (m₂.dir (slotDir t)) := by
        have hrange := (hnt.inv.table_range hnt.self).1
        by_cases hs : s = 0
        · subst hs
          have hdir : m.dir (slotDir 0) = userEntry 1 := h.lowDir (slotDir 0) (by simp [slotDir])
          rw [hdir₂, hdir, pageOf_userEntry (by omega)]
          simp only [LOW_MEM] at hrange
          omega
        · exact fun e => hne (hnt.inv.table_inj hnt.self (hs₂ hs) e)
      have hpte : ∀ k, pte m₂ (slotDir s) k = pte m (slotDir s) k := by
        intro k
        have hnp : pageOf (m.dir (slotDir s)) ≠ page := by
          rw [← hdir₂, ← hnt.page_eq]
          exact htables
        rw [pte, hdir₂, hnt.mem _ hnp, pte]
      have hstart : Copying c [] (slotDir s) (slotDir t) m₂ [] m₂ :=
        ⟨hnt.inv, rfl, rfl, fun _ => ⟨rfl, rfl⟩,
          by simp, fun k _ => by simp [hnt.empty], fun _ _ _ _ => rfl,
          fun _ _ => rfl⟩
      obtain ⟨done, hdone, hcopy⟩ := hstart.copyEntries hnt.self hne htables
        ((List.finRange 1024).take (if newBase s = 0 then 0xA0 else 1024))
        ((List.nodup_finRange 1024).sublist (List.take_sublist ..)) hcopyable (by simp)
      have hpage : pageOf (m₂.dir (slotDir t)) = page := hnt.page_eq
      rw [hpage, hdir₂] at hcopy
      refine ⟨hcopy.inv, hcopy.task.trans hnt.task, fun i k j hi => ?_, by simp, fun _ k j => ?_⟩
      · exact (hcopy.view i k j hi).trans (hnt.view i k j)
      · refine child_view_of_copying h hnt.inv hcopy hp hpte (fun _ k j => hnt.view _ k j)
          hs₂ hnt.self
          (fun k => ?_) k j
        rw [hdone, mem_take_finRange (by split <;> omega)]
        simp
  · rw [if_neg hp]
    have hs : s ≠ 0 := by
      rintro rfl
      have hdir : m.dir (slotDir 0) = userEntry 1 := h.lowDir (slotDir 0) (by simp [slotDir])
      exact hp (by simp [hdir])
    refine ⟨h, rfl, fun _ _ _ _ => rfl, by simp, fun _ k j => ?_⟩
    rw [inherited, if_neg hs, view, view, if_neg fun e => habs e.1, if_neg fun e => hp e.1.2]

end Hios.Mm
