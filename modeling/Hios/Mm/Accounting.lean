import Hios.Mm.Tables
import Hios.Lib.Outcome
import Mathlib.Algebra.Group.Fin.Basic
import Mathlib.Algebra.Group.Units.Equiv

/-! `copy_page_tables` and its undoing by `free_page_tables` from any state whose
counts are exact, however many tables a task has. -/
namespace Hios.Mm
open Hios.Kernel Hios.RefCount Hios.Outcome
variable {b m : Machine} {W : List (Fin 1024)} {shift i j k : Fin 1024}

/-- The counts are exact, frames beyond memory are never free, page tables are not
mapped, and what task 0 hands on lies in low memory. -/
structure Accounted (m : Machine) : Prop where
  byte : ∀ n, n + LOW_MEM < m.highMemory → m.memMap n < 256
  exact : ∀ f, count m f = refs (target m) f
  reserved : ∀ n, m.highMemory ≤ n + LOW_MEM → m.memMap n ≠ 0
  apart : ∀ x i f, pteTarget m x = some f → dirTarget m i ≠ some f
  kernel : ∀ i : Fin 1024, i.val < 16 → present (m.dir i) → pageOf (m.dir i) < LOW_MEM
  low : ∀ i ∈ dirRange 0 m.limit, present (m.dir i) → ∀ k : Fin 1024, k.val < 0xA0 →
    pageOf (pte m i k) < LOW_MEM

theorem Accounted.range (h : Accounted m) {r : Ref} {f : Nat} (hr : target m r = some f) :
    LOW_MEM ≤ f ∧ f < m.highMemory := by
  by_contra hout
  have hex := h.exact f
  have hone := one_le_refs hr
  rw [count, if_neg hout] at hex
  omega

theorem count_lt (hbyte : ∀ n, n + LOW_MEM < m.highMemory → m.memMap n < 256) (f : Nat) :
    count m f < 256 := by
  unfold count
  split
  · apply hbyte
    simp only [mapNr]
    omega
  · omega

theorem entryTarget_readOnly (e : Word) : entryTarget (readOnly e) = entryTarget e := by
  simp [entryTarget]

theorem entryTarget_zero : entryTarget 0 = none := rfl

/-- The directory entries that a copy may fill, each from the one `shift` further on. -/
structure Window (b : Machine) (W : List (Fin 1024)) (shift : Fin 1024) : Prop where
  high : ∀ i ∈ W, 16 ≤ i.val
  empty : ∀ i ∈ W, b.dir i = 0
  source : ∀ i ∈ W, i + shift ∉ W

theorem Window.absent (hw : Window b W shift) (hi : i ∈ W) : ¬ present (b.dir i) := by
  simp [hw.empty i hi]

/-- What a copy begun in `b` has changed: tables in the window that nothing else
names, their entries copies of the parent's, and R/W bits cleared elsewhere. -/
structure Shape (b : Machine) (W : List (Fin 1024)) (shift : Fin 1024) (m : Machine) : Prop where
  high : m.highMemory = b.highMemory
  limit : m.limit = b.limit
  task : m.task = b.task
  lastPid : m.lastPid = b.lastPid
  byte : ∀ n, n + LOW_MEM < m.highMemory → m.memMap n < 256
  beyond : ∀ n, b.highMemory ≤ n + LOW_MEM → m.memMap n = b.memMap n
  old : ∀ i, i ∉ W → m.dir i = b.dir i
  vacant : ∀ i ∈ W, present (m.dir i) ∨ m.dir i = 0
  entries : ∀ i, i ∉ W → present (b.dir i) → ∀ k, pte m i k = pte b i k ∨
    pte m i k = readOnly (pte b i k)
  range : ∀ i ∈ W, present (m.dir i) → LOW_MEM ≤ pageOf (m.dir i) ∧ pageOf (m.dir i) < b.highMemory
  apart : ∀ i ∈ W, present (m.dir i) → ∀ j, j ≠ i → present (m.dir j) →
    pageOf (m.dir j) ≠ pageOf (m.dir i)
  copied : ∀ i ∈ W, present (m.dir i) → ∀ k f, entryTarget (pte m i k) = some f →
    pteTarget b (i + shift, k) = some f

def Balanced (m : Machine) : Prop := ∀ f, count m f % 256 = refs (target m) f % 256

def Origin (b : Machine) (W : List (Fin 1024)) (m : Machine) : Prop :=
  ∀ i ∈ W, present (m.dir i) →
    refs (target b) (pageOf (m.dir i)) = 0 ∨ 256 < refs (target m) (pageOf (m.dir i))

theorem Shape.refl (hb : Accounted b) (hw : Window b W shift) : Shape b W shift b :=
  ⟨rfl, rfl, rfl, rfl, hb.byte, fun _ _ => rfl, fun _ _ => rfl, fun i hi => .inr (hw.empty i hi),
    fun _ _ _ _ => .inl rfl, fun _ hi hp => absurd hp (hw.absent hi),
    fun _ hi hp => absurd hp (hw.absent hi), fun _ hi hp => absurd hp (hw.absent hi)⟩

theorem Balanced.of_accounted (hb : Accounted b) : Balanced b := fun f => by rw [hb.exact f]

theorem Shape.hasTable (h : Shape b W shift m) (hi : i ∉ W) : hasTable m i ↔ hasTable b i := by
  simp [Mm.hasTable, h.old i hi]

theorem Shape.pteTarget_old (h : Shape b W shift m) (hi : i ∉ W) (k : Fin 1024) :
    pteTarget m (i, k) = pteTarget b (i, k) := by
  by_cases hit : Mm.hasTable b i
  · have hsame : entryTarget (pte m i k) = entryTarget (pte b i k) := by
      cases h.entries i hi hit.2 k with
      | inl e => rw [e]
      | inr e => rw [e, entryTarget_readOnly]
    simp [pteTarget, h.hasTable hi, hit, hsame]
  · simp [pteTarget, h.hasTable hi, hit]

theorem Shape.dirTarget_old (h : Shape b W shift m) (hi : i ∉ W) :
    dirTarget m i = dirTarget b i := by
  simp [dirTarget, h.hasTable hi, h.old i hi]

theorem Shape.slotTarget (h : Shape b W shift m) (t : TaskNr) :
    slotTarget m t = slotTarget b t := by
  simp [Mm.slotTarget, h.task]

theorem Window.no_target (hw : Window b W shift) (hi : i ∈ W) (k : Fin 1024) :
    pteTarget b (i, k) = none ∧ dirTarget b i = none := by
  simp [pteTarget, dirTarget, Mm.hasTable, hw.empty i hi]

theorem Shape.target_of_old (h : Shape b W shift m) (hw : Window b W shift) {r : Ref} {f : Nat}
    (hr : target b r = some f) : target m r = some f := by
  match r with
  | .inl (i, k) =>
    by_cases hi : i ∈ W
    · rw [target, (hw.no_target hi k).1] at hr
      cases hr
    · rw [target, h.pteTarget_old hi]
      exact hr
  | .inr (.inl i) =>
    by_cases hi : i ∈ W
    · rw [target, (hw.no_target hi 0).2] at hr
      cases hr
    · rw [target, h.dirTarget_old hi]
      exact hr
  | .inr (.inr t) =>
    rw [target, h.slotTarget]
    exact hr

theorem Shape.refs_ge (h : Shape b W shift m) (hw : Window b W shift) (f : Nat) :
    refs (target b) f ≤ refs (target m) f :=
  refs_mono fun _ hr => h.target_of_old hw hr

def copies (b m : Machine) (W : List (Fin 1024)) (shift : Fin 1024) : Ref → Option Nat
  | .inl x => pteTarget b (x.1 + shift, x.2)
  | .inr (.inl i) => if i ∈ W then dirTarget m i else none
  | .inr (.inr _) => none

theorem Shape.target_cases (h : Shape b W shift m) {r : Ref} {f : Nat} (hr : target m r = some f) :
    target b r = some f ∨ copies b m W shift r = some f := by
  match r with
  | .inl (i, k) =>
    by_cases hi : i ∈ W
    · right
      by_cases hp : present (m.dir i)
      · by_cases hit : Mm.hasTable m i
        · simp only [target, pteTarget, if_pos hit] at hr
          exact h.copied i hi hp k f hr
        · simp [target, pteTarget, hit] at hr
      · simp [target, pteTarget, Mm.hasTable, hp] at hr
    · left
      rw [target, ← h.pteTarget_old hi]
      exact hr
  | .inr (.inl i) =>
    by_cases hi : i ∈ W
    · right
      rw [copies, if_pos hi]
      exact hr
    · left
      rw [target, ← h.dirTarget_old hi]
      exact hr
  | .inr (.inr t) =>
    left
    rw [target, ← h.slotTarget]
    exact hr

/-- The child names a frame no oftener than the parent, its tables aside, which
are distinct. -/
theorem Shape.refs_le (h : Shape b W shift m) (f : Nat) : refs (target m) f ≤ 2 * refs
  (target b) f + 1 := by
  have hsplit : refs (target m) f ≤ refs (target b) f + refs (copies b m W shift) f :=
    refs_le_add fun r hr => h.target_cases hr
  have hptes : refs (fun x => copies b m W shift (.inl x)) f =
      refs (fun x => target b (.inl x)) f := by
    have hcomp := refs_comp ((Equiv.addRight shift).prodCongr (Equiv.refl (Fin 1024)))
      (pteTarget b) f
    simp only [Equiv.prodCongr_apply, Prod.map_apply', Equiv.coe_addRight,
      Equiv.refl_apply] at hcomp
    simpa only [copies, target] using hcomp
  have hdirs : refs (fun i => copies b m W shift (.inr (.inl i))) f ≤ Fintype.card Unit := by
    refine refs_le_card (fun _ => ()) fun i j hi hj _ => ?_
    by_contra hne
    by_cases hiW : i ∈ W
    · by_cases hjW : j ∈ W
      · simp only [copies, if_pos hiW, if_pos hjW, dirTarget] at hi hj
        split at hi
        · split at hj
          · rename_i hit hjt
            rw [← Option.some.inj hj] at hi
            exact h.apart j hjW hjt.2 i hne hit.2 (Option.some.inj hi)
          · cases hj
        · cases hi
      · simp [copies, hjW] at hj
    · simp [copies, hiW] at hi
  have hslots : refs (fun t => copies b m W shift (.inr (.inr t))) f = 0 :=
    refs_eq_zero.mpr fun t => by simp [copies]
  have hold := refs_sum (target b) f
  rw [refs_sum (copies b m W shift), refs_sum (fun k => copies b m W shift (.inr k)), hptes,
    hslots] at hsplit
  rw [Fintype.card_unit] at hdirs
  omega

theorem Shape.table_used (h : Shape b W shift m) (hb : Accounted b) (hw : Window b W shift)
    (hm : Balanced m) (ho : Origin b W m) (hp : present (m.dir j))
    (hlow : LOW_MEM ≤ pageOf (m.dir j)) :
    m.memMap (mapNr (pageOf (m.dir j))) ≠ 0 := by
  have hbal := hm (pageOf (m.dir j))
  have hold := hb.exact (pageOf (m.dir j))
  have hlt := count_lt hb.byte (pageOf (m.dir j))
  by_cases hj : j ∈ W
  · have hge : 1 ≤ refs (target m) (pageOf (m.dir j)) :=
      one_le_refs (i := Sum.inr (Sum.inl j))
        (by simp [target, dirTarget, Mm.hasTable, hw.high j hj, hp])
    have hle := h.refs_le (pageOf (m.dir j))
    have hcount : count m (pageOf (m.dir j)) = m.memMap (mapNr (pageOf (m.dir j))) := by
      rw [count, h.high, if_pos (h.range j hj hp)]
    cases ho j hj hp with
    | inl hfree => omega
    | inr hover => omega
  · have hhigh : 16 ≤ j.val := by
      by_contra hlt
      have hkernel := hb.kernel j (by omega) (h.old j hj ▸ hp)
      rw [← h.old j hj] at hkernel
      omega
    have hself : dirTarget b j = some (pageOf (m.dir j)) := by
      rw [← h.dirTarget_old hj]
      simp [dirTarget, Mm.hasTable, hhigh, hp]
    have hle : refs (target m) (pageOf (m.dir j)) ≤ refs (target b) (pageOf (m.dir j)) := by
      refine refs_mono fun r hr => (h.target_cases hr).resolve_right fun hc => ?_
      obtain ⟨i, k⟩ | i | t := r
      · exact hb.apart _ j _ hc hself
      · by_cases hi : i ∈ W
        · simp only [copies, if_pos hi, dirTarget] at hc
          split at hc
          · rename_i hit
            exact h.apart i hi hit.2 j (fun e => hj (e ▸ hi)) hp (Option.some.inj hc).symm
          · cases hc
        · simp [copies, hi] at hc
      · cases hc
    have hge := h.refs_ge hw (pageOf (m.dir j))
    have hone : 1 ≤ refs (target b) (pageOf (m.dir j)) :=
      one_le_refs (i := Sum.inr (Sum.inl j)) hself
    obtain ⟨-, hrange⟩ := hb.range (r := .inr (.inl j)) hself
    have hcount : count m (pageOf (m.dir j)) = m.memMap (mapNr (pageOf (m.dir j))) := by
      rw [count, h.high, if_pos ⟨hlow, hrange⟩]
    omega

theorem count_congr {m' : Machine} (hmap : m'.memMap = m.memMap)
    (hhigh : m'.highMemory = m.highMemory) :
    count m' = count m := by
  funext f
  simp [count, hmap, hhigh]

theorem count_setCount (m : Machine) {f : Nat} (x : Nat) (v : Bool)
    (hf : LOW_MEM ≤ f ∧ f < m.highMemory) :
    count { m with memMap := Function.update m.memMap (mapNr f) x, wrapped := v } =
      Function.update (count m) f x := by
  funext g
  by_cases hg : g = f
  · simp [count, hg, hf]
  · by_cases hr : LOW_MEM ≤ g ∧ g < m.highMemory
    · have hne : mapNr g ≠ mapNr f := by
        simp only [mapNr]
        omega
      simp [count, hg, hr, hne]
    · simp [count, hg, hr]

theorem Shape.setCount (h : Shape b W shift m) {f x : Nat} (v : Bool) (hf : f < b.highMemory)
    (hlow : LOW_MEM ≤ f) (hx : x < 256) :
    Shape b W shift { m with memMap := Function.update m.memMap (mapNr f) x, wrapped := v } := by
  refine ⟨h.high, h.limit, h.task, h.lastPid, fun n hn => ?_, fun n hn => ?_, h.old, h.vacant,
    h.entries, h.range,
    h.apart, h.copied⟩
  · by_cases hnf : n = mapNr f
    · simpa [hnf] using hx
    · simpa [hnf] using h.byte n hn
  · have hnf : n ≠ mapNr f := by
      simp only [mapNr]
      omega
    simpa [hnf] using h.beyond n hn

section Stores
variable {w : Word}

theorem Shape.pte_setChild (h : Shape b W shift m) (hi : i ∈ W) (hp : present (m.dir i))
    {i' : Fin 1024} (hp' : present (m.dir i')) (k' : Fin 1024) :
    pte (m.setWord (pageOf (m.dir i)) k w) i' k' = if i' = i ∧ k' = k then w else pte m i' k' := by
  have hdef : pte (m.setWord (pageOf (m.dir i)) k w) i' k' =
      (m.setWord (pageOf (m.dir i)) k w).mem (pageOf (m.dir i')) k' := rfl
  rw [hdef, mem_setWord]
  by_cases hii : i' = i
  · simp [hii, pte]
  · simp [hii, h.apart i hi hp i' hii hp', pte]

theorem Shape.target_setChild (h : Shape b W shift m) (hw : Window b W shift) (hi : i ∈ W)
    (hp : present (m.dir i)) :
    target (m.setWord (pageOf (m.dir i)) k w) = Function.update (target m) (.inl (i, k))
      (entryTarget w) := by
  have hit : Mm.hasTable m i := ⟨hw.high i hi, hp⟩
  funext r
  match r with
  | .inl (i', k') =>
    by_cases hi' : Mm.hasTable m i'
    · have hpte := h.pte_setChild (w := w) (k := k) hi hp hi'.2 k'
      by_cases hik : i' = i ∧ k' = k
      · obtain ⟨rfl, rfl⟩ := hik
        simp [target, pteTarget, hasTable_setPte, hit, hpte]
      · have hne : (i', k') ≠ (i, k) := fun e => hik (Prod.mk.inj e)
        simp [target, pteTarget, hasTable_setPte, hi', hpte, hik, Function.update_of_ne, hne]
    · have hne : (i', k') ≠ (i, k) := fun e => hi' ((Prod.mk.inj e).1 ▸ hit)
      simp [target, pteTarget, hasTable_setPte, hi', Function.update_of_ne, hne]
  | .inr (.inl i') => rfl
  | .inr (.inr t) => rfl

theorem Shape.setChild (h : Shape b W shift m) (hi : i ∈ W) (hp : present (m.dir i))
    (hcopied : ∀ f, entryTarget w = some f → pteTarget b (i + shift, k) = some f) :
    Shape b W shift (m.setWord (pageOf (m.dir i)) k w) := by
  refine ⟨h.high, h.limit, h.task, h.lastPid, h.byte, h.beyond, h.old, h.vacant,
    fun i' hi' hp' k' => ?_, h.range,
    h.apart, fun i' hi' hp' k' f hf => ?_⟩
  · have hne : i' ≠ i := fun e => hi' (e ▸ hi)
    rw [h.pte_setChild hi hp (h.old i' hi' ▸ hp'), if_neg fun e => hne e.1]
    exact h.entries i' hi' hp' k'
  · rw [h.pte_setChild hi hp hp'] at hf
    by_cases hik : i' = i ∧ k' = k
    · rw [if_pos hik] at hf
      rw [hik.1, hik.2]
      exact hcopied f hf
    · rw [if_neg hik] at hf
      exact h.copied i' hi' hp' k' f hf

theorem Shape.pte_protect (h : Shape b W shift m) (hj : j ∉ W) (hp : present (m.dir j))
    {i' : Fin 1024} (hp' : present (m.dir i')) (k' : Fin 1024) :
    pte (m.setWord (pageOf (m.dir j)) k (readOnly (pte m j k))) i' k' = pte m i' k' ∨
      i' ∉ W ∧ pte (m.setWord (pageOf (m.dir j)) k (readOnly (pte m j k))) i' k' = readOnly
        (pte m i' k') := by
  have hdef : pte (m.setWord (pageOf (m.dir j)) k (readOnly (pte m j k))) i' k' =
      (m.setWord (pageOf (m.dir j)) k (readOnly (pte m j k))).mem (pageOf (m.dir i')) k' := rfl
  rw [hdef, mem_setWord]
  by_cases hpage : pageOf (m.dir i') = pageOf (m.dir j) ∧ k' = k
  · right
    refine ⟨fun hi' => ?_, ?_⟩
    · exact h.apart i' hi' hp' j (fun e => hj (e ▸ hi')) hp hpage.1.symm
    · rw [if_pos hpage, hpage.2, pte, pte, hpage.1]
  · left
    rw [if_neg hpage, pte]

theorem readOnly_idem (e : Word) : readOnly (readOnly e) = readOnly e := by
  simp [readOnly, BitVec.and_assoc]

theorem Shape.protect (h : Shape b W shift m) (hj : j ∉ W) (hp : present (m.dir j)) :
    Shape b W shift (m.setWord (pageOf (m.dir j)) k (readOnly (pte m j k))) ∧
      target (m.setWord (pageOf (m.dir j)) k (readOnly (pte m j k))) = target m := by
  refine ⟨⟨h.high, h.limit, h.task, h.lastPid, h.byte, h.beyond, h.old, h.vacant,
    fun i' hi' hp' k' => ?_,
    h.range, h.apart, fun i' hi' hp' k' f hf => ?_⟩, ?_⟩
  · have hold := h.entries i' hi' hp' k'
    cases h.pte_protect (k := k) hj hp (h.old i' hi' ▸ hp') k' with
    | inl e =>
      rw [e]
      exact hold
    | inr e =>
      right
      rw [e.2]
      cases hold with
      | inl e' => rw [e']
      | inr e' => rw [e', readOnly_idem]
  · cases h.pte_protect (k := k) hj hp hp' k' with
    | inl e => exact h.copied i' hi' hp' k' f (e ▸ hf)
    | inr e => exact absurd hi' e.1
  · funext r
    match r with
    | .inl (i', k') =>
      by_cases hi' : Mm.hasTable m i'
      · have hsame : entryTarget
          (pte (m.setWord (pageOf (m.dir j)) k (readOnly (pte m j k))) i' k') =
            entryTarget (pte m i' k') := by
          cases h.pte_protect (k := k) hj hp hi'.2 k' with
          | inl e => rw [e]
          | inr e => rw [e.2, entryTarget_readOnly]
        simp [target, pteTarget, hasTable_setPte, hi', hsame]
      · simp [target, pteTarget, hasTable_setPte, hi']
    | .inr (.inl i') => rfl
    | .inr (.inr t) => rfl

end Stores

structure Underway (b : Machine) (W : List (Fin 1024)) (shift : Fin 1024) (m : Machine) : Prop where
  shape : Shape b W shift m
  balanced : Balanced m
  origin : Origin b W m

theorem Underway.start (hb : Accounted b) (hw : Window b W shift) : Underway b W shift b :=
  ⟨.refl hb hw, .of_accounted hb, fun _ hi hp => absurd hp (hw.absent hi)⟩

theorem getFreePage_eq {g : Nat} {m₁ : Machine} (hg : getFreePage m = some (g, m₁)) :
    LOW_MEM ≤ g ∧ pageOf (userEntry g) = g ∧ m.memMap (mapNr g) = 0 ∧
      m₁ = { m with
        memMap := Function.update m.memMap (mapNr g) 1
        mem := Function.update m.mem g fun _ => 0 } := by
  obtain ⟨n, hn, hgm⟩ : ∃ n, scanFree m.memMap PAGING_PAGES = some n ∧ _ :=
    Option.map_eq_some_iff.mp hg
  obtain ⟨hlt, hfree⟩ := scanFree_some hn
  obtain ⟨hgn, hm₁⟩ := Prod.mk.inj hgm
  have hmapNr : mapNr g = n := by
    rw [← hgn]
    simp [mapNr]
  simp only [PAGING_PAGES] at hlt
  refine ⟨by omega, pageOf_userEntry ?_, by rw [hmapNr, hfree], ?_⟩
  · simp only [LOW_MEM] at hgn
    omega
  · rw [hmapNr, ← hm₁, ← hgn]

/-- `m₂` is `m` with a cleared page `g`, which was free, as the page table under entry `i`. -/
structure AddsTable (m : Machine) (i : Fin 1024) (g : Nat) (m₂ : Machine) : Prop where
  page : pageOf (userEntry g) = g
  self : m₂.dir i = userEntry g
  dir : ∀ j, j ≠ i → m₂.dir j = m.dir j
  zero : ∀ k, pte m₂ i k = 0
  other : ∀ j, j ≠ i → present (m.dir j) → ∀ k, pte m₂ j k = pte m j k
  memMap : m₂.memMap = Function.update m.memMap (mapNr g) 1
  rest : m₂.highMemory = m.highMemory ∧ m₂.limit = m.limit ∧ m₂.task = m.task ∧
    m₂.lastPid = m.lastPid

theorem addsTable_setDir {g : Nat} {m₁ : Machine} (hg : getFreePage m = some (g, m₁))
    (hne : ∀ j, present (m.dir j) → pageOf (m.dir j) ≠ g) :
    AddsTable m i g (m₁.setDir i (userEntry g)) := by
  obtain ⟨-, hpage, -, rfl⟩ := getFreePage_eq hg
  have hself : (Machine.setDir { m with
      memMap := Function.update m.memMap (mapNr g) 1
      mem := Function.update m.mem g fun _ => 0 } i (userEntry g)).dir i = userEntry g := by
    rw [dir_setDir, if_pos rfl]
  refine ⟨hpage, hself,
    fun j hj => by rw [dir_setDir, if_neg hj], fun k => ?_, fun j hj hp k => ?_, rfl,
    rfl, rfl, rfl, rfl⟩
  · rw [pte, hself, hpage]
    simp [Machine.setDir]
  · rw [pte, dir_setDir, if_neg hj]
    simp [Machine.setDir, hne j hp, pte]

namespace AddsTable
variable {g : Nat} {m₂ : Machine} (h : AddsTable m i g m₂)

include h

theorem present_self : present (m₂.dir i) := by
  rw [h.self]
  exact present_userEntry _

theorem target_eq (hhigh : 16 ≤ i.val) (habs : ¬ present (m.dir i)) :
    target m₂ = Function.update (target m) (.inr (.inl i)) (some g) := by
  have hit : Mm.hasTable m₂ i := ⟨hhigh, h.present_self⟩
  have htables : ∀ j, j ≠ i → (Mm.hasTable m₂ j ↔ Mm.hasTable m j) := fun j hj => by
    simp [Mm.hasTable, h.dir j hj]
  funext r
  obtain ⟨j, k⟩ | j | t := r
  · rw [Function.update_of_ne (by simp)]
    by_cases hj : j = i
    · have hno : ¬ Mm.hasTable m i := fun e => habs e.2
      simp [target, pteTarget, hj, hno, hit, h.zero, entryTarget]
    · by_cases hjt : Mm.hasTable m j
      · simp [target, pteTarget, htables j hj, hjt, h.other j hj hjt.2]
      · simp [target, pteTarget, htables j hj, hjt]
  · by_cases hj : j = i
    · simp [target, dirTarget, hj, hit, h.self, h.page]
    · rw [Function.update_of_ne (by simpa using hj)]
      simp [target, dirTarget, htables j hj, h.dir j hj]
  · simp [target, slotTarget, h.rest.2.2.1]

theorem refs_update_self (hhigh : 16 ≤ i.val) (habs : ¬ present (m.dir i)) :
    refs (target m₂) g = refs (target m) g + 1 := by
  have hupd := refs_update (target m) (.inr (.inl i)) (some g) g
  have hno : target m (.inr (.inl i)) = none := by simp [target, dirTarget, Mm.hasTable, habs]
  rw [← h.target_eq hhigh habs, hno] at hupd
  simpa using hupd

theorem refs_update_other (hhigh : 16 ≤ i.val) (habs : ¬ present (m.dir i)) {f : Nat} (hf : f ≠ g) :
    refs (target m₂) f = refs (target m) f := by
  have hupd := refs_update (target m) (.inr (.inl i)) (some g) f
  have hno : target m (.inr (.inl i)) = none := by simp [target, dirTarget, Mm.hasTable, habs]
  rw [← h.target_eq hhigh habs, hno] at hupd
  simpa [Ne.symm hf] using hupd

theorem shape (hs : Shape b W shift m) (hi : i ∈ W) (hrange : LOW_MEM ≤ g ∧ g < b.highMemory)
    (hne : ∀ j, present (m.dir j) → pageOf (m.dir j) ≠ g) : Shape b W shift m₂ := by
  obtain ⟨hhigh, hlimit, htask, hpid⟩ := h.rest
  refine ⟨hhigh.trans hs.high, hlimit.trans hs.limit, htask.trans hs.task, hpid.trans hs.lastPid,
    fun k hk => ?_,
    fun k hk => ?_, fun j hj => ?_, fun j hj => ?_, fun j hj hp k => ?_, fun j hj hp => ?_,
    fun j hj hp j' hjj hp' => ?_, fun j hj hp k f hf => ?_⟩
  · rw [h.memMap]
    by_cases hkn : k = mapNr g
    · simp [hkn]
    · simpa [hkn] using hs.byte k (hhigh ▸ hk)
  · have hkn : k ≠ mapNr g := by
      simp only [mapNr]
      omega
    rw [h.memMap, Function.update_of_ne hkn]
    exact hs.beyond k hk
  · rw [h.dir j fun e => hj (e ▸ hi)]
    exact hs.old j hj
  · by_cases hji : j = i
    · exact .inl (hji ▸ h.present_self)
    · rw [h.dir j hji]
      exact hs.vacant j hj
  · rw [h.other j (fun e => hj (e ▸ hi)) (hs.old j hj ▸ hp)]
    exact hs.entries j hj hp k
  · by_cases hji : j = i
    · rw [hji, h.self, h.page]
      exact hrange
    · rw [h.dir j hji] at hp ⊢
      exact hs.range j hj hp
  · by_cases hji : j = i
    · rw [hji, h.self, h.page]
      rw [hji] at hjj
      rw [h.dir j' hjj] at hp' ⊢
      exact hne j' hp'
    · rw [h.dir j hji] at hp ⊢
      by_cases hji' : j' = i
      · rw [hji', h.self, h.page]
        exact Ne.symm (hne j hp)
      · rw [h.dir j' hji'] at hp' ⊢
        exact hs.apart j hj hp j' hjj hp'
  · by_cases hji : j = i
    · rw [hji, h.zero, entryTarget_zero] at hf
      cases hf
    · rw [h.dir j hji] at hp
      rw [h.other j hji hp] at hf
      exact hs.copied j hj hp k f hf

end AddsTable

/-- The frame of a new table was free, and no directory entry named it. -/
theorem Underway.free_page (h : Underway b W shift m) (hb : Accounted b) (hw : Window b W shift)
    {g : Nat} {m₁ : Machine} (hg : getFreePage m = some (g, m₁)) :
    (LOW_MEM ≤ g ∧ g < b.highMemory) ∧ count m g = 0 ∧ ∀ j, present (m.dir j) →
    pageOf (m.dir j) ≠ g := by
  obtain ⟨hlow, -, hfree, -⟩ := getFreePage_eq hg
  have hrange : LOW_MEM ≤ g ∧ g < b.highMemory := by
    refine ⟨hlow, ?_⟩
    by_contra hge
    have hout : b.highMemory ≤ mapNr g + LOW_MEM := by
      simp only [mapNr]
      omega
    exact hb.reserved _ hout ((h.shape.beyond _ hout).symm.trans hfree)
  exact ⟨hrange, by rw [count, h.shape.high, if_pos hrange, hfree], fun j hj e =>
    h.shape.table_used hb hw h.balanced h.origin hj (e ▸ hlow) (by rw [e, hfree])⟩

theorem Underway.newTable (h : Underway b W shift m) (hb : Accounted b) (hw : Window b W shift)
    (hi : i ∈ W) (habs : ¬ present (m.dir i)) {g : Nat} {m₁ : Machine}
    (hg : getFreePage m = some (g, m₁)) :
    Underway b W shift (m₁.setDir i (userEntry g)) ∧ pageOf (userEntry g) = g ∧
      (∀ k, pte (m₁.setDir i (userEntry g)) i k = 0) ∧
      ∀ j, j ≠ i → (m₁.setDir i (userEntry g)).dir j = m.dir j := by
  obtain ⟨hrange, hcount, hne⟩ := h.free_page hb hw hg
  have hnew : AddsTable m i g (m₁.setDir i (userEntry g)) := addsTable_setDir hg hne
  have hself := hnew.refs_update_self (hw.high i hi) habs
  have hother := fun f (hf : f ≠ g) => hnew.refs_update_other (hw.high i hi) habs hf
  have hcounts : count (m₁.setDir i (userEntry g)) = Function.update (count m) g 1 := by
    rw [← count_setCount m 1 m.wrapped (h.shape.high ▸ hrange)]
    exact count_congr hnew.memMap hnew.rest.1
  have hbal := h.balanced g
  refine ⟨⟨hnew.shape h.shape hi hrange hne, fun f => ?_, fun j hj hp => ?_⟩, hnew.page,
    hnew.zero, hnew.dir⟩
  · by_cases hf : f = g
    · rw [hf, hcounts, Function.update_self, hself]
      omega
    · rw [hcounts, Function.update_of_ne hf, hother f hf]
      exact h.balanced f
  · by_cases hji : j = i
    · rw [hji, hnew.self, hnew.page, hself]
      have hge := h.shape.refs_ge hw g
      omega
    · have hpm := hp
      rw [hnew.dir j hji] at hpm ⊢
      rw [hother _ (hne j hpm)]
      exact h.origin j hj hpm

theorem Underway.refer {m' : Machine} (h : Underway b W shift m) (hs : Shape b W shift m')
    {r : Ref} {f : Nat} (hdir : m'.dir = m.dir) (hnone : target m r = none)
    (htarget : target m' = Function.update (target m) r (some f))
    (hcount : count m' = Function.update (count m) f ((count m f + 1) % 256)) :
    Underway b W shift m' := by
  have hupd := fun g => refs_update (target m) r (some f) g
  rw [← htarget, hnone] at hupd
  refine ⟨hs, fun g => ?_, fun i hi hp => ?_⟩
  · have hold := h.balanced g
    have hg := hupd g
    by_cases hgf : g = f
    · rw [hgf] at hold hg
      simp only [reduceCtorEq, if_false, if_true] at hg
      rw [hcount, hgf, Function.update_self]
      omega
    · simp only [reduceCtorEq, if_false, Option.some.injEq, Ne.symm hgf] at hg
      rw [hcount, Function.update_of_ne hgf, hold]
      rw [Nat.add_zero, Nat.add_zero] at hg
      rw [hg]
  · rw [hdir] at hp ⊢
    have hge : refs (target m) (pageOf (m.dir i)) ≤ refs (target m') (pageOf (m.dir i)) := by
      have hg := hupd (pageOf (m.dir i))
      simp only [reduceCtorEq, if_false] at hg
      omega
    exact (h.origin i hi hp).imp_right fun hlt => hlt.trans_le hge

theorem Balanced.drop {m' : Machine} {r : Ref} {f : Nat} (h : Balanced m) (hr : target m r = some f)
    (hpos : count m f ≠ 0) (htarget : target m' = Function.update (target m) r none)
    (hcount : count m' = Function.update (count m) f (count m f - 1)) : Balanced m' := by
  intro g
  have hold := h g
  have hg := refs_update (target m) r none g
  rw [← htarget, hr] at hg
  by_cases hgf : g = f
  · rw [hgf] at hold hg
    simp only [reduceCtorEq, if_false, if_true] at hg
    rw [hcount, hgf, Function.update_self]
    omega
  · simp only [reduceCtorEq, if_false, Option.some.injEq, Ne.symm hgf] at hg
    rw [Nat.add_zero, Nat.add_zero] at hg
    rw [hcount, Function.update_of_ne hgf, hold, hg]

theorem Underway.copyEntry (h : Underway b W shift m) (hb : Accounted b) (hw : Window b W shift)
    (hi : i ∈ W) (hp : present (m.dir i)) (hj : present (b.dir (i + shift)))
    (hk : ¬ present (pte m i k))
    (hsrc : Mm.hasTable b (i + shift) ∨ pageOf (pte b (i + shift) k) < LOW_MEM) :
    Underway b W shift (copyEntry (pageOf (m.dir (i + shift))) (pageOf (m.dir i)) m k) ∧
      (copyEntry (pageOf (m.dir (i + shift))) (pageOf (m.dir i)) m k).dir = m.dir ∧
      ∀ k', k' ≠ k → pte (copyEntry (pageOf (m.dir (i + shift))) (pageOf (m.dir i)) m k) i k' =
        pte m i k' := by
  have hjW := hw.source i hi
  have hold : b.dir (i + shift) = m.dir (i + shift) := (h.shape.old _ hjW).symm
  have hjm : present (m.dir (i + shift)) := hold ▸ hj
  have hne : i + shift ≠ i := fun e => hjW (by rwa [e])
  have htables : pageOf (m.dir (i + shift)) ≠ pageOf (m.dir i) := h.shape.apart i hi hp _ hne hjm
  have hpte : m.mem (pageOf (m.dir (i + shift))) k = pte m (i + shift) k := rfl
  have hentry : entryTarget (pte m (i + shift) k) = entryTarget (pte b (i + shift) k) := by
    cases h.shape.entries _ hjW hj k with
    | inl e => rw [e]
    | inr e => rw [e, entryTarget_readOnly]
  have hempty : target m (.inl (i, k)) = none := by
    simp [target, pteTarget, entryTarget, hk]
  simp only [Mm.copyEntry, hpte]
  by_cases hpe : present (pte m (i + shift) k)
  · rw [if_pos hpe]
    by_cases hlow : LOW_MEM ≤ pageOf (pte m (i + shift) k)
    · have hguard : 0x100000 < (readOnly (pte m (i + shift) k)).toNat :=
        (lowMem_lt_iff (by simpa using hpe)).mpr (by simpa [LOW_MEM] using hlow)
      have hsome : entryTarget (readOnly (pte m (i + shift) k)) =
          some (pageOf (pte m (i + shift) k)) := by
        simp [entryTarget, hpe, hlow]
      have hparent : pteTarget b (i + shift, k) = some (pageOf (pte m (i + shift) k)) := by
        have hit : Mm.hasTable b (i + shift) := by
          refine hsrc.resolve_right fun hl => ?_
          have hpage : pageOf (pte m (i + shift) k) = pageOf (pte b (i + shift) k) := by
            cases h.shape.entries _ hjW hj k with
            | inl e => rw [e]
            | inr e => rw [e, pageOf_readOnly]
          omega
        rw [pteTarget, if_pos hit, ← hentry, ← entryTarget_readOnly, hsome]
      have hrange := hb.range (r := .inl (i + shift, k)) hparent
      obtain ⟨hprot, htprot⟩ := h.shape.protect (k := k) hjW hjm
      have hchild := hprot.setChild (k := k) (w := readOnly (pte m (i + shift) k)) hi hp fun f hf =>
          by
        rw [hsome] at hf
        rw [hparent, hf]
      have htchild := hprot.target_setChild (k := k) (w := readOnly (pte m (i + shift) k)) hw hi hp
      rw [htprot, hsome] at htchild
      rw [if_pos hguard, setWord_comm _ (Ne.symm htables), pageOf_readOnly]
      refine ⟨?_, rfl, fun k' hk' => ?_⟩
      · refine h.refer (hchild.setCount _ hrange.2 hrange.1 (Nat.mod_lt _ (by omega))) rfl
          hempty htchild ?_
        rw [incMap, count_setCount _ _ _ ⟨hlow, ?_⟩]
        · have hcount : count m (pageOf (pte m (i + shift) k)) = m.memMap
              (mapNr (pageOf (pte m (i + shift) k))) := by
            rw [count, h.shape.high, if_pos hrange]
          rw [hcount]
          rfl
        · exact hprot.high ▸ hrange.2
      · have hset := hprot.pte_setChild (k := k) (w := readOnly (pte m (i + shift) k)) hi hp hp k'
        rw [if_neg fun e => hk' e.2] at hset
        refine hset.trans ?_
        exact (h.shape.pte_protect (k := k) hjW hjm hp k').resolve_right fun e => e.1 hi
    · have hguard : ¬ 0x100000 < (readOnly (pte m (i + shift) k)).toNat := fun hlt =>
        hlow (by simpa [LOW_MEM] using (lowMem_lt_iff (by simpa using hpe)).mp hlt)
      have hno : entryTarget (readOnly (pte m (i + shift) k)) = none := by simp [entryTarget, hlow]
      have hchild := h.shape.setChild (k := k) (w := readOnly (pte m (i + shift) k)) hi
          hp fun f hf => by
        rw [hno] at hf
        cases hf
      have htchild := h.shape.target_setChild (k := k)
        (w := readOnly (pte m (i + shift) k)) hw hi hp
      rw [hno, ← hempty, Function.update_eq_self] at htchild
      rw [if_neg hguard]
      refine ⟨⟨hchild, fun f => ?_, fun i' hi' hp' => ?_⟩, rfl, fun k' hk' => ?_⟩
      · rw [htchild]
        exact h.balanced f
      · rw [htchild]
        exact h.origin i' hi' hp'
      · rw [h.shape.pte_setChild hi hp hp, if_neg fun e => hk' e.2]
  · rw [if_neg hpe]
    exact ⟨h, rfl, fun _ _ => rfl⟩

theorem Underway.copyEntries (h : Underway b W shift m) (hb : Accounted b) (hw : Window b W shift)
    (hi : i ∈ W) (hp : present (m.dir i)) (hj : present (b.dir (i + shift))) (l : List (Fin 1024))
    (hl : l.Nodup) (hempty : ∀ k ∈ l, ¬ present (pte m i k))
    (hsrc : ∀ k ∈ l, Mm.hasTable b (i + shift) ∨ pageOf (pte b (i + shift) k) < LOW_MEM) :
    Underway b W shift (l.foldl (Mm.copyEntry (pageOf (m.dir (i + shift))) (pageOf (m.dir i)))
      m) := by
  induction l generalizing m with
  | nil => exact h
  | cons k l ih =>
    obtain ⟨hkl, hl⟩ := List.nodup_cons.mp hl
    obtain ⟨hstep, hdir, hothers⟩ :=
      h.copyEntry hb hw hi hp hj (hempty k List.mem_cons_self) (hsrc k List.mem_cons_self)
    have hrest := ih hstep (by rw [hdir]; exact hp) hl
      (fun k' hk' => by
        rw [hothers k' fun e => hkl (e ▸ hk')]
        exact hempty k' (List.mem_cons_of_mem k hk'))
      fun k' hk' => hsrc k' (List.mem_cons_of_mem k hk')
    rw [hdir] at hrest
    exact hrest

theorem Underway.copyTables (h : Underway b W shift m) (hb : Accounted b) (hw : Window b W shift)
    (nr : Nat) (dirs : List (Fin 1024 × Fin 1024))
    (hdirs : ∀ d ∈ dirs, d.2 ∈ W ∧ d.1 = d.2 + shift)
    (hsrc : ∀ d ∈ dirs, ∀ k ∈ (List.finRange 1024).take nr, present (b.dir d.1) →
      Mm.hasTable b d.1 ∨ pageOf (pte b d.1 k) < LOW_MEM) :
    IfReturns (fun r => Underway b W shift r.2) (copyTables nr dirs m) := by
  induction dirs generalizing m with
  | nil => exact h
  | cons d dirs ih =>
    obtain ⟨j, i⟩ := d
    obtain ⟨hi, hji⟩ := hdirs (j, i) List.mem_cons_self
    obtain rfl : j = i + shift := hji
    have hjW := hw.source i hi
    have hne : i + shift ≠ i := fun e => hjW (by rwa [e])
    have hdirs' := fun d hd => hdirs d (List.mem_cons_of_mem _ hd)
    have hsrc' := fun d hd => hsrc d (List.mem_cons_of_mem _ hd)
    rw [Mm.copyTables]
    split
    · trivial
    · rename_i habs
      split
      · rename_i hj
        cases hg : getFreePage m with
        | none => exact h
        | some r =>
          obtain ⟨g, m₁⟩ := r
          obtain ⟨hnew, hpage, hzero, hothers⟩ := h.newTable hb hw hi habs hg
          have hself : (m₁.setDir i (userEntry g)).dir i = userEntry g := by
            rw [dir_setDir, if_pos rfl]
          have hp : present ((m₁.setDir i (userEntry g)).dir i) := by
            rw [hself]
            exact present_userEntry g
          have hjb : present (b.dir (i + shift)) := h.shape.old _ hjW ▸ hj
          have hcopy := hnew.copyEntries hb hw hi hp hjb ((List.finRange 1024).take nr)
            ((List.nodup_finRange 1024).sublist (List.take_sublist ..))
            (fun k _ => by simp [hzero k]) fun k hk => hsrc _ List.mem_cons_self k hk hjb
          rw [hothers _ hne, hself, hpage] at hcopy
          exact ih hcopy hdirs' hsrc'
      · exact ih h hdirs' hsrc'

theorem Shape.freeEntry (h : Shape b W shift m) (hm : Balanced m) (hb : Accounted b)
    (hw : Window b W shift) (hi : i ∈ W) (hp : present (m.dir i)) (k : Fin 1024) :
    IfReturns (fun m' => Shape b W shift m' ∧ Balanced m' ∧ m'.dir = m.dir ∧ pte m' i k = 0 ∧
      ∀ k', pte m i k' = 0 → pte m' i k' = 0) (freeEntry (pageOf (m.dir i)) m k) := by
  have hit : Mm.hasTable m i := ⟨hw.high i hi, hp⟩
  have hpte : m.mem (pageOf (m.dir i)) k = pte m i k := rfl
  -- the store is the same whether or not a count has changed before
  have hset : ∀ m₁ : Machine, Shape b W shift m₁ → m₁.dir = m.dir → m₁.mem = m.mem →
      Shape b W shift (m₁.setWord (pageOf (m.dir i)) k 0) ∧
        pte (m₁.setWord (pageOf (m.dir i)) k 0) i k = 0 ∧
        ∀ k', pte m i k' = 0 → pte (m₁.setWord (pageOf (m.dir i)) k 0) i k' = 0 := by
    intro m₁ h₁ hdir hmem
    have hp₁ : present (m₁.dir i) := by rwa [hdir]
    have hchild := h₁.setChild (k := k) (w := 0) hi hp₁ fun f hf => by cases hf
    have hread := fun k' => h₁.pte_setChild (k := k) (w := 0) hi hp₁ hp₁ k'
    have hsame : ∀ k', pte m₁ i k' = pte m i k' := fun k' => by rw [pte, pte, hdir, hmem]
    rw [hdir] at hchild hread
    refine ⟨hchild, by rw [hread k, if_pos ⟨rfl, rfl⟩], fun k' hk' => ?_⟩
    rw [hread k', hsame, hk', ite_self]
  have htarget := h.target_setChild (k := k) (w := 0) hw hi hp
  rw [entryTarget_zero] at htarget
  have hkeep : target m (.inl (i, k)) = none → Balanced (m.setWord (pageOf (m.dir i)) k 0) := by
    intro hnone
    rw [← hnone, Function.update_eq_self] at htarget
    intro f
    rw [htarget]
    exact hm f
  obtain ⟨hplain, hgone, hgone'⟩ := hset m h rfl rfl
  simp only [Mm.freeEntry, hpte]
  by_cases hpe : present (pte m i k)
  · rw [if_pos hpe]
    by_cases hlow : LOW_MEM ≤ pageOf (pte m i k)
    · have hself : target m (.inl (i, k)) = some (pageOf (pte m i k)) := target_pte hit hpe hlow
      have hparent := h.copied i hi hp k (pageOf (pte m i k)) (by simp [entryTarget, hpe, hlow])
      have hrange := hb.range (r := .inl (i + shift, k)) hparent
      have hhigh : ¬ m.highMemory ≤ pageOf (pte m i k) := by
        rw [h.high]
        omega
      rw [freePage, if_neg (by omega), if_neg hhigh]
      by_cases hzero : m.memMap (mapNr (pageOf (pte m i k))) = 0
      · rw [if_neg (not_not_intro hzero)]
        trivial
      · rw [if_pos hzero]
        have hlt := count_lt h.byte (pageOf (pte m i k))
        have hcount : count m (pageOf (pte m i k)) = m.memMap (mapNr (pageOf (pte m i k))) := by
          rw [count, h.high, if_pos hrange]
        have hcounted := h.setCount m.wrapped hrange.2 hrange.1
          (x := m.memMap (mapNr (pageOf (pte m i k))) - 1) (by omega)
        obtain ⟨hshape, hz, hz'⟩ := hset _ hcounted rfl rfl
        refine ⟨hshape, ?_, rfl, hz, hz'⟩
        refine hm.drop hself (by rw [hcount]; exact hzero) ?_ ?_
        · rw [← htarget]
          rfl
        · rw [hcount, ← count_setCount m _ m.wrapped (by rw [h.high]; exact hrange)]
          exact count_congr rfl rfl
    · have hnone : target m (.inl (i, k)) = none := by simp [target, pteTarget, entryTarget, hlow]
      rw [freePage, if_pos (not_le.mp hlow)]
      exact ⟨hplain, hkeep hnone, rfl, hgone, hgone'⟩
  · have hnone : target m (.inl (i, k)) = none := by simp [target, pteTarget, entryTarget, hpe]
    rw [if_neg hpe]
    exact ⟨hplain, hkeep hnone, rfl, hgone, hgone'⟩

theorem Shape.freeEntries (h : Shape b W shift m) (hm : Balanced m) (hb : Accounted b)
    (hw : Window b W shift) (hi : i ∈ W) (hp : present (m.dir i)) (l : List (Fin 1024)) :
    IfReturns (fun m' => Shape b W shift m' ∧ Balanced m' ∧ m'.dir = m.dir ∧
      (∀ k ∈ l, pte m' i k = 0) ∧
      ∀ k', pte m i k' = 0 → pte m' i k' = 0) (l.foldlM (Mm.freeEntry (pageOf (m.dir i))) m) := by
  induction l generalizing m with
  | nil => exact ⟨h, hm, rfl, by simp, fun _ hk => hk⟩
  | cons k l ih =>
    rw [List.foldlM_cons]
    refine (h.freeEntry hm hb hw hi hp k).bind fun m₁ ⟨h₁, hm₁, hdir₁, hz₁, hkeep₁⟩ => ?_
    have hrest := ih h₁ hm₁ (by rwa [hdir₁])
    rw [hdir₁] at hrest
    refine hrest.mono fun m' ⟨h', hm', hdir', hz', hkeep'⟩ => ?_
    refine ⟨h', hm', hdir', fun k' hk' => ?_, fun k' hk' => hkeep' k' (hkeep₁ k' hk')⟩
    cases List.mem_cons.mp hk' with
    | inl e => exact e ▸ hkeep' k hz₁
    | inr hl => exact hz' k' hl

theorem Shape.dropTable (h : Shape b W shift m) (hw : Window b W shift) (hi : i ∈ W)
    (hzero : ∀ k, pte m i k = 0) :
    Shape b W shift (m.setDir i 0) ∧
    target (m.setDir i 0) = Function.update (target m) (.inr (.inl i)) none := by
  have hself : (m.setDir i 0).dir i = 0 := by rw [dir_setDir, if_pos rfl]
  have hothers : ∀ j, j ≠ i → (m.setDir i 0).dir j = m.dir j := fun j hj => by
    rw [dir_setDir, if_neg hj]
  have habs : ¬ present ((m.setDir i 0).dir i) := by
    rw [hself]
    simp
  have hne : ∀ j, present ((m.setDir i 0).dir j) → j ≠ i := fun j hj e => habs (e ▸ hj)
  refine ⟨⟨h.high, h.limit, h.task, h.lastPid, h.byte, h.beyond, fun j hj => ?_, fun j hj => ?_,
    fun j hj hp k => ?_, fun j hj hp => ?_, fun j hj hp j' hjj hp' => ?_, fun j hj hp k f hf => ?_⟩,
      ?_⟩
  · rw [hothers j fun e => hj (e ▸ hi)]
    exact h.old j hj
  · by_cases hji : j = i
    · right
      rw [hji, hself]
    · rw [hothers j hji]
      exact h.vacant j hj
  · have hji : j ≠ i := fun e => hj (e ▸ hi)
    rw [pte_setDir_of_ne hji]
    exact h.entries j hj hp k
  · have hpm := hp
    rw [hothers j (hne j hp)] at hpm ⊢
    exact h.range j hj hpm
  · have hpm := hp
    have hpm' := hp'
    rw [hothers j (hne j hp)] at hpm ⊢
    rw [hothers j' (hne j' hp')] at hpm' ⊢
    exact h.apart j hj hpm j' hjj hpm'
  · have hpm := hp
    rw [hothers j (hne j hp)] at hpm
    rw [pte_setDir_of_ne (hne j hp)] at hf
    exact h.copied j hj hpm k f hf
  · funext r
    match r with
    | .inl x =>
      rw [Function.update_of_ne (by simp)]
      exact pteTarget_setDir (hw.high i hi) (fun _ k => by simp [hzero k]) (by simp) x
    | .inr (.inl j) =>
      by_cases hji : j = i
      · have hno : ¬ Mm.hasTable (m.setDir i 0) i := fun e => habs e.2
        rw [hji, Function.update_self, target, dirTarget, if_neg hno]
      · rw [Function.update_of_ne (by simpa using hji)]
        simp only [target, dirTarget, hasTable_setDir_of_ne hji, hothers j hji]
    | .inr (.inr t) => rfl

theorem Shape.freeTable (h : Shape b W shift m) (hm : Balanced m) (hb : Accounted b)
    (hw : Window b W shift) (hi : i ∈ W) :
    IfReturns (fun m' => Shape b W shift m' ∧ Balanced m' ∧ ¬ present (m'.dir i) ∧
      ∀ j, ¬ present (m.dir j) → ¬ present (m'.dir j)) (freeTable m i) := by
  have hall : ∀ k, k ∈ List.finRange 1024 := List.mem_finRange
  simp only [Mm.freeTable]
  generalize List.finRange 1024 = entries at hall ⊢
  split
  · rename_i hp
    refine (h.freeEntries hm hb hw hi hp entries).bind fun m₁ hfreed => ?_
    obtain ⟨h₁, hm₁, hdir₁, hz₁, -⟩ := hfreed
    have hp₁ : present (m₁.dir i) := by rwa [hdir₁]
    have hrange := h₁.range i hi hp₁
    have hhigh : ¬ m₁.highMemory ≤ pageOf (m₁.dir i) := by
      rw [h₁.high]
      omega
    rw [freePage, if_neg (by omega), if_neg hhigh]
    by_cases hzero : m₁.memMap (mapNr (pageOf (m₁.dir i))) = 0
    · rw [if_neg (not_not_intro hzero)]
      trivial
    · rw [if_pos hzero]
      have hlt := count_lt h₁.byte (pageOf (m₁.dir i))
      have hcount : count m₁ (pageOf (m₁.dir i)) = m₁.memMap (mapNr (pageOf (m₁.dir i))) := by
        rw [count, h₁.high, if_pos hrange]
      have hcounted := h₁.setCount m₁.wrapped hrange.2 hrange.1
        (x := m₁.memMap (mapNr (pageOf (m₁.dir i))) - 1) (by omega)
      obtain ⟨hshape, htarget⟩ := hcounted.dropTable hw hi fun k => hz₁ k (hall k)
      have hself : target m₁ (.inr (.inl i)) = some (pageOf (m₁.dir i)) := by
        simp [target, dirTarget, Mm.hasTable, hw.high i hi, hp₁]
      refine ⟨hshape, ?_, ?_, fun j hj => ?_⟩
      · refine hm₁.drop hself (by rw [hcount]; exact hzero) ?_ ?_
        · exact htarget
        · rw [hcount, ← count_setCount m₁ _ m₁.wrapped (by rw [h₁.high]; exact hrange)]
          exact count_congr rfl rfl
      · rw [dir_setDir, if_pos rfl]
        simp
      · rw [dir_setDir]
        by_cases hji : j = i
        · simp [hji]
        · rw [if_neg hji]
          exact hdir₁ ▸ hj
  · rename_i hp
    exact ⟨h, hm, hp, fun _ hj => hj⟩

theorem Shape.freeTables (h : Shape b W shift m) (hm : Balanced m) (hb : Accounted b)
    (hw : Window b W shift) (l : List (Fin 1024)) (hl : ∀ i ∈ l, i ∈ W) :
    IfReturns (fun m' => Shape b W shift m' ∧ Balanced m' ∧ (∀ i ∈ l, ¬ present (m'.dir i)) ∧
      ∀ j, ¬ present (m.dir j) → ¬ present (m'.dir j)) (l.foldlM Mm.freeTable m) := by
  induction l generalizing m with
  | nil => exact ⟨h, hm, by simp, fun _ hj => hj⟩
  | cons i l ih =>
    rw [List.foldlM_cons]
    refine (h.freeTable hm hb hw (hl i List.mem_cons_self)).bind fun m₁ ⟨h₁, hm₁, hz₁, hkeep₁⟩ => ?_
    refine (ih h₁ hm₁ fun j hj => hl j (List.mem_cons_of_mem i hj)).mono fun m'
      ⟨h', hm', hz', hkeep'⟩ => ?_
    refine ⟨h', hm', fun j hj => ?_, fun j hj => hkeep' j (hkeep₁ j hj)⟩
    cases List.mem_cons.mp hj with
    | inl e => exact e ▸ hkeep' i hz₁
    | inr hjl => exact hz' j hjl

theorem Shape.restored (h : Shape b W shift m) (hm : Balanced m) (hb : Accounted b)
    (hw : Window b W shift) (hgone : ∀ i ∈ W, ¬ present (m.dir i)) :
    m.memMap = b.memMap ∧ m.dir = b.dir := by
  have htarget : ∀ r f, target m r = some f → target b r = some f := by
    intro r f hr
    match r with
    | .inl (i, k) =>
      by_cases hi : i ∈ W
      · simp [target, pteTarget, Mm.hasTable, hgone i hi] at hr
      · rw [target, ← h.pteTarget_old hi]
        exact hr
    | .inr (.inl i) =>
      by_cases hi : i ∈ W
      · simp [target, dirTarget, Mm.hasTable, hgone i hi] at hr
      · rw [target, ← h.dirTarget_old hi]
        exact hr
    | .inr (.inr t) =>
      rw [target, ← h.slotTarget]
      exact hr
  have hcount : ∀ f, count m f = count b f := by
    intro f
    have hge := h.refs_ge hw f
    have hle : refs (target m) f ≤ refs (target b) f := refs_mono fun r hr => htarget r f hr
    have hbal := hm f
    have hex := hb.exact f
    have hlt := count_lt hb.byte f
    have hlt' := count_lt h.byte f
    omega
  constructor
  · funext n
    by_cases hn : b.highMemory ≤ n + LOW_MEM
    · exact h.beyond n hn
    · have hmapNr : mapNr (n + LOW_MEM) = n := by simp [mapNr]
      have hin : LOW_MEM ≤ n + LOW_MEM ∧ n + LOW_MEM < b.highMemory := ⟨by omega, not_le.mp hn⟩
      have hc := hcount (n + LOW_MEM)
      rwa [count, count, h.high, if_pos hin, if_pos hin, hmapNr] at hc
  · funext i
    by_cases hi : i ∈ W
    · rw [(h.vacant i hi).resolve_left (hgone i hi), hw.empty i hi]
    · exact h.old i hi

end Hios.Mm
