import Hios.Mm.Frames

/-! The single stores by which the kernel changes tables, directory, counts and
task slots: what each does to the references and to the views. -/
namespace Hios.Mm
open Hios.Kernel Hios.RefCount
variable {c : Config} {held : List Nat} {m : Machine}

theorem mem_setWord (m : Machine) (p : Nat) (k : Fin 1024) (w : Word) (q : Nat) (j : Fin 1024) :
    (m.setWord p k w).mem q j = if q = p ∧ j = k then w else m.mem q j := by
  by_cases hq : q = p
  · subst hq
    by_cases hj : j = k <;> simp [Machine.setWord, hj]
  · simp [Machine.setWord, hq]

theorem mem_setWord_of_ne (m : Machine) {p q : Nat} (k : Fin 1024) (w : Word) (h : q ≠ p) :
    (m.setWord p k w).mem q = m.mem q := by
  simp [Machine.setWord, h]

theorem Inv.ref_unique (h : Inv c held m) {r r' : Ref} {f : Nat} (hone : count m f = 1)
    (hr : target m r = some f) (hr' : target m r' = some f) : r' = r := h.valid.unique hone hr hr'

theorem target_pte {i k : Fin 1024} (hi : hasTable m i) (hp : present (pte m i k))
    (hlow : LOW_MEM ≤ pageOf (pte m i k)) : target m (.inl (i, k)) = some (pageOf (pte m i k)) := by
  simp [target, pteTarget, hi, entryTarget, hp, hlow]

theorem Inv.table_range (h : Inv c held m) {i : Fin 1024} (hi : hasTable m i) :
    LOW_MEM ≤ pageOf (m.dir i) ∧ pageOf (m.dir i) < c.high :=
  h.range (.inr (.inl i)) _ (by simp [target, dirTarget, hi])

theorem Inv.table_unique (h : Inv c held m) {i : Fin 1024} (hi : hasTable m i) {r : Ref}
    (hr : target m r = some (pageOf (m.dir i))) : r = .inr (.inl i) := by
  have ht : target m (.inr (.inl i)) = some (pageOf (m.dir i)) := by simp [target, dirTarget, hi]
  have hs : (references m held).sole (.inr (.inl i)) := trivial
  exact h.ref_unique (h.valid.sole _ _ hs ht) ht hr

theorem Inv.table_inj (h : Inv c held m) {i i' : Fin 1024} (hi : hasTable m i) (hi' : hasTable m i')
    (heq : pageOf (m.dir i') = pageOf (m.dir i)) : i' = i := by
  have hr : target m (.inr (.inl i')) = some (pageOf (m.dir i)) := by
    simp [target, dirTarget, hi', heq]
  simpa using h.table_unique hi hr

theorem Inv.page_ne_table (h : Inv c held m) {i i' k : Fin 1024} (hi : hasTable m i)
    (hi' : hasTable m i') (hp : present (pte m i' k)) : pageOf (pte m i' k) ≠ pageOf (m.dir i) := by
  intro heq
  by_cases hlow : LOW_MEM ≤ pageOf (pte m i' k)
  · have hr : target m (.inl (i', k)) = some (pageOf (m.dir i)) := by
      simp [target, pteTarget, hi', entryTarget, hp, hlow, ← heq]
    simpa using h.table_unique hi hr
  · have := (h.table_range hi).1
    omega

structure SameTables (m m' : Machine) : Prop where
  dir : ∀ i : Fin 1024, 16 ≤ i.val → m'.dir i = m.dir i
  pte : ∀ i k, hasTable m i → pte m' i k = pte m i k

theorem SameTables.hasTable {m' : Machine} (h : SameTables m m') (i : Fin 1024) :
    hasTable m' i ↔ hasTable m i := by
  by_cases hi : 16 ≤ i.val
  · simp [Mm.hasTable, h.dir i hi]
  · simp [Mm.hasTable, hi]

theorem SameTables.target {m' : Machine} (h : SameTables m m') (htask : m'.task = m.task) :
    target m' = target m := by
  funext r
  match r with
  | .inl (i, k) =>
    by_cases hi : Mm.hasTable m i
    · simp [Mm.target, pteTarget, h.hasTable, hi, h.pte]
    · simp [Mm.target, pteTarget, h.hasTable, hi]
  | .inr (.inl i) =>
    by_cases hi : Mm.hasTable m i
    · simp [Mm.target, dirTarget, h.hasTable, hi, h.dir i hi.1]
    · simp [Mm.target, dirTarget, h.hasTable, hi]
  | .inr (.inr t) => simp [Mm.target, slotTarget, htask]

theorem SameTables.sole {m' : Machine} (h : SameTables m m') {r : Ref} (hr : sole m' r) :
    sole m r := by
  match r with
  | .inl (i, k) =>
    have hi := (h.hasTable i).mp hr.1
    exact ⟨hi, h.pte i k hi ▸ hr.2⟩
  | .inr _ => trivial

theorem Inv.of_sameTables {m' : Machine} (h : Inv c held m) (hs : SameTables m m')
    (hlow : ∀ p k, p < LOW_MEM → m'.mem p k = m.mem p k)
    (hlowDir : ∀ i : Fin 1024, i.val < 16 → m'.dir i = m.dir i) (hmap : m'.memMap = m.memMap)
    (hhigh : m'.highMemory = m.highMemory) (hlimit : m'.limit = m.limit)
    (hwrap : m'.wrapped = m.wrapped) (htask : m'.task = m.task) :
    Inv c held m' := by
  have htarget := hs.target htask
  have hcount : count m' = count m := by funext f; simp [count, hmap, hhigh]
  have hpte : ∀ x, pteTarget m' x = pteTarget m x := fun x => congrFun htarget (.inl x)
  refine ⟨hhigh.trans h.high, hlimit.trans h.limit, hwrap.trans h.unwrapped,
    fun p k hp => (hlow p k hp).trans (h.low p k hp),
    fun i hi => (hlowDir i hi).trans (h.lowDir i hi), hmap ▸ h.used, ?_, ?_, h.heldRange, ?_, ?_,
      ?_, htask ▸ h.base⟩
  · rw [references, htarget, hcount]
    exact h.valid.resole fun r f hr _ => .inl (hs.sole hr)
  · rw [htarget]
    exact h.range
  · intro i hi
    rw [htask]
    exact h.dirs i ((hs.hasTable i).mp hi)
  · intro i k hi hw
    have hi' := (hs.hasTable i).mp hi
    rw [hs.pte i k hi'] at hw ⊢
    exact h.entries i k hi' hw
  · intro i k k' f h₁ h₂
    rw [hpte] at h₁ h₂
    exact h.once i k k' f h₁ h₂

def Machine.setPage (m : Machine) (p : Nat) (x : Fin 1024 → Word) : Machine :=
  { m with mem := Function.update m.mem p x }

theorem mem_setPage_of_ne (m : Machine) {p q : Nat} (x : Fin 1024 → Word) (h : q ≠ p) :
    (Machine.setPage m p x).mem q = m.mem q := by
  simp [Machine.setPage, h]

theorem count_setPage (m : Machine) (p : Nat) (x : Fin 1024 → Word) :
    count (Machine.setPage m p x) = count m := rfl

theorem sameTables_setPage {p : Nat} (x : Fin 1024 → Word)
    (hne : ∀ i, hasTable m i → pageOf (m.dir i) ≠ p) : SameTables m (Machine.setPage m p x) := by
  refine ⟨fun _ _ => rfl, fun i k hi => ?_⟩
  have hdir : pte (Machine.setPage m p x) i k = (Machine.setPage m p x).mem (pageOf (m.dir i)) k :=
    rfl
  rw [hdir, mem_setPage_of_ne m x (hne i hi), pte]

theorem Inv.setPage (h : Inv c held m) {p : Nat} (x : Fin 1024 → Word) (hp : LOW_MEM ≤ p)
    (hne : ∀ i, hasTable m i → pageOf (m.dir i) ≠ p) : Inv c held (Machine.setPage m p x) := by
  refine h.of_sameTables (sameTables_setPage x hne) (fun q k hq => ?_) (fun _ _ => rfl) rfl
    rfl rfl rfl rfl
  rw [mem_setPage_of_ne m x (by omega)]

theorem view_setPage {p : Nat} (x : Fin 1024 → Word) (hp : LOW_MEM ≤ p)
    (hnone : ∀ r, target m r ≠ some p) (i k j : Fin 1024) :
    view (Machine.setPage m p x) i k j = view m i k j := by
  have hne : ∀ i, hasTable m i → pageOf (m.dir i) ≠ p := fun i hi e =>
    hnone (.inr (.inl i)) (by simp [target, dirTarget, hi, e])
  have hs := sameTables_setPage x hne
  by_cases hi : hasTable m i
  · by_cases hpr : present (pte m i k)
    · have hpage : pageOf (pte m i k) ≠ p := by
        intro e
        exact hnone (.inl (i, k)) (by simp [target, pteTarget, hi, entryTarget, hpr, e, hp])
      simp only [view, hs.hasTable, hs.pte i k hi, mem_setPage_of_ne m x hpage]
    · simp [view, hs.hasTable, hi, hs.pte, hpr]
  · simp [view, hs.hasTable, hi]

def Machine.setMap (m : Machine) (page x : Nat) : Machine :=
  { m with memMap := Function.update m.memMap (mapNr page) x }

theorem setWord_setMap (m : Machine) (f x p : Nat) (k : Fin 1024) (w : Word) :
    (Machine.setMap m f x).setWord p k w = Machine.setMap (m.setWord p k w) f x := rfl

theorem setDir_setMap (m : Machine) (f x : Nat) (i : Fin 1024) (w : Word) :
    (Machine.setMap m f x).setDir i w = Machine.setMap (m.setDir i w) f x := rfl

theorem count_setWord (m : Machine) (p : Nat) (k : Fin 1024) (w : Word) :
    count (m.setWord p k w) = count m := rfl

theorem count_setDir (m : Machine) (i : Fin 1024) (w : Word) : count (m.setDir i w) = count m := rfl

theorem count_setMap (h : Inv c held m) {f x : Nat} (hf : LOW_MEM ≤ f ∧ f < c.high) :
    count (Machine.setMap m f x) = Function.update (count m) f x := by
  funext g
  by_cases hg : g = f
  · simp [count, Machine.setMap, hg, h.high, hf]
  · by_cases hr : LOW_MEM ≤ g ∧ g < c.high
    · have hne : mapNr g ≠ mapNr f := by simp only [mapNr]; omega
      simp [count, Machine.setMap, h.high, hg, hr, hne]
    · simp [count, Machine.setMap, h.high, hg, hr]

theorem Inv.setMap {held' : List Nat} (h : Inv c held m) {f x : Nat} (hf : LOW_MEM ≤ f ∧ f < c.high)
    (hvalid : Refs.Valid ⟨target m, sole m, held', Function.update (count m) f x⟩)
    (hheld : ∀ g ∈ held', LOW_MEM ≤ g ∧ g < c.high) : Inv c held' (Machine.setMap m f x) := by
  refine ⟨h.high, h.limit, h.unwrapped, h.low, h.lowDir, fun n hn => ?_, ?_, h.range, hheld, h.dirs,
    h.entries, h.once, h.base⟩
  · have hne : n ≠ mapNr f := by simp only [mapNr]; omega
    simpa [Machine.setMap, hne] using h.used n hn
  · rw [references, count_setMap h hf]
    exact hvalid

theorem scanFree_some {memMap : Nat → Nat} {n k : Nat} (h : scanFree memMap n = some k) :
    k < n ∧ memMap k = 0 := by
  induction n with
  | zero => simp [scanFree] at h
  | succ n ih =>
    by_cases hn : memMap n = 0
    · obtain rfl : n = k := by simpa [scanFree, hn] using h
      exact ⟨by omega, hn⟩
    · have hk := ih (by simpa [scanFree, hn] using h)
      exact ⟨by omega, hk.2⟩

structure FreshPage (c : Config) (held : List Nat) (m : Machine) (f : Nat) (m' : Machine) :
  Prop where
  inv : Inv c (f :: held) m'
  range : LOW_MEM ≤ f ∧ f < c.high
  none : ∀ r, target m r ≠ some f
  zero : m'.mem f = fun _ => 0
  others : ∀ p, p ≠ f → m'.mem p = m.mem p
  dir : m'.dir = m.dir
  same : SameTables m m'
  task : m'.task = m.task
  lastPid : m'.lastPid = m.lastPid
  count : count m' f = 1
  countOthers : ∀ p, p ≠ f → Mm.count m' p = Mm.count m p
  notHeld : f ∉ held
  view : ∀ i k j, view m' i k j = view m i k j

theorem Inv.freshPage (h : Inv c held m) {f : Nat} {m' : Machine}
    (hg : getFreePage m = some (f, m')) : FreshPage c held m f m' := by
  obtain ⟨n, hn, hfm⟩ : ∃ n, scanFree m.memMap PAGING_PAGES = some n ∧ _ :=
    Option.map_eq_some_iff.mp hg
  obtain ⟨-, hfree⟩ := scanFree_some hn
  obtain ⟨rfl, rfl⟩ := Prod.mk.inj hfm
  have hrange : LOW_MEM ≤ n + LOW_MEM ∧ n + LOW_MEM < c.high := by
    refine ⟨by omega, ?_⟩
    by_contra hge
    exact h.used n (by omega) hfree
  have hmapNr : mapNr (n + LOW_MEM) = n := by simp [mapNr]
  have hcount : count m (n + LOW_MEM) = 0 := by simp [count, h.high, hrange, hmapNr, hfree]
  have hnone : ∀ r, target m r ≠ some (n + LOW_MEM) := fun r hr => h.valid.count_pos hr hcount
  have hheld : n + LOW_MEM ∉ held := by
    intro hmem
    have hex := h.valid.exact (n + LOW_MEM)
    have hpos := List.count_pos_iff.mpr hmem
    simp only [references, hcount] at hex
    omega
  have hne : ∀ i, hasTable m i → pageOf (m.dir i) ≠ n + LOW_MEM := fun i hi e =>
    hnone (.inr (.inl i)) (by simp [target, dirTarget, hi, e])
  have hmap : Inv c ((n + LOW_MEM) :: held) (Machine.setMap m (n + LOW_MEM) 1) := by
    refine h.setMap hrange (h.valid.take hcount) fun g hg => ?_
    cases List.mem_cons.mp hg with
    | inl e => exact e ▸ hrange
    | inr hg => exact h.heldRange g hg
  have hm' : ({ m with
      memMap := Function.update m.memMap n 1
      mem := Function.update m.mem (n + LOW_MEM) fun _ => 0 } : Machine) =
        Machine.setPage (Machine.setMap m (n + LOW_MEM) 1) (n + LOW_MEM) fun _ => 0 := by
    simp [Machine.setPage, Machine.setMap, hmapNr]
  rw [hm']
  have hcount' : ∀ p, count
    (Machine.setPage (Machine.setMap m (n + LOW_MEM) 1) (n + LOW_MEM) fun _ => 0) p =
      Function.update (count m) (n + LOW_MEM) 1 p := by
    rw [count_setPage, count_setMap h hrange]
    exact fun _ => rfl
  have hsame := sameTables_setPage (m := Machine.setMap m (n + LOW_MEM) 1) (fun _ => 0) hne
  refine ⟨hmap.setPage _ hrange.1 hne, hrange, hnone, ?_, fun p hp => ?_, rfl, ?_, rfl, rfl, ?_,
    ?_, hheld, ?_⟩
  · simp [Machine.setPage]
  · exact mem_setPage_of_ne _ _ hp
  · exact ⟨hsame.dir, hsame.pte⟩
  · rw [hcount', Function.update_self]
  · intro p hp
    rw [hcount', Function.update_of_ne hp]
  · exact view_setPage (m := Machine.setMap m (n + LOW_MEM) 1) _ hrange.1 hnone

theorem FreshPage.ne_page {f : Nat} {m' : Machine} (h : FreshPage c held m f m') {i k : Fin 1024}
    (hi : hasTable m i) (hp : present (pte m i k)) : pageOf (pte m i k) ≠ f := by
  intro e
  exact h.none (.inl (i, k)) (e ▸ target_pte hi hp (e ▸ h.range.1))

section SetPte
variable {i k : Fin 1024} {w : Word}

theorem hasTable_setPte (i' : Fin 1024) (p : Nat) : hasTable (m.setWord p k w) i' ↔ hasTable m i' :=
  .rfl

theorem Inv.pte_setPte (h : Inv c held m) (hi : hasTable m i) {i' : Fin 1024} (hi' : hasTable m i')
    (k' : Fin 1024) :
    pte (m.setWord (pageOf (m.dir i)) k w) i' k' = if i' = i ∧ k' = k then w else pte m i' k' := by
  have hdir : pte (m.setWord (pageOf (m.dir i)) k w) i' k' =
      (m.setWord (pageOf (m.dir i)) k w).mem (pageOf (m.dir i')) k' := rfl
  rw [hdir, mem_setWord]
  by_cases hii : i' = i
  · simp [hii, pte]
  · have hne : pageOf (m.dir i') ≠ pageOf (m.dir i) := fun e => hii (h.table_inj hi hi' e)
    simp [hii, hne, pte]

theorem Inv.target_setPte (h : Inv c held m) (hi : hasTable m i) :
    target (m.setWord (pageOf (m.dir i)) k w) =
      Function.update (target m) (.inl (i, k)) (entryTarget w) := by
  funext r
  match r with
  | .inl (i', k') =>
    by_cases hi' : hasTable m i'
    · have hpte := h.pte_setPte (w := w) (k := k) hi hi' k'
      by_cases hik : i' = i ∧ k' = k
      · obtain ⟨rfl, rfl⟩ := hik
        simp [target, pteTarget, hasTable_setPte, hi, hpte]
      · have hne : (i', k') ≠ (i, k) := fun e => hik (Prod.mk.inj e)
        simp [target, pteTarget, hasTable_setPte, hi', hpte, hik, Function.update_of_ne, hne]
    · have hne : (i', k') ≠ (i, k) := fun e => hi' ((Prod.mk.inj e).1 ▸ hi)
      simp [target, pteTarget, hasTable_setPte, hi', Function.update_of_ne, hne]
  | .inr (.inl i') => rfl
  | .inr (.inr t) => rfl

theorem Inv.setPte {held' : List Nat} (h : Inv c held m) (sole' : Ref → Prop) (hi : hasTable m i)
    (hvalid : Refs.Valid ⟨Function.update (target m) (.inl (i, k)) (entryTarget w), sole',
      held', count m⟩)
    (hsole : ∀ r, sole (m.setWord (pageOf (m.dir i)) k w) r → sole' r)
    (hheld : ∀ f ∈ held', LOW_MEM ≤ f ∧ f < c.high)
    (hrange : ∀ f, entryTarget w = some f → f < c.high) (hw : writable w → LOW_MEM ≤ pageOf w)
    (honce : ∀ k', k' ≠ k → ∀ f, entryTarget w = some f → pteTarget m (i, k') ≠ some f) :
    Inv c held' (m.setWord (pageOf (m.dir i)) k w) := by
  have htarget := h.target_setPte (w := w) (k := k) hi
  have hpteTarget : ∀ x, pteTarget (m.setWord (pageOf (m.dir i)) k w) x =
      if x = (i, k) then entryTarget w else pteTarget m x := by
    intro x
    have hx : pteTarget (m.setWord (pageOf (m.dir i)) k w) x =
        Function.update (target m) (.inl (i, k)) (entryTarget w) (.inl x) :=
          congrFun htarget (.inl x)
    by_cases hxe : x = (i, k)
    · subst hxe
      simpa using hx
    · rw [Function.update_of_ne (fun e => hxe (Sum.inl.inj e))] at hx
      rw [if_neg hxe]
      exact hx
  refine ⟨h.high, h.limit, h.unwrapped, fun p j hp => ?_, h.lowDir, h.used, ?_, ?_, hheld, h.dirs,
    ?_, ?_, h.base⟩
  · rw [mem_setWord_of_ne _ _ _ (by have := (h.table_range hi).1; omega)]
    exact h.low p j hp
  · have hcount : count (m.setWord (pageOf (m.dir i)) k w) = count m := rfl
    rw [references, htarget, hcount]
    exact hvalid.resole fun r f hs _ => .inl (hsole r hs)
  · intro r f hr
    rw [htarget] at hr
    by_cases hre : r = .inl (i, k)
    · rw [hre, Function.update_self] at hr
      refine ⟨?_, hrange f hr⟩
      simp only [entryTarget, Option.ite_none_right_eq_some, Option.some.injEq] at hr
      omega
    · exact h.range r f (by rwa [Function.update_of_ne hre] at hr)
  · intro i' k' hi' hwr
    have hi'' : hasTable m i' := hi'
    rw [h.pte_setPte hi hi''] at hwr ⊢
    by_cases hik : i' = i ∧ k' = k
    · rw [if_pos hik] at hwr ⊢
      exact hw hwr
    · rw [if_neg hik] at hwr ⊢
      exact h.entries i' k' hi'' hwr
  · intro i' k₁ k₂ f h₁ h₂
    rw [hpteTarget] at h₁ h₂
    by_cases e₁ : (i', k₁) = (i, k)
    · by_cases e₂ : (i', k₂) = (i, k)
      · exact (Prod.mk.inj (e₁.trans e₂.symm)).2
      · obtain ⟨rfl, rfl⟩ := Prod.mk.inj e₁
        rw [if_pos rfl] at h₁
        rw [if_neg e₂] at h₂
        exact absurd h₂ (honce k₂ (fun e => e₂ (by rw [e])) f h₁)
    · by_cases e₂ : (i', k₂) = (i, k)
      · obtain ⟨rfl, rfl⟩ := Prod.mk.inj e₂
        rw [if_pos rfl] at h₂
        rw [if_neg e₁] at h₁
        exact absurd h₁ (honce k₁ (fun e => e₁ (by rw [e])) f h₂)
      · rw [if_neg e₁] at h₁
        rw [if_neg e₂] at h₂
        exact h.once i' k₁ k₂ f h₁ h₂

theorem Inv.view_setPte (h : Inv c held m) (hi : hasTable m i) (i' k' j : Fin 1024) :
    view (m.setWord (pageOf (m.dir i)) k w) i' k' j =
      if i' = i ∧ k' = k then
        if present w then (m.setWord (pageOf (m.dir i)) k w).mem (pageOf w) j else 0
      else view m i' k' j := by
  by_cases hi' : hasTable m i'
  · have hpte := h.pte_setPte (w := w) (k := k) hi hi' k'
    by_cases hik : i' = i ∧ k' = k
    · rw [if_pos hik] at hpte ⊢
      simp [view, hasTable_setPte, hi', hpte]
    · rw [if_neg hik] at hpte ⊢
      simp only [view, hasTable_setPte, hpte]
      by_cases hp : present (pte m i' k')
      · rw [mem_setWord_of_ne _ _ _ (h.page_ne_table hi hi' hp)]
      · simp [hp]
  · have hik : ¬ (i' = i ∧ k' = k) := fun e => hi' (e.1 ▸ hi)
    simp [view, hasTable_setPte, hi', hik]

end SetPte

theorem Inv.count_eq (h : Inv c held m) {f : Nat} (hf : LOW_MEM ≤ f ∧ f < c.high) :
    count m f = m.memMap (mapNr f) := by
  simp [count, h.high, hf]

theorem Inv.freePage_eq (h : Inv c held m) {f : Nat} (hf : LOW_MEM ≤ f ∧ f < c.high)
    (hpos : count m f ≠ 0) : freePage f m = .ok (Machine.setMap m f (count m f - 1)) := by
  have hlow : ¬ f < LOW_MEM := by omega
  have hhigh : ¬ c.high ≤ f := by omega
  have hcount := h.count_eq hf
  simp [Mm.freePage, hlow, h.high, hhigh, ← hcount, hpos, Machine.setMap]

theorem Inv.drop {f : Nat} (h : Inv c (f :: held) m) :
    Inv c held (Machine.setMap m f (count m f - 1)) :=
  h.setMap (h.heldRange f List.mem_cons_self) (h.valid.drop rfl) fun g hg =>
    h.heldRange g (List.mem_cons_of_mem f hg)

theorem Inv.freePage {f : Nat} (h : Inv c (f :: held) m) :
    Mm.freePage f m = .ok (Machine.setMap m f (count m f - 1)) :=
  h.freePage_eq (h.heldRange f List.mem_cons_self) (h.valid.drop_pos rfl)

/-- At most one reference of each kind for each task, so the counter cannot
wrap. -/
theorem Inv.count_le (h : Inv c held m) (f : Nat) : count m f ≤ 192 + held.count f := by
  have hcard : Fintype.card TaskNr = 64 := by simp [NR_TASKS]
  have hslot : ∀ i, hasTable m i → ∃ t, i = slotDir t := fun i hi => by
    obtain ⟨t, -, ht, -⟩ := h.dirs i hi
    exact ⟨t, ht⟩
  let slotOf (i : Fin 1024) : TaskNr := ⟨i.val / 16, by simp only [NR_TASKS]; omega⟩
  have hinj : ∀ i i', hasTable m i → hasTable m i' → slotOf i = slotOf i' → i = i' := by
    intro i i' hi hi' he
    obtain ⟨t, rfl⟩ := hslot i hi
    obtain ⟨t', rfl⟩ := hslot i' hi'
    have hval : 16 * t.val / 16 = 16 * t'.val / 16 := congrArg Fin.val he
    have htt : t = t' := Fin.ext (by omega)
    rw [htt]
  have hpte : refs (fun x => target m (.inl x)) f ≤ 64 := by
    refine hcard ▸ refs_le_card (fun x => slotOf x.1) fun x y hx hy he => ?_
    have hx' : pteTarget m x = some f := hx
    have hy' : pteTarget m y = some f := hy
    have hxt : hasTable m x.1 := by by_contra hn; simp [pteTarget, hn] at hx'
    have hyt : hasTable m y.1 := by by_contra hn; simp [pteTarget, hn] at hy'
    have hxy : x.1 = y.1 := hinj x.1 y.1 hxt hyt he
    exact Prod.ext hxy (h.once x.1 x.2 y.2 f hx' (hxy ▸ hy'))
  have hdir : refs (fun i => target m (.inr (.inl i))) f ≤ 64 := by
    refine hcard ▸ refs_le_card slotOf fun i j hi hj he => ?_
    have hi' : dirTarget m i = some f := hi
    have hj' : dirTarget m j = some f := hj
    have hit : hasTable m i := by by_contra hn; simp [dirTarget, hn] at hi'
    have hjt : hasTable m j := by by_contra hn; simp [dirTarget, hn] at hj'
    exact hinj i j hit hjt he
  have htask : refs (fun t => target m (.inr (.inr t))) f ≤ 64 :=
    hcard ▸ refs_le_card id fun _ _ _ _ he => he
  have hex : count m f = refs (target m) f + held.count f := h.valid.exact f
  rw [refs_sum, refs_sum] at hex
  omega

theorem Inv.decMap_eq {f : Nat} (h : Inv c held m) (hf : LOW_MEM ≤ f ∧ f < c.high)
    (hpos : count m f ≠ 0) (hheld : held.count f ≤ 63) :
    decMap f m = Machine.setMap m f (count m f - 1) := by
  have hle := h.count_le f
  have hcount := h.count_eq hf
  have hmod : (m.memMap (mapNr f) + 255) % 256 = m.memMap (mapNr f) - 1 := by omega
  simp [Mm.decMap, Machine.setMap, hmod, hcount, hcount ▸ hpos]

theorem Inv.incMap {f : Nat} (h : Inv c held m) (hf : LOW_MEM ≤ f ∧ f < c.high)
    (hheld : held.count f ≤ 62) (hsole : ∀ r, sole m r → target m r ≠ some f) :
    incMap f m = Machine.setMap m f (count m f + 1) ∧
      Inv c (f :: held) (Machine.setMap m f (count m f + 1)) := by
  have hle := h.count_le f
  have hcount := h.count_eq hf
  have hmod : (m.memMap (mapNr f) + 1) % 256 = m.memMap (mapNr f) + 1 := by omega
  have hlt : m.memMap (mapNr f) ≠ 255 := by omega
  refine ⟨by simp [Mm.incMap, Machine.setMap, hmod, hcount, hlt], ?_⟩
  refine h.setMap hf (h.valid.share hsole) fun g hg => ?_
  cases List.mem_cons.mp hg with
  | inl e => exact e ▸ hf
  | inr hg => exact h.heldRange g hg

section Directory
variable {i : Fin 1024} {w : Word}

theorem dir_setDir (m : Machine) (i i' : Fin 1024) (w : Word) :
    (m.setDir i w).dir i' = if i' = i then w else m.dir i' := by
  by_cases hi : i' = i
  · simp [Machine.setDir, hi]
  · simp [Machine.setDir, hi]

theorem hasTable_setDir_self (hi : 16 ≤ i.val) : hasTable (m.setDir i w) i ↔ present w := by
  simp [hasTable, dir_setDir, hi]

theorem hasTable_setDir_of_ne {i' : Fin 1024} (h : i' ≠ i) :
    hasTable (m.setDir i w) i' ↔ hasTable m i' := by
  simp [hasTable, dir_setDir, h]

theorem pte_setDir_of_ne {i' : Fin 1024} (h : i' ≠ i) (k : Fin 1024) :
    pte (m.setDir i w) i' k = pte m i' k := by
  simp only [pte, dir_setDir, if_neg h]
  rfl

theorem pte_setDir_self (k : Fin 1024) : pte (m.setDir i w) i k = m.mem (pageOf w) k := by
  simp only [pte, dir_setDir, if_pos]
  rfl

theorem pteTarget_setDir (hi : 16 ≤ i.val) (hold : hasTable m i → ∀ k, ¬ present (pte m i k))
    (hnew : present w → ∀ k, m.mem (pageOf w) k = 0) (x : Fin 1024 × Fin 1024) :
    pteTarget (m.setDir i w) x = pteTarget m x := by
  obtain ⟨i', k⟩ := x
  by_cases hii : i' = i
  · subst hii
    have hnone : pteTarget m (i', k) = none := by
      by_cases hit : hasTable m i'
      · simp [pteTarget, entryTarget, hold hit k]
      · simp [pteTarget, hit]
    rw [hnone]
    by_cases hw : present w
    · simp [pteTarget, pte_setDir_self, hnew hw, entryTarget]
    · simp [pteTarget, hasTable_setDir_self hi, hw]
  · simp [pteTarget, hasTable_setDir_of_ne hii, pte_setDir_of_ne hii]

theorem view_setDir (hi : 16 ≤ i.val) (hold : hasTable m i → ∀ k, ¬ present (pte m i k))
    (hnew : present w → ∀ k, m.mem (pageOf w) k = 0) (i' k j : Fin 1024) :
    view (m.setDir i w) i' k j = view m i' k j := by
  by_cases hii : i' = i
  · subst hii
    have hnone : ¬ (hasTable m i' ∧ present (pte m i' k)) := fun ⟨hit, hp⟩ => hold hit k hp
    by_cases hw : present w
    · simp [view, pte_setDir_self, hnew hw, hnone]
    · simp [view, hasTable_setDir_self hi, hw, hnone]
  · simp only [view, hasTable_setDir_of_ne hii, pte_setDir_of_ne hii]
    rfl

theorem Inv.setDir {held' : List Nat} (h : Inv c held m) (hi : 16 ≤ i.val)
    (hvalid : Refs.Valid ⟨Function.update (target m) (.inr (.inl i))
      (if present w then some (pageOf w) else none), sole m, held', count m⟩)
    (hheld : ∀ f ∈ held', LOW_MEM ≤ f ∧ f < c.high)
    (hold : hasTable m i → ∀ k, ¬ present (pte m i k))
    (hnew : present w → ∀ k, m.mem (pageOf w) k = 0)
    (hrange : present w → LOW_MEM ≤ pageOf w ∧ pageOf w < c.high)
    (howner : present w → ∃ t τ, i = slotDir t ∧ m.task t = some τ ∧ τ.state ≠ .zombie) :
    Inv c held' (m.setDir i w) := by
  have hpteTarget := pteTarget_setDir hi hold hnew
  have hzero : ∀ k, hasTable (m.setDir i w) i → pte (m.setDir i w) i k = 0 := fun k hit => by
    rw [pte_setDir_self, hnew ((hasTable_setDir_self hi).mp hit)]
  have htarget : target (m.setDir i w) =
      Function.update (target m) (.inr (.inl i)) (if present w then some (pageOf w) else none) := by
    funext r
    match r with
    | .inl x =>
      rw [Function.update_of_ne (by simp)]
      exact hpteTarget x
    | .inr (.inl i') =>
      by_cases hii : i' = i
      · subst hii
        simp [target, dirTarget, hasTable_setDir_self hi, dir_setDir]
      · have hne : (Sum.inr (Sum.inl i') : Ref) ≠ .inr (.inl i) := by simpa using hii
        simp [target, dirTarget, hasTable_setDir_of_ne hii, dir_setDir, hii]
    | .inr (.inr t) => rfl
  refine ⟨h.high, h.limit, h.unwrapped, h.low, fun k hk => ?_, h.used, ?_, ?_, hheld, ?_,
    ?_, ?_, h.base⟩
  · have hne : k ≠ i := fun e => by have := e ▸ hi; omega
    rw [dir_setDir, if_neg hne]
    exact h.lowDir k hk
  · have hcount : count (m.setDir i w) = count m := rfl
    rw [references, htarget, hcount]
    refine hvalid.resole fun r f hr _ => .inl ?_
    match r with
    | .inl (i', k) =>
      obtain ⟨hit, hwr⟩ := hr
      by_cases hii : i' = i
      · subst hii
        rw [hzero k hit] at hwr
        simp [writable] at hwr
      · rw [pte_setDir_of_ne hii] at hwr
        exact ⟨(hasTable_setDir_of_ne hii).mp hit, hwr⟩
    | .inr _ => trivial
  · intro r f hr
    rw [htarget] at hr
    by_cases hre : r = .inr (.inl i)
    · rw [hre, Function.update_self] at hr
      simp only [Option.ite_none_right_eq_some, Option.some.injEq] at hr
      exact hr.2 ▸ hrange hr.1
    · exact h.range r f (by rwa [Function.update_of_ne hre] at hr)
  · intro i' hi'
    by_cases hii : i' = i
    · subst hii
      exact howner ((hasTable_setDir_self hi).mp hi')
    · exact h.dirs i' ((hasTable_setDir_of_ne hii).mp hi')
  · intro i' k hi' hwr
    by_cases hii : i' = i
    · subst hii
      rw [hzero k hi'] at hwr
      simp [writable] at hwr
    · rw [pte_setDir_of_ne hii] at hwr ⊢
      exact h.entries i' k ((hasTable_setDir_of_ne hii).mp hi') hwr
  · intro i' k k' f h₁ h₂
    rw [hpteTarget] at h₁ h₂
    exact h.once i' k k' f h₁ h₂

end Directory

section Slots
variable {t : TaskNr} {τ : Task}

theorem target_setTask_of_ne (m : Machine) (t : TaskNr) (o : Option Task) {r : Ref}
    (hr : r ≠ .inr (.inr t)) : target (m.setTask t o) r = target m r := by
  match r with
  | .inl _ => rfl
  | .inr (.inl _) => rfl
  | .inr (.inr s) =>
    have hst : s ≠ t := fun e => hr (by rw [e])
    simp [target, slotTarget, Machine.setTask, hst]

theorem target_setTask (m : Machine) {t : TaskNr} (ht : t ≠ 0) (o : Option Task) :
    target (m.setTask t o) = Function.update (target m) (.inr (.inr t)) (o.map (·.page)) := by
  funext r
  by_cases hr : r = .inr (.inr t)
  · subst hr
    simp [target, slotTarget, ht, Machine.setTask]
  · rw [target_setTask_of_ne m t o hr, Function.update_of_ne hr]

/-- A store into `task[t]` that adds or removes a task without a page table. -/
theorem Inv.setTask {held' : List Nat} {o : Option Task} (h : Inv c held m) (ht : t ≠ 0)
    (hvalid : Refs.Valid ⟨Function.update (target m) (.inr (.inr t)) (o.map (·.page)), sole m,
      held', count m⟩)
    (hheld : ∀ f ∈ held', LOW_MEM ≤ f ∧ f < c.high) (habs : ¬ hasTable m (slotDir t))
    (hnew : ∀ τ, o = some τ → τ.base = newBase t ∧ LOW_MEM ≤ τ.page ∧ τ.page < c.high) :
    Inv c held' (m.setTask t o) := by
  refine ⟨h.high, h.limit, h.unwrapped, h.low, h.lowDir, h.used, ?_, ?_, hheld, ?_,
    h.entries, h.once, ?_⟩
  · have hcount : count (m.setTask t o) = count m := rfl
    have hsole : sole (m.setTask t o) = sole m := by
      funext r
      match r with
      | .inl _ => rfl
      | .inr _ => rfl
    rw [references, target_setTask m ht, hcount, hsole]
    exact hvalid
  · intro r f hr
    by_cases hre : r = .inr (.inr t)
    · rw [target_setTask m ht, hre, Function.update_self] at hr
      obtain ⟨τ, hτ, rfl⟩ := Option.map_eq_some_iff.mp hr
      exact (hnew τ hτ).2
    · exact h.range r f (by rwa [target_setTask_of_ne m t o hre] at hr)
  · intro i hi
    obtain ⟨s, σ, rfl, hσ, hz⟩ := h.dirs i hi
    have hst : s ≠ t := fun e => habs (e ▸ hi)
    exact ⟨s, σ, rfl, by simpa [Machine.setTask, hst] using hσ, hz⟩
  · intro s σ hσ
    by_cases hst : s = t
    · subst hst
      exact (hnew σ (by simpa [Machine.setTask] using hσ)).1
    · exact h.base s σ (by simpa [Machine.setTask, hst] using hσ)

theorem Inv.fillSlot (h : Inv c (τ.page :: held) m) (ht : t ≠ 0) (hnone : m.task t = none)
    (hbase : τ.base = newBase t) (hone : count m τ.page = 1) :
    Inv c held (m.setTask t (some τ)) := by
  have hempty : target m (.inr (.inr t)) = none := by simp [target, slotTarget, hnone]
  have habs : ¬ hasTable m (slotDir t) := by
    intro hi
    obtain ⟨s, σ, hs, hσ, -⟩ := h.dirs _ hi
    have hst : s = t := Fin.ext (by have := congrArg Fin.val hs; simp only [slotDir] at this; omega)
    simp [hst, hnone] at hσ
  refine h.setTask ht ?_ (fun f hf => h.heldRange f (List.mem_cons_of_mem _ hf)) habs ?_
  · exact h.valid.point _ rfl hempty (fun _ _ hr => hr) fun _ => hone
  · intro σ hσ
    obtain rfl := Option.some.inj hσ
    exact ⟨hbase, h.heldRange _ List.mem_cons_self⟩

theorem Inv.emptySlot (h : Inv c held m) (ht : t ≠ 0) (hτ : m.task t = some τ)
    (habs : ¬ hasTable m (slotDir t)) : Inv c (τ.page :: held) (m.setTask t none) := by
  have htarget : target m (.inr (.inr t)) = some τ.page := by simp [target, slotTarget, ht, hτ]
  refine h.setTask ht (h.valid.unpoint htarget) ?_ habs (by simp)
  intro f hf
  cases List.mem_cons.mp hf with
  | inl e => exact e ▸ h.range _ _ htarget
  | inr hf => exact h.heldRange f hf

theorem Inv.setTasks {g : TaskNr → Option Task} (h : Inv c held m)
    (hpage : ∀ t, (g t).map (·.page) = (m.task t).map (·.page))
    (hbase : ∀ t, (g t).map (·.base) = (m.task t).map (·.base))
    (hlive : ∀ t τ, m.task t = some τ → τ.state ≠ .zombie → hasTable m (slotDir t) →
      ∃ τ', g t = some τ' ∧ τ'.state ≠ .zombie) : Inv c held { m with task := g } := by
  have htarget : target { m with task := g } = target m := by
    funext r
    match r with
    | .inl _ => rfl
    | .inr (.inl _) => rfl
    | .inr (.inr t) => simp [target, slotTarget, hpage]
  have hsole : sole { m with task := g } = sole m := by
    funext r
    match r with
    | .inl _ => rfl
    | .inr _ => rfl
  have hcount : count { m with task := g } = count m := rfl
  refine ⟨h.high, h.limit, h.unwrapped, h.low, h.lowDir, h.used, ?_, ?_, h.heldRange, ?_,
    h.entries, h.once, ?_⟩
  · rw [references, htarget, hsole, hcount]
    exact h.valid
  · rw [htarget]
    exact h.range
  · intro i hi
    obtain ⟨t, τ, rfl, hτ, hz⟩ := h.dirs i hi
    obtain ⟨τ', hτ', hz'⟩ := hlive t τ hτ hz hi
    exact ⟨t, τ', rfl, hτ', hz'⟩
  · intro t τ hτ
    have hmap := hbase t
    rw [show g t = some τ from hτ, Option.map_some] at hmap
    obtain ⟨σ, hσ, heq⟩ := Option.map_eq_some_iff.mp hmap.symm
    exact heq ▸ h.base t σ hσ

end Slots

end Hios.Mm
