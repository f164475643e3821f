import Hios.Lib.Run
import Hios.Mm.FrameOps
import Mathlib.Data.Finset.Card
import Mathlib.Data.Finset.Range

/-! `get_free_page` instruction by instruction, with `mem_init` and `free_page`, on
bytes of memory. -/
namespace Hios.Mm.PageAllocator
open Hios.Kernel Hios.Run

def LOW_MEM : Nat := 0x100000

def mapNr (addr : Nat) : Nat := (addr - LOW_MEM) / 2 ^ 12

structure State where
  memMap : Int → Byte
  highMemory : Nat
  mem : Nat → Byte

def usedAll (memMap : Int → Byte) : Int → Byte :=
  (List.range PAGING_PAGES).foldl (fun map (i : Nat) => Function.update map i (BitVec.ofNat 8 USED))
    memMap

def clearFrom : Nat → Int → (Int → Byte) → Int → Byte
  | 0, _, map => map
  | endMem + 1, i, map => clearFrom endMem (i + 1) (Function.update map i 0)

def memInit (startMem endMem : Nat) (s : State) : State :=
  { s with
    highMemory := endMem
    memMap := clearFrom ((endMem - startMem) / 2 ^ 12) (mapNr startMem) (usedAll s.memMap) }

structure Scan where
  ecx : Nat
  edi : Int
  zf : Bool

/-- `std; repne scasb` with 0 in `al`. -/
def repneScasb (memMap : Int → Byte) : Nat → Int → Bool → Scan
  | 0, edi, zf => ⟨0, edi, zf⟩
  | ecx + 1, edi, _ =>
    if memMap edi = 0 then ⟨ecx, edi - 1, true⟩ else repneScasb memMap ecx (edi - 1) false

def storeLong (a : Nat) (v : Word) (mem : Nat → Byte) : Nat → Byte := fun x =>
  if a ≤ x ∧ x < a + 4 then getByte v (x - a) else mem x

def repStosl (eax : Word) : Nat → Nat → (Nat → Byte) → Nat → Byte
  | 0, _, mem => mem
  | ecx + 1, edi, mem => repStosl eax ecx (edi - 4) (storeLong edi eax mem)

def getFreePage (s : State) : Nat × State :=
  let r := repneScasb s.memMap PAGING_PAGES (PAGING_PAGES - 1) false
  if r.zf = false then (0, s)
  else
    let memMap := Function.update s.memMap (r.edi + 1) 1
    let edx := r.ecx * 2 ^ 12 + LOW_MEM
    (edx, { s with memMap, mem := repStosl 0 1024 (edx + 4092) s.mem })

def freePage (addr : Nat) (s : State) : Except Panic State :=
  if addr < LOW_MEM then .ok s
  else if addr ≥ s.highMemory then .ok s
  else
    let nr : Int := mapNr addr
    if s.memMap nr ≠ 0 then .ok { s with memMap := Function.update s.memMap nr (s.memMap nr - 1) }
    else .error .freeFreePage

structure MainMemory where
  startMem : Nat
  endMem : Nat
  low : LOW_MEM ≤ startMem
  le : startMem ≤ endMem
  high : endMem ≤ 16 * 1024 * 1024
  startAligned : startMem % 4096 = 0
  endAligned : endMem % 4096 = 0

def MainMemory.IsPage (M : MainMemory) (a : Nat) : Prop :=
  a % 4096 = 0 ∧ M.startMem ≤ a ∧ a < M.endMem

def MainMemory.pageCount (M : MainMemory) : Nat := (M.endMem - M.startMem) / 4096

structure Pool where
  state : State
  handed : Finset Nat

inductive PageAct where
  | getFreePage
  | freePage (addr : Nat)

def poolStep (t : Pool) : PageAct → Option Pool
  | .getFreePage =>
    let (a, state) := getFreePage t.state
    some ⟨state, if a = 0 then t.handed else insert a t.handed⟩
  | .freePage addr =>
    if addr ∈ t.handed then (freePage addr t.state).toOption.map fun state =>
      ⟨state, t.handed.erase addr⟩
    else none

structure Served (M : MainMemory) (t : Pool) (r : Nat × State) : Prop where
  none_iff : r.1 = 0 ↔ t.handed.card = M.pageCount
  page : r.1 ≠ 0 → M.IsPage r.1 ∧ r.1 ∉ t.handed
  highest : ∀ a, M.IsPage a → a ∉ t.handed → a ≤ r.1
  cleared : ∀ x, r.2.mem x = if r.1 ≠ 0 ∧ r.1 ≤ x ∧ x < r.1 + 4096 then 0 else t.state.mem x

def pageAddr (n : Nat) : Nat := n * 2 ^ 12 + LOW_MEM

structure Tracks (M : MainMemory) (t : Pool) : Prop where
  handed : ∀ a ∈ t.handed, M.IsPage a
  outside : ∀ n < PAGING_PAGES, ¬ M.IsPage (pageAddr n) → t.state.memMap n = BitVec.ofNat 8 USED
  taken : ∀ n < PAGING_PAGES, pageAddr n ∈ t.handed → t.state.memMap n = 1
  free : ∀ n < PAGING_PAGES, M.IsPage (pageAddr n) → pageAddr n ∉ t.handed → t.state.memMap n = 0
  high : t.state.highMemory = M.endMem

section Instructions

/-- The scan stops at the highest free page, with its number in `ecx` and `edi` one below it. -/
theorem repneScasb_eq (memMap : Int → Byte) (n : Nat) (zf : Bool) :
    repneScasb memMap n (n - 1) zf =
      match scanFree (fun k => (memMap k).toNat) n with
      | some k => ⟨k, k - 1, true⟩
      | none => ⟨0, -1, if n = 0 then zf else false⟩ := by
  induction n generalizing zf with
  | zero => rfl
  | succ n ih =>
    have hedi : ((n + 1 : Nat) : Int) - 1 = n := by omega
    rw [hedi, repneScasb, scanFree]
    by_cases h : memMap n = 0
    · have hnat : (memMap n).toNat = 0 := by rw [h]; rfl
      rw [if_pos h, if_pos hnat]
    · have hnat : (memMap n).toNat ≠ 0 := fun e => h (BitVec.eq_of_toNat_eq e)
      rw [if_neg h, if_neg hnat, ih false]
      cases scanFree (fun k => (memMap k).toNat) n with
      | none => simp
      | some k => rfl

theorem scanFree_above {memMap : Nat → Nat} {n k : Nat} (h : scanFree memMap n = some k) {j : Nat}
    (hk : k < j) (hj : j < n) : memMap j ≠ 0 := by
  induction n with
  | zero => cases h
  | succ n ih =>
    rw [scanFree] at h
    by_cases hn : memMap n = 0
    · rw [if_pos hn] at h
      cases h
      omega
    · rw [if_neg hn] at h
      by_cases hjn : j = n
      · rw [hjn]
        exact hn
      · exact ih h (by omega)

theorem scanFree_none {memMap : Nat → Nat} {n : Nat} (h : scanFree memMap n = none) {j : Nat}
    (hj : j < n) :
    memMap j ≠ 0 := by
  induction n with
  | zero => omega
  | succ n ih =>
    rw [scanFree] at h
    by_cases hn : memMap n = 0
    · rw [if_pos hn] at h
      cases h
    · rw [if_neg hn] at h
      by_cases hjn : j = n
      · rw [hjn]
        exact hn
      · exact ih h (by omega)

theorem repStosl_zero (n edi : Nat) (mem : Nat → Byte) (h : 4 * n ≤ edi + 4) (x : Nat) :
    repStosl 0 n edi mem x = if edi + 4 - 4 * n ≤ x ∧ x < edi + 4 then 0 else mem x := by
  induction n generalizing edi mem with
  | zero => rw [repStosl, if_neg (by omega)]
  | succ n ih =>
    have hzero : ∀ i, getByte 0 i = 0 := by
      intro i
      simp [getByte]
    rw [repStosl]
    by_cases hn : n = 0
    · subst hn
      simp only [repStosl, storeLong, hzero]
      by_cases hx : edi ≤ x ∧ x < edi + 4
      · rw [if_pos hx, if_pos (by omega)]
      · rw [if_neg hx, if_neg (by omega)]
    · rw [ih (edi - 4) _ (by omega)]
      simp only [storeLong, hzero]
      by_cases hlow : edi - 4 + 4 - 4 * n ≤ x ∧ x < edi - 4 + 4
      · rw [if_pos hlow, if_pos (by omega)]
      · rw [if_neg hlow]
        by_cases hx : edi ≤ x ∧ x < edi + 4
        · rw [if_pos hx, if_pos (by omega)]
        · rw [if_neg hx, if_neg (by omega)]

theorem getFreePage_eq (s : State) : getFreePage s =
    match scanFree (fun k => (s.memMap k).toNat) PAGING_PAGES with
    | some n => (pageAddr n, { s with
        memMap := Function.update s.memMap n 1
        mem := repStosl 0 1024 (pageAddr n + 4092) s.mem })
    | none => (0, s) := by
  have hscan := repneScasb_eq s.memMap PAGING_PAGES false
  simp only [getFreePage, hscan]
  cases scanFree (fun k => (s.memMap k).toNat) PAGING_PAGES with
  | none => rfl
  | some n =>
    have hedi : (n : Int) - 1 + 1 = n := by omega
    simp [hedi, pageAddr]

end Instructions

section Pages
variable (M : MainMemory)

def MainMemory.pages : Finset Nat := (Finset.range M.pageCount).image fun i => M.startMem + 4096 * i

theorem MainMemory.mem_pages {a : Nat} : a ∈ M.pages ↔ M.IsPage a := by
  have hstart := M.startAligned
  have hend := M.endAligned
  simp only [pages, Finset.mem_image, Finset.mem_range, IsPage, pageCount]
  constructor
  · rintro ⟨i, hi, ha⟩
    omega
  · rintro ⟨ha, hlow, hhigh⟩
    exact ⟨(a - M.startMem) / 4096, by omega, by omega⟩

theorem MainMemory.card_pages : M.pages.card = M.pageCount := by
  rw [pages, Finset.card_image_of_injective, Finset.card_range]
  intro i j hij
  simp only at hij
  omega

theorem MainMemory.all_handed_iff {handed : Finset Nat} (h : ∀ a ∈ handed, M.IsPage a) :
    handed.card = M.pageCount ↔ ∀ a, M.IsPage a → a ∈ handed := by
  have hsub : handed ⊆ M.pages := fun a ha => M.mem_pages.mpr (h a ha)
  rw [← M.card_pages]
  constructor
  · intro hcard a ha
    rw [Finset.eq_of_subset_of_card_le hsub hcard.ge]
    exact M.mem_pages.mpr ha
  · intro hall
    have hsup : M.pages ⊆ handed := fun a ha => hall a (M.mem_pages.mp ha)
    exact Nat.le_antisymm (Finset.card_le_card hsub) (Finset.card_le_card hsup)

theorem pageAddr_pos (n : Nat) : pageAddr n ≠ 0 := by
  simp only [pageAddr, LOW_MEM]
  omega

theorem pageAddr_inj {n k : Nat} : pageAddr n = pageAddr k ↔ n = k := by
  simp only [pageAddr]
  omega

variable {M} in
theorem MainMemory.IsPage.addr {a : Nat} (h : M.IsPage a) :
    mapNr a < PAGING_PAGES ∧ pageAddr (mapNr a) = a := by
  obtain ⟨halign, hlow, hhigh⟩ := h
  have hstart := M.low
  have hend := M.high
  simp only [LOW_MEM] at hstart
  simp only [mapNr, pageAddr, LOW_MEM, PAGING_PAGES]
  omega

end Pages

section Init

theorem usedAll_apply (memMap : Int → Byte) {n : Nat} (hn : n < PAGING_PAGES) :
    usedAll memMap n = BitVec.ofNat 8 USED := by
  have hfold : ∀ k : Nat, n < k → (List.range k).foldl
      (fun map (i : Nat) => Function.update map (i : Int) (BitVec.ofNat 8 USED)) memMap n =
        BitVec.ofNat 8 USED := by
    intro k hk
    induction k with
    | zero => omega
    | succ k ih =>
      rw [List.range_succ, List.foldl_append]
      by_cases hnk : n = k
      · rw [hnk]
        exact Function.update_self ..
      · refine (Function.update_of_ne ?_ _ _).trans (ih (by omega))
        omega
  exact hfold PAGING_PAGES hn

theorem clearFrom_apply (k : Nat) (i : Int) (map : Int → Byte) (j : Int) :
    clearFrom k i map j = if i ≤ j ∧ j < i + k then 0 else map j := by
  induction k generalizing i map with
  | zero => rw [clearFrom, if_neg (by omega)]
  | succ k ih =>
    rw [clearFrom, ih]
    by_cases hj : j = i
    · rw [hj, if_neg (by omega), if_pos (by omega), Function.update_self]
    · rw [Function.update_of_ne hj]
      by_cases hlater : i + 1 ≤ j ∧ j < i + 1 + k
      · rw [if_pos hlater, if_pos (by omega)]
      · rw [if_neg hlater, if_neg (by omega)]

theorem tracks_memInit (M : MainMemory) (s : State) :
    Tracks M ⟨memInit M.startMem M.endMem s, ∅⟩ := by
  have hlow := M.low
  have hle := M.le
  have hhigh := M.high
  have hstart := M.startAligned
  have hend := M.endAligned
  have hmap : ∀ n < PAGING_PAGES, (memInit M.startMem M.endMem s).memMap n =
      if M.startMem ≤ pageAddr n ∧ pageAddr n < M.endMem then 0 else BitVec.ofNat 8 USED := by
    intro n hn
    simp only [memInit]
    rw [clearFrom_apply, usedAll_apply s.memMap hn]
    congr 1
    simp only [LOW_MEM] at hlow
    simp only [mapNr, pageAddr, LOW_MEM, eq_iff_iff]
    omega
  have haligned : ∀ n, pageAddr n % 4096 = 0 := by
    intro n
    simp only [pageAddr, LOW_MEM]
    omega
  refine ⟨?_, ?_, ?_, ?_, rfl⟩
  · intro a ha
    cases ha
  · intro n hn hout
    refine (hmap n hn).trans (if_neg ?_)
    intro hin
    exact hout ⟨haligned n, hin.1, hin.2⟩
  · intro n _ hin
    cases hin
  · intro n hn hin _
    exact (hmap n hn).trans (if_pos ⟨hin.2.1, hin.2.2⟩)

end Init

section Steps
variable {M : MainMemory} {t : Pool}

theorem Tracks.free_entry (h : Tracks M t) {n : Nat} (hn : n < PAGING_PAGES)
    (hzero : (t.state.memMap n).toNat = 0) :
    M.IsPage (pageAddr n) ∧ pageAddr n ∉ t.handed := by
  constructor
  · by_contra hout
    rw [h.outside n hn hout] at hzero
    cases hzero
  · intro hin
    rw [h.taken n hn hin] at hzero
    cases hzero

theorem Tracks.entry_zero (h : Tracks M t) {a : Nat} (ha : M.IsPage a) (hfree : a ∉ t.handed) :
    (t.state.memMap (mapNr a)).toNat = 0 := by
  obtain ⟨hlt, haddr⟩ := ha.addr
  rw [← haddr] at ha hfree
  rw [h.free (mapNr a) hlt ha hfree]
  rfl

theorem Tracks.served (h : Tracks M t) : Served M t (getFreePage t.state) := by
  rw [getFreePage_eq]
  cases hscan : scanFree (fun k => (t.state.memMap k).toNat) PAGING_PAGES with
  | none =>
    have hall : ∀ a, M.IsPage a → a ∈ t.handed := by
      intro a ha
      by_contra hfree
      exact scanFree_none hscan ha.addr.1 (h.entry_zero ha hfree)
    refine ⟨iff_of_true rfl ((M.all_handed_iff h.handed).mpr hall), ?_, ?_, ?_⟩
    · intro hne
      exact absurd rfl hne
    · intro a ha hfree
      exact absurd (hall a ha) hfree
    · intro x
      rw [if_neg]
      intro hx
      exact hx.1 rfl
  | some n =>
    obtain ⟨hn, hzero⟩ := scanFree_some hscan
    obtain ⟨hpage, hfree⟩ := h.free_entry hn hzero
    refine ⟨iff_of_false (pageAddr_pos n) ?_, fun _ => ⟨hpage, hfree⟩, ?_, ?_⟩
    · intro hcard
      exact hfree ((M.all_handed_iff h.handed).mp hcard (pageAddr n) hpage)
    · intro a ha hafree
      obtain ⟨hlt, haddr⟩ := ha.addr
      by_contra hle
      have habove : n < mapNr a := by
        simp only [pageAddr] at hle haddr
        omega
      exact scanFree_above hscan habove hlt (h.entry_zero ha hafree)
    · intro x
      have hpos := pageAddr_pos n
      dsimp only
      rw [repStosl_zero 1024 (pageAddr n + 4092) t.state.mem (by omega)]
      by_cases hx : pageAddr n ≤ x ∧ x < pageAddr n + 4096
      · rw [if_pos (by omega), if_pos ⟨hpos, hx⟩]
      · rw [if_neg (by omega), if_neg (fun hin => hx hin.2)]

theorem Tracks.change (h : Tracks M t) {n : Nat} (hpage : M.IsPage (pageAddr n)) {state : State}
    {handed : Finset Nat} {v : Byte} (hstate : state.memMap = Function.update t.state.memMap n v)
    (hhigh : state.highMemory = t.state.highMemory)
    (hother : ∀ a, a ≠ pageAddr n → (a ∈ handed ↔ a ∈ t.handed))
    (htaken : pageAddr n ∈ handed → v = 1) (hfree : pageAddr n ∉ handed → v = 0) :
    Tracks M ⟨state, handed⟩ := by
  have hmap : ∀ k : Nat, k ≠ n → state.memMap k = t.state.memMap k := by
    intro k hk
    rw [hstate, Function.update_of_ne (by omega)]
  have haddr : ∀ k, k ≠ n → (pageAddr k ∈ handed ↔ pageAddr k ∈ t.handed) := by
    intro k hk
    exact hother (pageAddr k) (fun e => hk (pageAddr_inj.mp e))
  refine ⟨?_, ?_, ?_, ?_, hhigh.trans h.high⟩
  · intro a ha
    by_cases han : a = pageAddr n
    · rw [han]
      exact hpage
    · exact h.handed a ((hother a han).mp ha)
  · intro k hk hout
    by_cases hkn : k = n
    · rw [hkn] at hout
      exact absurd hpage hout
    · exact (hmap k hkn).trans (h.outside k hk hout)
  · intro k hk hin
    by_cases hkn : k = n
    · rw [hkn] at hin ⊢
      rw [hstate, Function.update_self]
      exact htaken hin
    · exact (hmap k hkn).trans (h.taken k hk ((haddr k hkn).mp hin))
  · intro k hk hin hout
    by_cases hkn : k = n
    · rw [hkn] at hout ⊢
      rw [hstate, Function.update_self]
      exact hfree hout
    · exact (hmap k hkn).trans (h.free k hk hin (fun e => hout ((haddr k hkn).mpr e)))

theorem Tracks.getFreePage (h : Tracks M t) {t' : Pool}
    (hstep : poolStep t .getFreePage = some t') : Tracks M t' := by
  simp only [poolStep, getFreePage_eq, Option.some.injEq] at hstep
  cases hscan : scanFree (fun k => (t.state.memMap k).toNat) PAGING_PAGES with
  | none =>
    rw [hscan] at hstep
    cases hstep
    exact h
  | some n =>
    rw [hscan] at hstep
    obtain ⟨hn, hzero⟩ := scanFree_some hscan
    obtain ⟨hpage, -⟩ := h.free_entry hn hzero
    simp only [if_neg (pageAddr_pos n)] at hstep
    cases hstep
    refine h.change hpage rfl rfl ?_ (fun _ => rfl) ?_
    · intro a ha
      rw [Finset.mem_insert]
      exact or_iff_right ha
    · intro hout
      exact absurd (Finset.mem_insert_self ..) hout

theorem Tracks.freePage_ok (h : Tracks M t) {a : Nat} (ha : a ∈ t.handed) :
    ∃ s, freePage a t.state = .ok s ∧ s.mem = t.state.mem ∧ Tracks M ⟨s, t.handed.erase a⟩ := by
  have hpage := h.handed a ha
  obtain ⟨hlt, haddr⟩ := hpage.addr
  have hlow := M.low
  have hlow' : ¬ a < LOW_MEM := by
    have hstart := hpage.2.1
    omega
  have hhigh : ¬ a ≥ t.state.highMemory := by
    rw [h.high]
    exact Nat.not_le.mpr hpage.2.2
  have hone : t.state.memMap (mapNr a) = 1 := h.taken (mapNr a) hlt (haddr.symm ▸ ha)
  have hne : t.state.memMap (mapNr a) ≠ 0 := by
    rw [hone]
    decide
  have hok : PageAllocator.freePage a t.state = .ok { t.state with
      memMap := Function.update t.state.memMap (mapNr a) (t.state.memMap (mapNr a) - 1) } := by
    simp only [PageAllocator.freePage, if_neg hlow', if_neg hhigh, if_pos hne]
  refine ⟨_, hok, rfl, ?_⟩
  refine h.change (haddr.symm ▸ hpage) rfl rfl ?_ ?_ ?_
  · intro b hb
    rw [haddr] at hb
    exact Finset.mem_erase.trans (and_iff_right hb)
  · intro hin
    rw [haddr] at hin
    exact absurd hin (Finset.notMem_erase a t.handed)
  · intro _
    rw [hone]
    rfl

theorem Tracks.step (h : Tracks M t) {act : PageAct} {t' : Pool}
    (hstep : poolStep t act = some t') : Tracks M t' := by
  cases act with
  | getFreePage => exact h.getFreePage hstep
  | freePage a =>
    simp only [poolStep] at hstep
    by_cases ha : a ∈ t.handed
    · obtain ⟨s, hs, -, htracks⟩ := h.freePage_ok ha
      rw [if_pos ha, hs] at hstep
      cases hstep
      exact htracks
    · rw [if_neg ha] at hstep
      cases hstep

end Steps

theorem page_allocator_serves (M : MainMemory) (s : State) (acts : List PageAct) (t : Pool)
    (hrun : run poolStep ⟨memInit M.startMem M.endMem s, ∅⟩ acts = some t) :
    Served M t (getFreePage t.state) ∧
      ∀ a ∈ t.handed, ∃ s', freePage a t.state = .ok s' ∧ s'.mem = t.state.mem := by
  have h : Tracks M t := run_inv (fun _ _ _ h hstep => h.step hstep) (tracks_memInit M s) hrun
  refine ⟨h.served, ?_⟩
  intro a ha
  obtain ⟨s', hs', hmem, -⟩ := h.freePage_ok ha
  exact ⟨s', hs', hmem⟩

def bootMemory : MainMemory :=
  ⟨0x100000, 0x300000, by decide, by decide, by decide, by decide, by decide⟩

def bootPool : Pool :=
  ⟨memInit bootMemory.startMem bootMemory.endMem ⟨fun _ => 0, 0, fun _ => 7⟩, ∅⟩

theorem poolStep_getFreePage (p : Pool) : ∃ t, run poolStep p [.getFreePage] = some t := ⟨_, rfl⟩

theorem page_allocator_serves_second :
    ∃ t, run poolStep bootPool [.getFreePage] = some t ∧
    Served bootMemory t (getFreePage t.state) := by
  obtain ⟨t, ht⟩ := poolStep_getFreePage bootPool
  exact ⟨t, ht, (page_allocator_serves bootMemory ⟨fun _ => 0, 0, fun _ => 7⟩
    [.getFreePage] t ht).1⟩

end Hios.Mm.PageAllocator
