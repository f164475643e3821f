import Hios.Mm.FrameOps

/-! Page faults and `verify_area`: they change page tables and pages, and no
process sees a difference. -/
namespace Hios.Mm
open Hios.Kernel Hios.RefCount
variable {c : Config} {held : List Nat} {m : Machine} {i k : Fin 1024}

theorem Config.page_lt (c : Config) {f : Nat} (hf : f < c.high) : f < 2 ^ 20 := by
  have := c.high_le
  simp only [LOW_MEM, PAGING_PAGES] at this
  omega

structure Quiet (c : Config) (m m' : Machine) : Prop where
  inv : Inv c [] m'
  view : ∀ i k j, view m' i k j = view m i k j
  task : m'.task = m.task

theorem Quiet.trans {m' m'' : Machine} (h : Quiet c m m') (h' : Quiet c m' m'') : Quiet c m m'' :=
  ⟨h'.inv, fun i k j => (h'.view i k j).trans (h.view i k j), h'.task.trans h.task⟩

theorem Quiet.refl (h : Inv c [] m) : Quiet c m m := ⟨h, fun _ _ _ => rfl, rfl⟩

def Private (m : Machine) (i k : Fin 1024) : Prop :=
  hasTable m i ∧ present (pte m i k) ∧ writable (pte m i k)

theorem Inv.private_count (h : Inv c held m) (hp : Private m i k) :
    (LOW_MEM ≤ pageOf (pte m i k) ∧ pageOf (pte m i k) < c.high) ∧
    count m (pageOf (pte m i k)) = 1 := by
  obtain ⟨hi, hpr, hw⟩ := hp
  have hlow := h.entries i k hi hw
  have ht := target_pte hi hpr hlow
  have hs : (references m held).sole (.inl (i, k)) := ⟨hi, hw⟩
  exact ⟨h.range _ _ ht, h.valid.sole _ _ hs ht⟩

/-- A store into a page that a process owns changes the view through its one
entry. -/
theorem Inv.store (h : Inv c held m) (hi : hasTable m i) (hp : present (pte m i k))
    (hlow : LOW_MEM ≤ pageOf (pte m i k)) (hone : count m (pageOf (pte m i k)) = 1)
    (x : Fin 1024 → Word) :
    Inv c held (Machine.setPage m (pageOf (pte m i k)) x) ∧ ∀ i' k' j,
      view (Machine.setPage m (pageOf (pte m i k)) x) i' k' j =
        if i' = i ∧ k' = k then x j else view m i' k' j := by
  have ht := target_pte hi hp hlow
  have hne : ∀ i', hasTable m i' → pageOf (m.dir i') ≠ pageOf (pte m i k) :=
    fun i' hi' => (h.page_ne_table hi' hi hp).symm
  have hs := sameTables_setPage x hne
  refine ⟨h.setPage x hlow hne, fun i' k' j => ?_⟩
  by_cases hi' : hasTable m i'
  · by_cases hp' : present (pte m i' k')
    · simp only [view, hs.hasTable, hs.pte i' k' hi', hi', hp', and_self, if_true]
      by_cases heq : pageOf (pte m i' k') = pageOf (pte m i k)
      · have ht' : target m (.inl (i', k')) = some (pageOf (pte m i k)) := by
          simp [target, pteTarget, hi', entryTarget, hp', heq, hlow]
        obtain ⟨rfl, rfl⟩ : i' = i ∧ k' = k := by
          simpa using h.ref_unique hone ht ht'
        simp [Machine.setPage]
      · have hik : ¬ (i' = i ∧ k' = k) := fun e => heq (by rw [e.1, e.2])
        rw [if_neg hik, mem_setPage_of_ne m x heq]
    · have hik : ¬ (i' = i ∧ k' = k) := fun e => hp' (e.1 ▸ e.2 ▸ hp)
      simp [view, hs.hasTable, hs.pte i' k' hi', hi', hp', hik]
  · have hik : ¬ (i' = i ∧ k' = k) := fun e => hi' (e.1 ▸ hi)
    simp [view, hs.hasTable, hi', hik]

/-- An entry gets other flags; it may become writable if nobody shares its page. -/
theorem Inv.reflag {w : Word} (h : Inv c held m) (hi : hasTable m i) (hp : present (pte m i k))
    (hpr : present w) (hpage : pageOf w = pageOf (pte m i k))
    (hw : writable w → LOW_MEM ≤ pageOf w ∧ count m (pageOf w) = 1) :
    Inv c held (m.setWord (pageOf (m.dir i)) k w) ∧ ∀ i' k' j,
      view (m.setWord (pageOf (m.dir i)) k w) i' k' j = view m i' k' j := by
  have hentry : entryTarget w = target m (.inl (i, k)) := by
    simp [target, pteTarget, hi, entryTarget, hp, hpr, hpage]
  refine ⟨?_, fun i' k' j => ?_⟩
  · refine h.setPte (fun r => sole m r ∨ (r = .inl (i, k) ∧ writable w)) hi ?_ ?_ h.heldRange ?_
      (fun hwr => (hw hwr).1) ?_
    · rw [hentry, Function.update_eq_self]
      refine h.valid.resole fun r f hr hrf => ?_
      cases hr with
      | inl hr => exact .inl hr
      | inr hr =>
        obtain ⟨rfl, hwr⟩ := hr
        have hf : entryTarget w = some f := hentry.trans hrf
        have hfw : pageOf w = f := by simpa [entryTarget, hpr, (hw hwr).1] using hf
        exact .inr (hfw ▸ (hw hwr).2)
    · intro r hr
      obtain ⟨i', k'⟩ | r := r
      · obtain ⟨hi', hwr⟩ := hr
        rw [h.pte_setPte hi hi'] at hwr
        by_cases hik : i' = i ∧ k' = k
        · rw [if_pos hik] at hwr
          exact .inr ⟨by rw [hik.1, hik.2], hwr⟩
        · rw [if_neg hik] at hwr
          exact .inl ⟨hi', hwr⟩
      · exact .inl trivial
    · intro f hf
      exact (h.range _ _ (hentry ▸ hf)).2
    · intro k' hk f hf hf'
      exact hk (h.once i k' k f hf' (hentry.symm.trans hf))
  · rw [h.view_setPte hi]
    by_cases hik : i' = i ∧ k' = k
    · obtain ⟨rfl, rfl⟩ := hik
      simp [view, hi, hp, hpr, hpage, mem_setWord_of_ne _ _ _ (h.page_ne_table hi hi hp)]
    · rw [if_neg hik]

/-- A fresh page in hand goes into a page-table entry, in place of what the
entry named before, which is then in hand. -/
theorem Inv.replace {f : Nat} {rest : List Nat} (h : Inv c (f :: rest) m) (hi : hasTable m i)
    (hone : count m f = 1) (hnone : ∀ r, target m r ≠ some f) :
    Inv c ((target m (.inl (i, k))).toList ++ rest)
      (m.setWord (pageOf (m.dir i)) k (userEntry f)) := by
  have hf := h.heldRange f List.mem_cons_self
  have hlt : f < 2 ^ 20 := c.page_lt hf.2
  have hentry : entryTarget (userEntry f) = some f := by
    simp [entryTarget, pageOf_userEntry hlt, hf]
  refine h.setPte (fun r => sole m r ∨ r = .inl (i, k)) hi ?_ ?_ ?_ ?_ ?_ ?_
  · rw [hentry]
    cases ht : target m (.inl (i, k)) with
    | none =>
      exact h.valid.point _ rfl ht (fun r hr hs => hs.resolve_right hr) fun _ => hone
    | some g =>
      have htar : (references m (f :: rest)).target (.inl (i, k)) = some g := ht
      have hun := (h.valid.unpoint htar).perm (List.Perm.swap f g rest)
      have hpoint := hun.point (fun r => sole m r ∨ r = .inl (i, k)) (i := .inl (i, k)) rfl
        (by simp) (fun r hr hs => hs.resolve_right hr) fun _ => hone
      rw [Function.update_idem] at hpoint
      exact hpoint
  · intro r hr
    obtain ⟨i', k'⟩ | r := r
    · obtain ⟨hi', hw⟩ := hr
      rw [h.pte_setPte hi hi'] at hw
      by_cases hik : i' = i ∧ k' = k
      · exact .inr (by rw [hik.1, hik.2])
      · rw [if_neg hik] at hw
        exact .inl ⟨hi', hw⟩
    · exact .inl trivial
  · intro g hg
    cases List.mem_append.mp hg with
    | inl hg => exact h.range _ g (by simpa using hg)
    | inr hg => exact h.heldRange g (List.mem_cons_of_mem f hg)
  · intro g hg
    exact Option.some.inj (hentry.symm.trans hg) ▸ hf.2
  · intro _
    rw [pageOf_userEntry hlt]
    exact hf.1
  · intro k' _ g hg hg'
    exact hnone (.inl (i, k')) (Option.some.inj (hentry.symm.trans hg) ▸ hg')

theorem setWord_decMap (m : Machine) (f p : Nat) (k : Fin 1024) (w : Word) :
    (decMap f m).setWord p k w = decMap f (m.setWord p k w) := by
  simp [Machine.setWord, decMap]

/-- What `un_wp_page` does to one entry: afterwards its page is private, and no
other entry has changed. -/
structure Unshared (c : Config) (m : Machine) (i k : Fin 1024) (m' : Machine) : Prop where
  quiet : Quiet c m m'
  dir : m'.dir = m.dir
  own : Private m' i k
  others : ∀ i' k', hasTable m i' → ¬ (i' = i ∧ k' = k) → pte m' i' k' = pte m i' k'

theorem detach_fresh {f : Nat} {m₁ : Machine} (hg : FreshPage c [] m f m₁) (hi : hasTable m i)
    (hp : present (pte m i k)) :
    let m₂ := if LOW_MEM ≤ pageOf (pte m i k) then decMap (pageOf (pte m i k)) m₁ else m₁
    let m₃ := m₂.setWord (pageOf (m.dir i)) k (userEntry f)
    Inv c [] m₃ ∧ count m₃ f = 1 ∧
      m₃.mem = (m₁.setWord (pageOf (m.dir i)) k (userEntry f)).mem := by
  intro m₂ m₃
  have hi₁ : hasTable m₁ i := (hg.same.hasTable i).mpr hi
  have hpte₁ : pte m₁ i k = pte m i k := hg.same.pte i k hi
  have hrep := hg.inv.replace (k := k) hi₁ hg.count fun r hr =>
    hg.none r (hg.same.target hg.task ▸ hr)
  rw [hg.dir] at hrep
  by_cases hlow : LOW_MEM ≤ pageOf (pte m i k)
  · have ht : target m₁ (.inl (i, k)) = some (pageOf (pte m i k)) := by
      simp [target, pteTarget, hi₁, hpte₁, entryTarget, hp, hlow]
    rw [ht] at hrep
    have hne := hg.ne_page hi hp
    set m' := m₁.setWord (pageOf (m.dir i)) k (userEntry f) with hm'
    have hold := hrep.heldRange _ List.mem_cons_self
    have hdec : decMap (pageOf (pte m i k)) m' =
        Machine.setMap m' (pageOf (pte m i k)) (count m' (pageOf (pte m i k)) - 1) :=
      hrep.decMap_eq hold (hrep.valid.drop_pos rfl) (by simp)
    have hm₃ : m₃ = Machine.setMap m' (pageOf (pte m i k)) (count m' (pageOf (pte m i k)) - 1) := by
      rw [← hdec]
      simp only [m₃, m₂, if_pos hlow, hm', setWord_decMap]
    refine ⟨hm₃ ▸ hrep.drop, ?_, hm₃ ▸ rfl⟩
    rw [hm₃, count_setMap hrep hold, Function.update_of_ne hne.symm]
    exact hg.count
  · have ht : target m₁ (.inl (i, k)) = none := by
      simp [target, pteTarget, hi₁, hpte₁, entryTarget, hlow]
    rw [ht] at hrep
    have hm₃ : m₃ = m₁.setWord (pageOf (m.dir i)) k (userEntry f) := by simp [m₃, m₂, hlow]
    exact ⟨hm₃ ▸ hrep, hm₃ ▸ hg.count, hm₃ ▸ rfl⟩

theorem Inv.unshare (h : Inv c [] m) (hi : hasTable m i) (hp : present (pte m i k)) :
    Holds (Unshared c m i k) (unWpPage (pageOf (m.dir i)) k m) := by
  have hpte : m.mem (pageOf (m.dir i)) k = pte m i k := rfl
  simp only [Mm.unWpPage, hpte]
  by_cases hone : LOW_MEM ≤ pageOf (pte m i k) ∧ m.memMap (mapNr (pageOf (pte m i k))) = 1
  · rw [if_pos hone]
    have ht := target_pte hi hp hone.1
    have hcount := (h.count_eq (h.range _ _ ht)).trans hone.2
    have hset := fun i' (hi' : Mm.hasTable m i') k' => h.pte_setPte (w := setWritable (pte m i k))
      (k := k) hi hi' k'
    have hclaim := h.reflag (k := k) (w := setWritable (pte m i k)) hi hp
      (by simpa using hp) (by simp)
      fun _ => by simpa using ⟨hone.1, hcount⟩
    refine ⟨⟨hclaim.1, hclaim.2, rfl⟩, rfl, ⟨hi, ?_, ?_⟩, fun i' k' hi' hik => ?_⟩
    · rw [hset i hi k]
      simpa using hp
    · rw [hset i hi k]
      simp
    · rw [hset i' hi' k', if_neg hik]
  · rw [if_neg hone]
    cases hg : getFreePage m with
    | none => rfl
    | some r =>
      obtain ⟨f, m₁⟩ := r
      have hfresh := h.freshPage hg
      obtain ⟨hinv, hcount, hmem⟩ := detach_fresh hfresh hi hp
      simp only
      set m₂ := if LOW_MEM ≤ pageOf (pte m i k) then decMap (pageOf (pte m i k)) m₁ else m₁ with hm₂
      set m₃ := m₂.setWord (pageOf (m.dir i)) k (userEntry f) with hm₃
      have hdir : m₃.dir = m.dir := by
        have h₂ : m₂.dir = m₁.dir := by
          rw [hm₂]
          split <;> rfl
        exact h₂.trans hfresh.dir
      have htask : m₃.task = m.task := by
        have h₂ : m₂.task = m₁.task := by
          rw [hm₂]
          split <;> rfl
        exact h₂.trans hfresh.task
      have hhas : ∀ i', hasTable m₃ i' ↔ hasTable m i' := fun i' => by simp [hasTable, hdir]
      have hptes : ∀ i' k', hasTable m i' →
          pte m₃ i' k' = if i' = i ∧ k' = k then userEntry f else pte m i' k' := by
        intro i' k' hi'
        have hi₁ : ∀ x, hasTable m₁ x ↔ hasTable m x := hfresh.same.hasTable
        have hset := hfresh.inv.pte_setPte (w := userEntry f) (k := k) ((hi₁ i).mpr hi)
          ((hi₁ i').mpr hi') k'
        rw [hfresh.same.pte i' k' hi', hfresh.dir] at hset
        rw [← hset, pte, pte, hmem, hdir, ← hfresh.dir]
        rfl
      have hpte₃ : pte m₃ i k = userEntry f := by rw [hptes i k hi, if_pos ⟨rfl, rfl⟩]
      have hpage : pageOf (pte m₃ i k) = f := by
        rw [hpte₃, pageOf_userEntry (c.page_lt hfresh.range.2)]
      have hstore := hinv.store (k := k) ((hhas i).mpr hi) (by simp [hpte₃])
        (hpage ▸ hfresh.range.1)
        (hpage ▸ hcount) (m₃.mem (pageOf (pte m i k)))
      rw [hpage] at hstore
      have hold : m₃.mem (pageOf (pte m i k)) = m.mem (pageOf (pte m i k)) := by
        rw [hmem, mem_setWord_of_ne _ _ _ (h.page_ne_table hi hi hp)]
        exact hfresh.others _ (hfresh.ne_page hi hp)
      have hne : ∀ i', hasTable m₃ i' → pageOf (m₃.dir i') ≠ f := fun i' hi' =>
        (hpage ▸ hinv.page_ne_table hi' ((hhas i).mpr hi) (by simp [hpte₃])).symm
      have hsame := sameTables_setPage (m₃.mem (pageOf (pte m i k))) hne
      refine ⟨⟨hstore.1, fun i' k' j => ?_, htask⟩, hdir, ⟨(hhas i).mpr hi, ?_, ?_⟩,
        fun i' k' hi' hik => ?_⟩
      · refine (hstore.2 i' k' j).trans ?_
        by_cases hik : i' = i ∧ k' = k
        · rw [if_pos hik, hold, hik.1, hik.2]
          simp [view, hi, hp]
        · rw [if_neg hik]
          by_cases hi' : hasTable m i'
          · have hp' := hptes i' k' hi'
            rw [if_neg hik] at hp'
            simp only [view, hhas, hp', hi', true_and]
            by_cases hpr : present (pte m i' k')
            · rw [hmem, mem_setWord_of_ne _ _ _ (h.page_ne_table hi hi' hpr)]
              rw [hfresh.others _ (hfresh.ne_page hi' hpr)]
            · simp [hpr]
          · simp [view, hhas, hi']
      · exact (congrArg present ((hsame.pte i k ((hhas i).mpr hi)).trans hpte₃)).trans (by simp)
      · exact (congrArg writable ((hsame.pte i k ((hhas i).mpr hi)).trans hpte₃)).trans (by simp)
      · have hp' := hptes i' k' hi'
        rw [if_neg hik] at hp'
        exact (hsame.pte i' k' ((hhas i').mpr hi')).trans hp'

structure NewTable (c : Config) (held : List Nat) (m : Machine) (i : Fin 1024) (page : Nat)
    (m' : Machine) : Prop where
  inv : Inv c held m'
  page_eq : pageOf (m'.dir i) = page
  self : hasTable m' i
  tables : ∀ i', i' ≠ i → (hasTable m' i' ↔ hasTable m i')
  ptes : ∀ i' k, i' ≠ i → hasTable m i' → pte m' i' k = pte m i' k
  empty : ∀ k, pte m' i k = 0
  mem : ∀ p, p ≠ page → m'.mem p = m.mem p
  view : ∀ i' k j, view m' i' k j = view m i' k j
  task : m'.task = m.task
  count : ∀ p, p ≠ page → count m' p = count m p
  target : ∀ r f, target m' r = some f → f = page ∨ target m r = some f

theorem slotDir_ge {t : TaskNr} (ht : t ≠ 0) : 16 ≤ (slotDir t).val := by
  have hpos : t.val ≠ 0 := fun e => ht (Fin.ext e)
  simp only [slotDir]
  omega

theorem newTable_of_fresh {t : TaskNr} {τ : Task} {page : Nat} {m₁ : Machine}
    (hfresh : FreshPage c held m page m₁) (ht : t ≠ 0) (hτ : m.task t = some τ)
    (hz : τ.state ≠ .zombie) (habs : ¬ hasTable m (slotDir t)) :
    NewTable c held m (slotDir t) page (m₁.setDir (slotDir t) (userEntry page)) := by
  have hi := slotDir_ge ht
  have habs₁ : ¬ hasTable m₁ (slotDir t) := fun e => habs ((hfresh.same.hasTable _).mp e)
  have hpage := pageOf_userEntry (c.page_lt hfresh.range.2)
  have hold : hasTable m₁ (slotDir t) → ∀ k, ¬ present (pte m₁ (slotDir t) k) :=
    fun e => absurd e habs₁
  have hnew : present (userEntry page) →
      ∀ k, m₁.mem (pageOf (userEntry page)) k = 0 := fun _ k => by
    rw [hpage, hfresh.zero]
  have htarget : target m₁ (.inr (.inl (slotDir t))) = none := by simp [target, dirTarget, habs₁]
  refine ⟨?_, ?_, ?_, fun i' hi' => ?_, fun i' k hi' hit => ?_, fun k => ?_,
    fun p hp => hfresh.others p hp,
    fun i' k j => ?_, hfresh.task, fun p hp => hfresh.countOthers p hp, fun r f hr => ?_⟩
  · refine hfresh.inv.setDir hi ?_ (fun g hg => hfresh.inv.heldRange g (List.mem_cons_of_mem _ hg))
      hold hnew (fun _ => ?_) fun _ => ⟨t, τ, rfl, hfresh.task ▸ hτ, hz⟩
    · rw [if_pos (present_userEntry page), hpage]
      exact hfresh.inv.valid.point _ rfl htarget (fun _ _ hs => hs) fun _ => hfresh.count
    · rw [hpage]
      exact hfresh.range
  · rw [dir_setDir, if_pos rfl, hpage]
  · simp [hasTable_setDir_self hi]
  · rw [hasTable_setDir_of_ne hi']
    exact hfresh.same.hasTable i'
  · rw [pte_setDir_of_ne hi']
    exact hfresh.same.pte i' k hit
  · rw [pte_setDir_self]
    exact hnew (present_userEntry page) k
  · rw [view_setDir hi hold hnew]
    exact hfresh.view i' k j
  · obtain x | i' | s := r
    · right
      have hx : pteTarget (m₁.setDir (slotDir t) (userEntry page)) x = some f := hr
      rw [pteTarget_setDir hi hold hnew] at hx
      exact hfresh.same.target hfresh.task ▸ hx
    · by_cases hi' : i' = slotDir t
      · left
        subst hi'
        have hx : dirTarget (m₁.setDir (slotDir t) (userEntry page)) (slotDir t) = some f := hr
        simpa [dirTarget, hasTable_setDir_self hi, dir_setDir, hpage] using hx.symm
      · right
        have hx : dirTarget (m₁.setDir (slotDir t) (userEntry page)) i' = some f := hr
        simp only [dirTarget, hasTable_setDir_of_ne hi', dir_setDir, if_neg hi'] at hx
        exact hfresh.same.target hfresh.task ▸ hx
    · right
      exact hfresh.same.target hfresh.task ▸ hr

/-- What a page fault at an unmapped page does: the page is private afterwards,
and the other entries have not changed. -/
structure Mapped (c : Config) (m : Machine) (i k : Fin 1024) (m' : Machine) : Prop where
  quiet : Quiet c m m'
  own : Private m' i k
  tables : ∀ i', hasTable m i' → hasTable m' i'
  others : ∀ i' k', hasTable m i' → ¬ (i' = i ∧ k' = k) → pte m' i' k' = pte m i' k'
  only : ∀ i' k', hasTable m' i' → present (pte m' i' k') → ¬ (i' = i ∧ k' = k) → hasTable m i'

theorem Inv.mapPage {f : Nat} (h : Inv c [f] m) (hi : hasTable m i) (habs : ¬ present (pte m i k))
    (hone : count m f = 1) (hnone : ∀ r, target m r ≠ some f) (hzero : m.mem f = fun _ => 0) :
    Mapped c m i k (m.setWord (pageOf (m.dir i)) k (userEntry f)) := by
  have hf := h.heldRange f List.mem_cons_self
  have ht : target m (.inl (i, k)) = none := by simp [target, pteTarget, entryTarget, habs]
  have hrep := h.replace (k := k) hi hone hnone
  rw [ht] at hrep
  have hpte := fun i' (hi' : Mm.hasTable m i') k' => h.pte_setPte (w := userEntry f)
    (k := k) hi hi' k'
  have hnt : f ≠ pageOf (m.dir i) :=
    fun e => hnone (.inr (.inl i)) (by simp [target, dirTarget, hi, e])
  refine ⟨⟨hrep, fun i' k' j => ?_, rfl⟩, ⟨hi, ?_, ?_⟩, fun _ hi' => hi', fun i' k' hi' hik => ?_,
    fun _ _ hi' _ _ => hi'⟩
  · rw [h.view_setPte hi]
    by_cases hik : i' = i ∧ k' = k
    · rw [if_pos hik, if_pos (present_userEntry f), pageOf_userEntry (c.page_lt hf.2),
        mem_setWord_of_ne _ _ _ hnt, hzero, hik.1, hik.2]
      simp [view, habs]
    · rw [if_neg hik]
  · rw [hpte i hi k]
    simp
  · rw [hpte i hi k]
    simp
  · rw [hpte i' hi' k', if_neg hik]

theorem Inv.doNoPage {t : TaskNr} {τ : Task} {address : Nat} (h : Inv c [] m) (ht : t ≠ 0)
    (hτ : m.task t = some τ) (hz : τ.state ≠ .zombie) (hdir : dirIndex address = slotDir t)
    (habs : ¬ (hasTable m (slotDir t) ∧ present (pte m (slotDir t) (tableIndex address)))) :
    Holds (Mapped c m (slotDir t) (tableIndex address)) (doNoPage address m) := by
  have hge := slotDir_ge ht
  cases hg : getFreePage m with
  | none =>
    simp only [Mm.doNoPage, hg]
    rfl
  | some r =>
    obtain ⟨f, m₁⟩ := r
    have hfresh := h.freshPage hg
    have hnone : ∀ r, target m₁ r ≠ some f :=
      fun r hr => hfresh.none r (hfresh.same.target hfresh.task ▸ hr)
    by_cases hi : hasTable m (slotDir t)
    · have hi₁ : hasTable m₁ (slotDir t) := (hfresh.same.hasTable _).mpr hi
      have habs₁ : ¬ present (pte m₁ (slotDir t) (tableIndex address)) := by
        rw [hfresh.same.pte _ _ hi]
        exact fun e => habs ⟨hi, e⟩
      have hmap := hfresh.inv.mapPage hi₁ habs₁ hfresh.count hnone hfresh.zero
      have hput : putPage f address m₁ =
          some (m₁.setWord (pageOf (m₁.dir (slotDir t))) (tableIndex address) (userEntry f)) := by
        simp [putPage, hdir, hi₁.2]
      simp only [Mm.doNoPage, hg, hput]
      refine ⟨⟨hmap.quiet.inv, fun i' k' j => (hmap.quiet.view i' k' j).trans (hfresh.view i' k' j),
        hmap.quiet.task.trans hfresh.task⟩, hmap.own, fun i' hi' => hmap.tables i' ?_,
          fun i' k' hi' hik => ?_,
        fun i' k' hi' hp hik => (hfresh.same.hasTable i').mp (hmap.only i' k' hi' hp hik)⟩
      · exact (hfresh.same.hasTable i').mpr hi'
      · exact (hmap.others i' k' ((hfresh.same.hasTable i').mpr hi') hik).trans
          (hfresh.same.pte i' k' hi')
    · have hdir₁ : ¬ present (m₁.dir (slotDir t)) := fun e =>
        hi ((hfresh.same.hasTable _).mp ⟨hge, e⟩)
      cases hg₂ : getFreePage m₁ with
      | none =>
        have hput : putPage f address m₁ = none := by simp [putPage, hdir, hdir₁, hg₂]
        simp [Mm.doNoPage, hg, hput, hfresh.inv.freePage, Holds, bind, Except.bind]
      | some r =>
        obtain ⟨tmp, m₂⟩ := r
        have hfresh₂ := hfresh.inv.freshPage hg₂
        have hnt := newTable_of_fresh hfresh₂ ht (hfresh.task ▸ hτ) hz fun e => hdir₁ e.2
        have hne : f ≠ tmp := fun e => hfresh₂.notHeld (by simp [e])
        have hput : putPage f address m₁ =
            some ((m₂.setDir (slotDir t) (userEntry tmp)).setWord tmp (tableIndex address)
              (userEntry f)) := by
          simp [putPage, hdir, hdir₁, hg₂]
        set m₃ := m₂.setDir (slotDir t) (userEntry tmp) with hm₃
        have hmap := hnt.inv.mapPage (k := tableIndex address) hnt.self (by simp [hnt.empty])
          ((hnt.count f hne).trans hfresh.count)
          (fun r hr => (hnt.target r f hr).elim hne (hnone r)) ((hnt.mem f hne).trans hfresh.zero)
        rw [hnt.page_eq] at hmap
        simp only [Mm.doNoPage, hg, hput]
        have hne' : ∀ i', hasTable m i' → i' ≠ slotDir t := fun i' hi' e => hi (e ▸ hi')
        have hhas : ∀ i', hasTable m i' → hasTable m₃ i' := fun i' hi' =>
          (hnt.tables i' (hne' i' hi')).mpr ((hfresh.same.hasTable i').mpr hi')
        refine ⟨⟨hmap.quiet.inv, fun i' k' j => ?_, ?_⟩, hmap.own,
          fun i' hi' => hmap.tables i' (hhas i' hi'),
          fun i' k' hi' hik => ?_, fun i' k' hi' hp hik => ?_⟩
        · exact (hmap.quiet.view i' k' j).trans ((hnt.view i' k' j).trans (hfresh.view i' k' j))
        · exact hmap.quiet.task.trans (hnt.task.trans hfresh.task)
        · refine (hmap.others i' k' (hhas i' hi') hik).trans ?_
          exact (hnt.ptes i' k' (hne' i' hi') ((hfresh.same.hasTable i').mpr hi')).trans
            (hfresh.same.pte i' k' hi')
        · have hi₃ := hmap.only i' k' hi' hp hik
          by_cases hit : i' = slotDir t
          · have hk' : k' ≠ tableIndex address := fun e => hik ⟨hit, e⟩
            rw [hit, hmap.others _ _ hnt.self fun e => hk' e.2, hnt.empty] at hp
            simp at hp
          · exact (hfresh.same.hasTable i').mp ((hnt.tables i' hit).mp hi₃)

def Safe (m : Machine) (i k : Fin 1024) : Prop :=
  hasTable m i → present (pte m i k) → writable (pte m i k)

/-- What verifying pages does: no process sees it, and no entry becomes unsafe. -/
structure Verified (c : Config) (m m' : Machine) : Prop where
  quiet : Quiet c m m'
  dir : m'.dir = m.dir
  present : ∀ i k, hasTable m i → present (pte m' i k) = present (pte m i k)
  safe : ∀ i k, Safe m i k → Safe m' i k

theorem Verified.hasTable {m' : Machine} (h : Verified c m m') (i : Fin 1024) :
    hasTable m' i ↔ hasTable m i := by simp [Mm.hasTable, h.dir]

theorem Verified.refl (h : Inv c [] m) : Verified c m m :=
  ⟨.refl h, rfl, fun _ _ _ => rfl, fun _ _ => id⟩

theorem Verified.trans {m' m'' : Machine} (h : Verified c m m') (h' : Verified c m' m'') :
    Verified c m m'' :=
  ⟨h.quiet.trans h'.quiet, h'.dir.trans h.dir,
    fun i k hi => (h'.present i k ((h.hasTable i).mpr hi)).trans (h.present i k hi),
    fun i k hs => h'.safe i k (h.safe i k hs)⟩

theorem Unshared.verified {m' : Machine} (h : Unshared c m i k m') (hp : present (pte m i k)) :
    Verified c m m' ∧ Safe m' i k := by
  refine ⟨⟨h.quiet, h.dir, fun i' k' hi' => ?_, fun i' k' hs hi' hpr => ?_⟩, fun _ _ => h.own.2.2⟩
  · by_cases hik : i' = i ∧ k' = k
    · rw [hik.1, hik.2, hp, h.own.2.1]
    · rw [h.others i' k' hi' hik]
  · by_cases hik : i' = i ∧ k' = k
    · rw [hik.1, hik.2]
      exact h.own.2.2
    · have hi : hasTable m i' := by simpa [hasTable, h.dir] using hi'
      rw [h.others i' k' hi hik] at hpr ⊢
      exact hs hi hpr

theorem Inv.kernelEntry (h : Inv c held m) (hi : i.val < 16) (hp : present (m.dir i)) :
    writable (m.mem (pageOf (m.dir i)) k) := by
  have hdir := h.lowDir i hi
  rw [hdir] at hp ⊢
  by_cases h4 : i.val < 4
  · rw [bootDir, if_pos h4, pageOf_userEntry (by omega), h.low _ _ (by simp only [LOW_MEM]; omega),
      c.table_eq i k h4, writable_userEntry]
  · simp [bootDir, h4] at hp

theorem Inv.writeVerify (h : Inv c [] m) (address : Nat) :
    Holds (fun m' => Verified c m m' ∧ Safe m' (dirIndex address) (tableIndex address))
      (writeVerify address m) := by
  set i := dirIndex address with hi
  set k := tableIndex address with hk
  have hpte : m.mem (pageOf (m.dir i)) k = pte m i k := rfl
  simp only [Mm.writeVerify, ← hi, ← hk, hpte]
  by_cases hdir : present (m.dir i)
  · rw [if_pos hdir]
    by_cases hro : present (pte m i k) ∧ ¬ writable (pte m i k)
    · rw [if_pos hro]
      have hit : hasTable m i := by
        refine ⟨?_, hdir⟩
        by_contra hlt
        exact hro.2 (h.kernelEntry (not_le.mp hlt) hdir)
      exact (h.unshare hit hro.1).mono fun m' hm' => hm'.verified hro.1
    · rw [if_neg hro]
      refine ⟨.refl h, fun _ hp => ?_⟩
      by_contra hw
      exact hro ⟨hp, hw⟩
  · rw [if_neg hdir]
    exact ⟨.refl h, fun hit => absurd hit.2 hdir⟩

theorem dirIndex_mod (x : Nat) : dirIndex (x % 2 ^ 32) = dirIndex x := by
  simp only [dirIndex, Fin.ofNat]
  congr 1
  omega

theorem tableIndex_mod (x : Nat) : tableIndex (x % 2 ^ 32) = tableIndex x := by
  simp only [tableIndex, Fin.ofNat]
  congr 1
  omega

theorem Inv.verifyLoop (h : Inv c [] m) (start : Nat) (size : Int) :
    Holds (fun m' => Verified c m m' ∧ ∀ n : Nat, (4096 * n : Int) < size →
      Safe m' (dirIndex (start + 4096 * n)) (tableIndex (start + 4096 * n)))
        (verifyLoop start size m) := by
  induction start, size, m using Kernel.verifyLoop.induct with
  | case1 start size m hsize ih =>
    rw [Kernel.verifyLoop, if_pos hsize]
    refine (h.writeVerify start).bind fun m₁ hm₁ => ?_
    refine (ih m₁ hm₁.1.quiet.inv).mono fun m' hm' => ⟨hm₁.1.trans hm'.1, fun n hn => ?_⟩
    cases n with
    | zero => exact hm'.1.safe _ _ hm₁.2
    | succ n =>
      have hlater := hm'.2 n (by omega)
      have hmod : start + 4096 * (n + 1) = start + 4096 + 4096 * n := by omega
      rw [hmod]
      have hdir : dirIndex ((start + 4096) % 2 ^ 32 + 4096 * n) = dirIndex
          (start + 4096 + 4096 * n) := by
        rw [← dirIndex_mod, Nat.mod_add_mod, dirIndex_mod]
      have htab : tableIndex ((start + 4096) % 2 ^ 32 + 4096 * n) = tableIndex
          (start + 4096 + 4096 * n) := by
        rw [← tableIndex_mod, Nat.mod_add_mod, tableIndex_mod]
      rwa [hdir, htab] at hlater
  | case2 start size m hsize =>
    rw [Kernel.verifyLoop, if_neg hsize]
    exact ⟨.refl h, fun n hn => by omega⟩

end Hios.Mm
