import Hios.Kernel.CopyOnWrite
import Hios.Mm.Accounting
import Mathlib.Tactic.Abel

/-! `copy_process` with the files and inodes a child shares, and its failing exits. -/
namespace Hios.Kernel
open Hios.Mm Hios.RefCount Hios.Outcome

def NR_OPEN : Nat := 20

/-- The files and inodes that a `task_struct` points at, by their index. -/
structure Holdings where
  filp : Fin NR_OPEN → Option Nat
  pwd : Option Nat
  root : Option Nat
  executable : Option Nat

/-- `f_count` of every file and `i_count` of every inode, `unsigned short`. -/
structure UseCounts where
  fCount : Nat → Nat
  iCount : Nat → Nat

def UseCounts.useFile (u : UseCounts) (f : Nat) : UseCounts :=
  { u with fCount := Function.update u.fCount f ((u.fCount f + 1) % 2 ^ 16) }

def UseCounts.useInode (u : UseCounts) (i : Nat) : UseCounts :=
  { u with iCount := Function.update u.iCount i ((u.iCount i + 1) % 2 ^ 16) }

/-- The increments of `copy_process` once the memory is copied. -/
def share (own : Holdings) (u : UseCounts) : UseCounts :=
  let u := (List.finRange NR_OPEN).foldl (fun u i => (own.filp i).elim u u.useFile) u
  let u := own.pwd.elim u u.useInode
  let u := own.root.elim u u.useInode
  own.executable.elim u u.useInode

/-- `copy_process` with the use counts of files and inodes. -/
def copyProcessShare (current : Task) (own : Holdings) (nr : TaskNr) (m : Machine) (u : UseCounts) :
    Except Panic (Int × Machine × UseCounts) :=
  match getFreePage m with
  | none => .ok (-1, m, u)
  | some (page, m) => do
    let p := { current with
      state := .uninterruptible, pid := m.lastPid, father := current.pid,
      counter := current.priority
      signal := 0, alarm := 0, leader := 0, utime := 0, stime := 0, cutime := 0, cstime := 0
      startTime := m.jiffies, page := page }
    let m := m.setTask nr (some p)
    let (err, m) ← copyMem current nr p m
    if err ≠ 0 then
      let m ← freePage page (m.setTask nr none)
      return (-1, m, u)
    else
      let u := share own u
      return (m.lastPid, m.setTask nr ((m.task nr).map fun p => { p with state := .running }), u)

theorem copyProcessShare_machine (current : Task) (own : Holdings) (nr : TaskNr) (m : Machine)
    (u : UseCounts) :
    (copyProcessShare current own nr m u).map (fun r => (r.1, r.2.1)) =
      copyProcess current nr m := by
  cases hg : getFreePage m with
  | none =>
    simp only [copyProcessShare, copyProcess, hg]
    rfl
  | some r =>
    obtain ⟨page, m₁⟩ := r
    simp only [copyProcessShare, copyProcess, hg]
    generalize copyMem current nr _ _ = x
    cases x with
    | error p => rfl
    | ok r =>
      obtain ⟨err, m₂⟩ := r
      by_cases herr : err = 0
      · simp only [ok_bind, herr, ne_eq, not_true_eq_false, if_false]
        rfl
      · simp only [ok_bind, ne_eq, herr, not_false_eq_true, if_true]
        cases freePage page (m₂.setTask nr none) with
        | error p => rfl
        | ok m₃ => rfl

variable {c : Config} {m : Machine} {s t nr : TaskNr}

theorem accounted_of_inv (h : Inv c [] m) : Accounted m := by
  have hlow : ∀ i : Fin 1024, i.val < 16 → present (m.dir i) → i.val < 4 := by
    intro i hi hp
    rw [h.lowDir i hi, bootDir] at hp
    by_contra h4
    simp [h4] at hp
  have hdir : ∀ i : Fin 1024, i.val < 4 → pageOf (m.dir i) = i.val + 1 := by
    intro i hi
    rw [h.lowDir i (by omega), bootDir, if_pos hi, pageOf_userEntry (by omega)]
  refine ⟨fun n hn => ?_, fun f => ?_, fun n hn => ?_, fun x i f hx hi => ?_, fun i hi hp => ?_,
    fun i hi _ k hk => ?_⟩
  · have hle := h.count_le (n + LOW_MEM)
    have hmapNr : mapNr (n + LOW_MEM) = n := by simp [mapNr]
    rw [count, if_pos ⟨by omega, hn⟩, hmapNr, List.count_nil] at hle
    omega
  · have hex : count m f = refs (target m) f + ([] : List Nat).count f := h.valid.exact f
    rwa [List.count_nil, Nat.add_zero] at hex
  · exact h.used n (h.high ▸ hn)
  · have hit : hasTable m i := by
      by_contra hno
      simp [dirTarget, hno] at hi
    have hpage : pageOf (m.dir i) = f := by simpa [dirTarget, hit] using hi
    have hx : target m (.inl x) = some (pageOf (m.dir i)) := by
      rw [hpage]
      exact hx
    simpa using h.table_unique hit hx
  · have h4 := hlow i hi hp
    rw [hdir i h4]
    simp only [LOW_MEM]
    omega
  · have hone : dirRange 0 m.limit = [slotDir 0] := by
      rw [h.limit, ← dirRange_newBase c 0]
      rfl
    rw [hone, List.mem_singleton] at hi
    have hzero : i.val = 0 := by
      rw [hi]
      rfl
    have htable := c.table_eq i k (by omega)
    have hpage := hdir i (by omega)
    rw [pte, hpage, h.low _ _ (by simp only [LOW_MEM]; omega), htable, pageOf_userEntry (by omega)]
    simp only [LOW_MEM]
    omega

theorem mem_dirRange {limit : Nat} (hlimit : limit ≤ 0x4000000) {i : Fin 1024} :
    i ∈ dirRange (newBase t) limit ↔ ∃ j, j < (limit + 0x3fffff) / 0x400000 ∧
    i.val = 16 * t.val + j := by
  have ht := t.isLt
  simp only [NR_TASKS] at ht
  have hsize : (limit + 0x3fffff) % 2 ^ 32 / 0x400000 = (limit + 0x3fffff) / 0x400000 := by omega
  have hval : ∀ j, j < (limit + 0x3fffff) / 0x400000 →
      (dirIndex (newBase t) + Fin.ofNat 1024 j).val = 16 * t.val + j := by
    intro j hj
    rw [Fin.val_add]
    simp only [dirIndex, Fin.ofNat, newBase]
    omega
  rw [dirRange, hsize, List.mem_map]
  constructor
  · rintro ⟨j, hj, hi⟩
    rw [List.mem_range] at hj
    exact ⟨j, hj, hi ▸ hval j hj⟩
  · rintro ⟨j, hj, hi⟩
    exact ⟨j, List.mem_range.mpr hj, Fin.ext ((hval j hj).trans hi.symm)⟩

def toParent (s nr : TaskNr) : Fin 1024 := dirIndex (newBase s) - dirIndex (newBase nr)

theorem dirRange_zip (s nr : TaskNr) (limit : Nat) :
    ∀ d ∈ (dirRange (newBase s) limit).zip (dirRange (newBase nr) limit),
      d.2 ∈ dirRange (newBase nr) limit ∧ d.1 = d.2 + toParent s nr := by
  intro d hd
  rw [dirRange, dirRange, List.zip_map', List.mem_map] at hd
  obtain ⟨j, hj, rfl⟩ := hd
  refine ⟨List.mem_map.mpr ⟨j, hj, rfl⟩, ?_⟩
  simp only [toParent]
  abel

theorem window_of_slot {limit : Nat} (hlimit : limit ≤ 0x4000000) (hsn : s ≠ nr) (hnr : nr ≠ 0)
    (hempty : ∀ i ∈ dirRange (newBase nr) limit, m.dir i = 0) :
    Window m (dirRange (newBase nr) limit) (toParent s nr) := by
  refine ⟨fun i hi => ?_, hempty, fun i hi hmem => ?_⟩
  · obtain ⟨j, -, hij⟩ := (mem_dirRange hlimit).mp hi
    have hpos : nr.val ≠ 0 := fun e => hnr (Fin.ext e)
    omega
  · obtain ⟨j, hj, hij⟩ := (mem_dirRange hlimit).mp hi
    obtain ⟨j', hj', hij'⟩ := (mem_dirRange hlimit).mp hmem
    have hs := s.isLt
    have hn := nr.isLt
    have hne : s.val ≠ nr.val := fun e => hsn (Fin.ext e)
    simp only [NR_TASKS] at hs hn
    rw [Fin.val_add, toParent, Fin.val_sub] at hij'
    simp only [dirIndex, Fin.ofNat, newBase] at hij'
    omega

theorem accounted_fillSlot {page : Nat} {m₁ : Machine} {p : Task} (h : Accounted m) (hnr : nr ≠ 0)
    (hfree : m.task nr = none) (hg : getFreePage m = some (page, m₁)) (hp : p.page = page) :
    Accounted (m₁.setTask nr (some p)) ∧ page < m.highMemory ∧
      ∀ i, present (m.dir i) → ∀ k, pte (m₁.setTask nr (some p)) i k = pte m i k := by
  obtain ⟨hlow, -, hzero, rfl⟩ := getFreePage_eq hg
  have hrange : LOW_MEM ≤ page ∧ page < m.highMemory := by
    refine ⟨hlow, ?_⟩
    by_contra hge
    have hout : m.highMemory ≤ mapNr page + LOW_MEM := by
      simp only [mapNr]
      omega
    exact h.reserved _ hout hzero
  have hcount : count m page = 0 := by rw [count, if_pos hrange, hzero]
  have hnone : ∀ r, target m r ≠ some page := by
    have hex := h.exact page
    rw [hcount] at hex
    exact refs_eq_zero.mp hex.symm
  have hne : ∀ i, present (m.dir i) → pageOf (m.dir i) ≠ page := by
    intro i hi e
    by_cases h16 : 16 ≤ i.val
    · exact hnone (.inr (.inl i)) (by simp [target, dirTarget, hasTable, h16, hi, e])
    · have hkernel := h.kernel i (by omega) hi
      omega
  set b := Machine.setTask { m with
    memMap := Function.update m.memMap (mapNr page) 1
    mem := Function.update m.mem page fun _ => 0 } nr (some p) with hb
  have hpte : ∀ i, present (m.dir i) → ∀ k, pte b i k = pte m i k := fun i hi k => by
    have hdef : pte b i k = Function.update m.mem page (fun _ => 0) (pageOf (m.dir i)) k := rfl
    rw [hdef, Function.update_of_ne (hne i hi), pte]
  have hptes : ∀ x, pteTarget b x = pteTarget m x := fun x => by
    by_cases hx : hasTable m x.1
    · have hxb : hasTable b x.1 := hx
      rw [pteTarget, if_pos hxb, pteTarget, if_pos hx, hpte _ hx.2]
    · have hxb : ¬ hasTable b x.1 := hx
      rw [pteTarget, if_neg hxb, pteTarget, if_neg hx]
  have htarget : target b = Function.update (target m) (.inr (.inr nr)) (some page) := by
    funext r
    obtain x | i | t := r
    · rw [Function.update_of_ne (by simp)]
      exact hptes x
    · rfl
    · by_cases ht : t = nr
      · simp [target, slotTarget, ht, hnr, hb, Machine.setTask, hp]
      · rw [Function.update_of_ne (by simpa using ht)]
        simp [target, slotTarget, hb, Machine.setTask, ht]
  have hcountb : count b = Function.update (count m) page 1 := by
    rw [← count_setCount m 1 m.wrapped hrange]
    exact count_congr rfl rfl
  refine ⟨⟨fun n hn => ?_, fun f => ?_, fun n hn => ?_, fun x i f hx hi => ?_, h.kernel,
    fun i hi hi' k hk => ?_⟩,
    hrange.2, hpte⟩
  · by_cases he : n = mapNr page
    · simp [hb, Machine.setTask, he]
    · simpa [hb, Machine.setTask, he] using h.byte n hn
  · have hupd := refs_update (target m) (.inr (.inr nr)) (some page) f
    have hslot : target m (.inr (.inr nr)) = none := by simp [target, slotTarget, hfree]
    have hex := h.exact f
    rw [← htarget, hslot] at hupd
    rw [hcountb]
    by_cases hf : f = page
    · rw [hf] at hupd hex ⊢
      simp only [reduceCtorEq, if_false, if_true] at hupd
      rw [Function.update_self]
      omega
    · simp only [reduceCtorEq, if_false, Option.some.injEq, Ne.symm hf] at hupd
      rw [Nat.add_zero, Nat.add_zero] at hupd
      rw [Function.update_of_ne hf, hupd, hex]
  · have hn' : m.highMemory ≤ n + LOW_MEM := hn
    have he : n ≠ mapNr page := by
      simp only [mapNr]
      omega
    simpa [hb, Machine.setTask, he] using h.reserved n hn
  · rw [hptes] at hx
    exact h.apart x i f hx hi
  · rw [hpte i hi']
    exact h.low i hi hi' k hk

/-- What `copy_mem` leaves when it fails: everything as it was, R/W bits aside. -/
structure Undone (b m' : Machine) : Prop where
  memMap : m'.memMap = b.memMap
  dir : m'.dir = b.dir
  high : m'.highMemory = b.highMemory
  entries : ∀ i, present (b.dir i) → ∀ k, pte m' i k = pte b i k ∨ pte m' i k = readOnly (pte b i k)

theorem copyMem_fails {current p : Task} (hbase : current.base = newBase s) (hsn : s ≠ nr)
    (hnr : nr ≠ 0) (hlimit : m.limit ≤ 0x4000000)
    (hempty : ∀ i ∈ dirRange (newBase nr) m.limit, m.dir i = 0)
    (h : Accounted (m.setTask nr (some { p with base := newBase nr }))) :
    IfReturns (fun r => r.2.task = Function.update m.task nr (some { p with base := newBase nr }) ∧
      r.2.lastPid = m.lastPid ∧ (r.1 ≠ 0 → Undone m r.2)) (copyMem current nr p m) := by
  simp only [copyMem]
  set b := m.setTask nr (some { p with base := newBase nr }) with hb
  have hw : Window b (dirRange (newBase nr) m.limit) (toParent s nr) :=
    window_of_slot hlimit hsn hnr hempty
  have hstart := Underway.start h hw
  have hcopied : IfReturns (fun r => Underway b (dirRange (newBase nr) m.limit) (toParent s nr) r.2)
      (copyPageTables current.base (newBase nr) m.limit b) := by
    unfold copyPageTables
    split
    · trivial
    · rw [hbase]
      refine hstart.copyTables h hw _ _ (dirRange_zip s nr m.limit) fun d hd k hk hp => ?_
      by_cases hs : s = 0
      · right
        rw [hs, if_pos (newBase_eq_zero.mpr rfl), mem_take_finRange (by omega)] at hk
        refine h.low d.1 ?_ hp k hk
        rw [hs] at hd
        exact (List.of_mem_zip hd).1
      · left
        obtain ⟨j, -, hj⟩ := (mem_dirRange hlimit).mp (List.of_mem_zip hd).1
        have hpos : s.val ≠ 0 := fun e => hs (Fin.ext e)
        exact ⟨by omega, hp⟩
  refine hcopied.bind fun r hr => ?_
  obtain ⟨err, m₁⟩ := r
  have hr : Underway b (dirRange (newBase nr) m.limit) (toParent s nr) m₁ := hr
  simp only
  split
  · have hfreed : IfReturns (fun m₂ => Shape b (dirRange (newBase nr) m.limit) (toParent s nr) m₂ ∧
      Balanced m₂ ∧
        ∀ i ∈ dirRange (newBase nr) m.limit, ¬ present (m₂.dir i))
          (freePageTables (newBase nr) m.limit m₁) := by
      unfold freePageTables
      split
      · trivial
      · split
        · trivial
        · exact (hr.shape.freeTables hr.balanced h hw _ fun _ hi => hi).mono fun m₂ h₂ =>
            ⟨h₂.1, h₂.2.1, h₂.2.2.1⟩
    have hsame : m₁.limit = m.limit := hr.shape.limit
    rw [hsame]
    cases hfree : freePageTables (newBase nr) m.limit m₁ with
    | error e => trivial
    | ok m₂ =>
      obtain ⟨hshape, hbal, hgone⟩ := hfreed.of_ok hfree
      obtain ⟨hmap, hdir⟩ := hshape.restored hbal h hw hgone
      refine ⟨hshape.task, hshape.lastPid, fun _ => ⟨hmap, hdir, hshape.high, fun i hi k => ?_⟩⟩
      exact hshape.entries i (fun hmem => hw.absent hmem hi) hi k
  · rename_i herr
    exact ⟨hr.shape.task, hr.shape.lastPid, fun h0 => absurd rfl h0⟩

/-- A `fork` that fails leaves no trace but cleared R/W bits, whatever the number of
page tables and wherever the free frames ran out. -/
theorem failed_fork_leaves_no_trace {m' : Machine} {u u' : UseCounts} {current : Task}
    {own : Holdings} (h : Accounted m) (hs : m.task s = some current)
    (hbase : current.base = newBase s) (hnr : nr ≠ 0) (hfree : m.task nr = none)
    (hlimit : m.limit ≤ 0x4000000) (hempty : ∀ i ∈ dirRange (newBase nr) m.limit, m.dir i = 0)
    (hpid : 0 ≤ m.lastPid) (hrun : copyProcessShare current own nr m u = .ok (-1, m', u')) :
    m'.memMap = m.memMap ∧ m'.task = m.task ∧ (∀ i ∈ dirRange (newBase nr) m.limit, m'.dir i = 0) ∧
    u'.fCount = u.fCount ∧ u'.iCount = u.iCount ∧
    ∀ i, present (m.dir i) →
      m'.dir i = m.dir i ∧ ∀ k, pte m' i k = pte m i k ∨ pte m' i k = readOnly (pte m i k) := by
  have hsn : s ≠ nr := fun e => by simp [← e, hs] at hfree
  cases hg : getFreePage m with
  | none =>
    simp only [copyProcessShare, hg] at hrun
    obtain ⟨-, hm⟩ := Prod.mk.inj (Except.ok.inj hrun)
    obtain ⟨rfl, rfl⟩ := Prod.mk.inj hm
    exact ⟨rfl, rfl, hempty, rfl, rfl, fun i _ => ⟨rfl, fun k => .inl rfl⟩⟩
  | some r =>
    obtain ⟨page, m₁⟩ := r
    obtain ⟨hlow, hpageOf, hzero, hm₁⟩ := getFreePage_eq hg
    simp only [copyProcessShare, hg] at hrun
    obtain ⟨⟨err, m₂⟩, hcopy, hrest⟩ := bind_eq_ok.mp hrun
    set p : Task := { current with
      state := .uninterruptible, pid := m₁.lastPid, father := current.pid,
      counter := current.priority
      signal := 0, alarm := 0, leader := 0, utime := 0, stime := 0, cutime := 0, cstime := 0
      startTime := m₁.jiffies, page := page } with hp
    obtain ⟨hacc, hhigh, hpte⟩ :=
      accounted_fillSlot (p := { p with base := newBase nr }) h hnr hfree hg rfl
    have hset : (m₁.setTask nr (some p)).setTask nr (some { p with base := newBase nr }) =
        m₁.setTask nr (some { p with base := newBase nr }) := by
      simp [Machine.setTask]
    have hfails := (copyMem_fails (m := m₁.setTask nr (some p)) (p := p) hbase hsn hnr
      (by rw [hm₁]; exact hlimit) (by rw [hm₁]; exact hempty) (hset ▸ hacc)).of_ok hcopy
    obtain ⟨htask, hlast, hundone⟩ := hfails
    have htask : m₂.task = Function.update m.task nr (some { p with base := newBase nr }) := by
      rw [htask, hm₁]
      simp [Machine.setTask]
    by_cases herr : err = 0
    · simp only [herr, ne_eq, not_true_eq_false, if_false] at hrest
      have hret : m₂.lastPid = -1 := (Prod.mk.inj (Except.ok.inj hrest)).1
      have hlast : m₂.lastPid = m.lastPid := hlast.trans (by rw [hm₁]; rfl)
      omega
    · simp only [ne_eq, herr, not_false_eq_true, if_true] at hrest
      obtain ⟨m₃, hfree₃, hret⟩ := bind_eq_ok.mp hrest
      obtain ⟨-, hm⟩ := Prod.mk.inj (Except.ok.inj hret)
      obtain ⟨rfl, rfl⟩ := Prod.mk.inj hm
      have hun := hundone herr
      have hone : m₂.memMap = Function.update m.memMap (mapNr page) 1 := by
        rw [hun.memMap, hm₁]
        rfl
      have hhigh₂ : m₂.highMemory = m.highMemory := by
        rw [hun.high, hm₁]
        rfl
      have hdir₂ : m₂.dir = m.dir := by
        rw [hun.dir, hm₁]
        rfl
      have hfree₃ : freePage page (m₂.setTask nr none) = .ok m₃ := hfree₃
      have hmap : (m₂.setTask nr none).memMap = Function.update m.memMap (mapNr page) 1 := hone
      have hhigh₃ : ¬ (m₂.setTask nr none).highMemory ≤ page := by
        have hle := hhigh₂
        simp only [Machine.setTask]
        omega
      rw [freePage, if_neg (by omega), if_neg hhigh₃, hmap, Function.update_self,
        if_pos Nat.one_ne_zero] at hfree₃
      obtain rfl := Except.ok.inj hfree₃
      refine ⟨?_, ?_, fun i hi => ?_, rfl, rfl, fun i hi => ⟨congrFun hdir₂ i, fun k => ?_⟩⟩
      · have hback : Function.update (Function.update m.memMap (mapNr page) 1) (mapNr page)
            (1 - 1) = m.memMap := by
          rw [Nat.sub_self, Function.update_idem, ← hzero, Function.update_eq_self]
        exact hback
      · have hback : Function.update m₂.task nr none = m.task := by
          rw [htask, Function.update_idem, ← hfree, Function.update_eq_self]
        exact hback
      · exact (congrFun hdir₂ i).trans (hempty i hi)
      · have hi₁ : present ((m₁.setTask nr (some p)).dir i) := by
          rw [hm₁]
          exact hi
        have hsame : pte (m₁.setTask nr (some p)) i k = pte m i k := hpte i hi k
        have hentry := hun.entries i hi₁ k
        rw [hsame] at hentry
        exact hentry

def tightConfig : Config where
  low := bootConfig.low
  high := 257
  limit := 0xA0000
  low_le_high := by decide
  high_le := by decide
  limit_pos := bootConfig.limit_pos
  limit_le := bootConfig.limit_le
  table_eq := bootConfig.table_eq

theorem failed_fork_leaves_no_trace_tight : ∃ m' u',
    copyProcessShare initTask ⟨fun _ => some 0, some 0, some 0, none⟩ 1 (boot tightConfig)
      ⟨fun _ => 1, fun _ => 1⟩ =
      .ok (-1, m', u') ∧
    m'.memMap = (boot tightConfig).memMap ∧ m'.task = (boot tightConfig).task ∧
    u'.fCount = (fun _ => 1) ∧ u'.iCount = fun _ => 1 := by
  have hfails : (copyProcessShare initTask ⟨fun _ => some 0, some 0, some 0, none⟩ 1
    (boot tightConfig)
      ⟨fun _ => 1, fun _ => 1⟩).toOption.map (·.1) = some (-1) := by decide +kernel
  cases hrun : copyProcessShare initTask ⟨fun _ => some 0, some 0, some 0, none⟩ 1
    (boot tightConfig)
      ⟨fun _ => 1, fun _ => 1⟩ with
  | error p =>
    rw [hrun] at hfails
    cases hfails
  | ok r =>
    obtain ⟨ret, m', u'⟩ := r
    rw [hrun] at hfails
    obtain rfl : ret = -1 := Option.some.inj hfails
    have hslot : (boot tightConfig).task 0 = some initTask := rfl
    have hempty : ∀ i ∈ dirRange (newBase 1) (boot tightConfig).limit,
        (boot tightConfig).dir i = 0 := by
      decide +kernel
    have hpid : (0 : Int) ≤ (boot tightConfig).lastPid := le_refl 0
    obtain ⟨hmap, htask, -, hf, hi, -⟩ :=
      failed_fork_leaves_no_trace (accounted_of_inv (inv_boot tightConfig))
      hslot (newBase_eq_zero.mpr rfl).symm (by decide) rfl (by decide) hempty hpid hrun
    exact ⟨m', u', rfl, hmap, htask, hf, hi⟩

end Hios.Kernel
