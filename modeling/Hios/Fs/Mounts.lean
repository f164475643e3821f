import Hios.Fs.InodeCalls
import Hios.Fs.BlockBounds
import Mathlib.Data.Fintype.Card
import Mathlib.Tactic.Choose

/-! `iget` across mount points: the way from an inode over the file systems mounted on it,
and what the search does to the counts of the table. -/
namespace Hios.Fs
open Hios.Outcome
variable {fs fs' fs'' : FileSystem} {dev nr d n : Nat} {i j e : InodeIx} {l : List InodeIx}
  {sb : SuperBlock}

def mountedOn (fs : FileSystem) (i : InodeIx) : Option SuperBlock :=
  ((List.finRange NR_SUPER).map fs.super).find? fun s => s.sImount = .entry i

/-- The way from inode `nr` of `dev`: the entries that are met, and the inode it ends at. There
is none where mounts form a cycle. -/
inductive Way (fs : FileSystem) : Nat → Nat → List InodeIx → Nat → Nat → Prop
  | absent {dev nr : Nat} (hf : findInode fs dev nr = none) : Way fs dev nr [] dev nr
  | plain {dev nr : Nat} {i : InodeIx} (hf : findInode fs dev nr = some i)
    (hm : (fs.inode i).iMount = false) :
      Way fs dev nr [i] dev nr
  | lost {dev nr : Nat} {i : InodeIx} (hf : findInode fs dev nr = some i)
    (hm : (fs.inode i).iMount = true)
      (hsb : mountedOn fs i = none) : Way fs dev nr [i] dev nr
  | cross {dev nr d n : Nat} {i : InodeIx} {l : List InodeIx} {sb : SuperBlock}
    (hf : findInode fs dev nr = some i)
      (hm : (fs.inode i).iMount = true) (hsb : mountedOn fs i = some sb)
        (hw : Way fs sb.sDev ROOT_INO l d n) :
      Way fs dev nr (i :: l) d n

/-- The search can pass the entry: if it is a mount point, a file system is mounted there, and
its count fits. -/
def Passable (fs : FileSystem) (i : InodeIx) : Prop :=
  ((fs.inode i).iMount = true → (mountedOn fs i).isSome) ∧ (fs.inode i).iCount < 65535

structure Served (fs : FileSystem) : Prop where
  short : ∀ i, (fs.inode i).iCount < 65536
  unlocked : ∀ i, (fs.inode i).iLock = false
  unique : ∀ i j, (fs.inode i).iDev ≠ 0 → (fs.inode i).iDev = (fs.inode j).iDev →
    (fs.inode i).iNum = (fs.inode j).iNum →
    i = j
  held : ∀ i, (fs.inode i).iMount = true → (fs.inode i).iCount ≠ 0
  written : ∀ i, (fs.inode i).iDirt = true → (getSuper (fs.inode i).iDev fs).isSome ∧
    1 ≤ (fs.inode i).iNum
  mounted : ∀ k i, (fs.super k).sImount = .entry i → (getSuper (fs.super k).sDev fs).isSome ∧
    (fs.super k).sDev < 65536
  reads : ∀ k dev block, fs.readable k dev block = true
  counts : ∀ d b, bufferCount fs d b < 255

def IgetRight (fs : FileSystem) (dev nr d n : Nat) : Prop :=
  ∃ i fs', iget dev nr fs = .ok (i, fs') ∧ (fs'.inode i).iDev = d ∧ (fs'.inode i).iNum = n ∧
    (∀ j, findInode fs d n = some j → i = j) ∧ (fs'.inode i).iCount = (fs.inode i).iCount + 1 ∧
    (findInode fs d n = none → (fs'.inode i).iCount = 1) ∧ ∀ j, j ≠ i →
      (fs'.inode j).iCount = (fs.inode j).iCount

/-- The counts have become `c`; nothing else has happened to the entries but that some were
written back. -/
structure Recounted (c : InodeIx → Nat) (fs fs' : FileSystem) : Prop where
  super : fs'.super = fs.super
  readable : fs'.readable = fs.readable
  buffers : SameCounts fs fs'
  entry : ∀ j, ∃ dirt, fs'.inode j = { fs.inode j with iCount := c j, iDirt := dirt } ∧
    (dirt = true → (fs.inode j).iDirt = true)

def FileSystem.refs (fs : FileSystem) : InodeIx → Nat := fun j => (fs.inode j).iCount

theorem Recounted.refl (fs : FileSystem) : Recounted fs.refs fs fs :=
  ⟨rfl, rfl, .refl fs, fun _ => ⟨_, rfl, id⟩⟩

theorem Recounted.trans {c c' : InodeIx → Nat} (h : Recounted c fs fs')
    (h' : Recounted c' fs' fs'') :
    Recounted c' fs fs'' := by
  refine ⟨h'.super.trans h.super, h'.readable.trans h.readable, h.buffers.trans h'.buffers,
    fun j => ?_⟩
  obtain ⟨d, hd, hclean⟩ := h.entry j
  obtain ⟨d', hd', hclean'⟩ := h'.entry j
  refine ⟨d', by rw [hd', hd], fun ht => hclean ?_⟩
  have := hclean' ht
  rwa [hd] at this

theorem Recounted.refs {c : InodeIx → Nat} (h : Recounted c fs fs') : fs'.refs = c := by
  funext j
  obtain ⟨_, hj, -⟩ := h.entry j
  rw [FileSystem.refs, hj]

theorem Recounted.getSuper {c : InodeIx → Nat} (h : Recounted c fs fs') (dev : Nat) :
    getSuper dev fs' = getSuper dev fs := by
  simp only [Fs.getSuper, h.super]

theorem Recounted.find {c : InodeIx → Nat} (h : Recounted c fs fs') (dev nr : Nat) :
    findInode fs' dev nr = findInode fs dev nr := by
  refine findInode_congr fun j => ?_
  obtain ⟨_, hj, -⟩ := h.entry j
  rw [hj]
  exact ⟨rfl, rfl⟩

theorem Served.recounted {c : InodeIx → Nat} (hs : Served fs) (h : Recounted c fs fs')
    (hshort : ∀ i, c i < 65536) (hheld : ∀ i, (fs.inode i).iMount = true → c i ≠ 0) :
    Served fs' := by
  have hinode := fun j => (h.entry j).choose_spec
  have hdev : ∀ j, (fs'.inode j).iDev = (fs.inode j).iDev := fun j => by rw [(hinode j).1]
  have hnum : ∀ j, (fs'.inode j).iNum = (fs.inode j).iNum := fun j => by rw [(hinode j).1]
  refine ⟨fun j => ?_, fun j => ?_, fun j k => ?_, fun j hj => ?_, fun j hj => ?_, fun k j => ?_,
    fun k => ?_,
    fun d b => ?_⟩
  · rw [(hinode j).1]
    exact hshort j
  · rw [(hinode j).1]
    exact hs.unlocked j
  · rw [hdev, hdev, hnum, hnum]
    exact hs.unique j k
  · rw [(hinode j).1] at hj ⊢
    exact hheld j hj
  · rw [h.getSuper, hdev, hnum]
    rw [(hinode j).1] at hj
    exact hs.written j ((hinode j).2 hj)
  · rw [h.getSuper, h.super]
    exact hs.mounted k j
  · rw [h.readable]
    exact hs.reads k
  · rw [h.buffers d b]
    exact hs.counts d b

theorem getSuper_ne_zero (h : (getSuper dev fs).isSome) : dev ≠ 0 := by
  intro e
  simp [getSuper, e] at h

theorem OnlyBuffers.recounted (i : InodeIx) (count : Nat) (dirt : Bool) (ho : OnlyBuffers fs fs')
    (hb : SameCounts fs fs') (hdirt : dirt = true → (fs.inode i).iDirt = true) :
    Recounted (Function.update fs.refs i count) fs
      (fs'.setInode i { fs.inode i with iCount := count, iDirt := dirt }) := by
  refine ⟨by rw [ho]; rfl, by rw [ho]; rfl, hb, fun j => ?_⟩
  by_cases hj : j = i
  · subst hj
    exact ⟨dirt, by rw [setInode_inode, Function.update_self], hdirt⟩
  · refine ⟨_, ?_, id⟩
    rw [Function.update_of_ne hj, ho]
    exact Function.update_of_ne hj ..

theorem Served.writeInode (hs : Served fs) (hd : (fs.inode i).iDirt = true) :
    ∃ fs', writeInode i fs = .ok fs' ∧ Recounted fs.refs fs fs' ∧ (fs'.inode i).iDirt = false := by
  obtain ⟨hsuper, hone⟩ := hs.written i hd
  obtain ⟨sb, hsb⟩ := Option.isSome_iff_exists.mp hsuper
  obtain ⟨fs₁, hfill, heq⟩ :=
    writeInode_eq hsb hone (getSuper_ne_zero hsuper) hd (.inr fun n => hs.reads n _ _)
    (hs.unlocked i) hs.counts
  refine ⟨_, heq, ?_, by rw [setInode_inode]⟩
  have h := hfill.only.recounted i (fs.inode i).iCount false hfill.counts (fun h => by cases h)
  have hm : ({ fs.inode i with iDirt := false, iLock := false } : MInode) =
      { fs.inode i with iCount := (fs.inode i).iCount, iDirt := false } := by
    rw [← hs.unlocked i]
  rw [hm]
  rwa [show Function.update fs.refs i (fs.inode i).iCount =
    fs.refs from Function.update_eq_self i fs.refs] at h

theorem flush_recounted (dev : Nat) (fs : FileSystem) : Recounted fs.refs fs (flush dev fs) :=
  ⟨rfl, rfl, flush_counts dev fs, fun _ => ⟨_, rfl, id⟩⟩

theorem Served.writtenBack (hs : Served fs) (h : Recounted fs.refs fs fs') : Served fs' :=
  hs.recounted h hs.short hs.held

theorem Served.syncInodes (hs : Served fs) : Returns (Recounted fs.refs fs) (syncInodes fs) := by
  refine Ends.foldlM (I := Recounted fs.refs fs) (.refl fs) fun fs₁ i _ h => ?_
  have hs₁ := hs.writtenBack h
  simp only [waitOnInode, hs₁.unlocked i, Bool.false_eq_true, if_false]
  change Returns _ (if _ then _ else _)
  split
  · rename_i hd
    obtain ⟨fs₂, heq, h₂, -⟩ := hs₁.writeInode hd.1
    rw [heq]
    exact h.trans (h.refs ▸ h₂)
  · exact h

theorem Served.syncDev (hs : Served fs) (dev : Nat) :
    Returns (Recounted fs.refs fs) (syncDev dev fs) := by
  have h := flush_recounted dev fs
  refine (hs.writtenBack h).syncInodes.bind fun fs₁ h₁ => ?_
  have h₂ := flush_recounted dev fs₁
  rw [h₁.refs, h.refs] at h₂
  rw [h.refs] at h₁
  exact (h.trans h₁).trans h₂

theorem Served.iput (hs : Served fs) (hmany : 1 < (fs.inode i).iCount)
    (hdev : (fs.inode i).iDev ≠ 0) :
    Returns (Recounted (Function.update fs.refs i ((fs.inode i).iCount - 1)) fs) (iput i fs) := by
  have hput : ∀ {fs₁ : FileSystem}, Recounted fs.refs fs fs₁ →
      Recounted (Function.update fs.refs i ((fs.inode i).iCount - 1)) fs
        (fs₁.setInode i { fs₁.inode i with iCount := (fs₁.inode i).iCount - 1 }) := fun
          {fs₁} h => by
    have hcount : (fs₁.inode i).iCount = (fs.inode i).iCount := congrFun h.refs i
    have h' := (OnlyBuffers.refl fs₁).recounted i ((fs₁.inode i).iCount - 1) (fs₁.inode i).iDirt
      (.refl fs₁) id
    rw [h.refs, hcount] at h'
    rw [hcount]
    exact h.trans h'
  have hrepeat : ∀ {fs₁ : FileSystem}, Recounted fs.refs fs fs₁ →
      Returns (Recounted (Function.update fs.refs i ((fs.inode i).iCount - 1)) fs)
        (iputRepeat 2 i fs₁) := fun {fs₁} h => by
    have hcount : (fs₁.inode i).iCount = (fs.inode i).iCount := congrFun h.refs i
    rw [iputRepeat, if_pos (hcount ▸ hmany)]
    exact hput h
  unfold Fs.iput
  rw [waitOnInode, hs.unlocked i]
  change Returns _ (if _ then _ else _)
  rw [if_neg (by omega)]
  split
  · exact hput (.refl fs)
  split
  · refine (hs.syncDev _).bind fun fs₁ h => ?_
    rw [waitOnInode, (hs.writtenBack h).unlocked i]
    exact hrepeat h
  · exact hrepeat (.refl fs)

/-- Entry `e` of the table has been set apart: it is blank and counted once. -/
structure Apart (e : InodeIx) (fs fs' : FileSystem) : Prop where
  super : fs'.super = fs.super
  readable : fs'.readable = fs.readable
  buffers : SameCounts fs fs'
  free : (fs.inode e).iCount = 0
  blank : fs'.inode e = { MInode.zero with iCount := 1 }
  others : ∀ j, j ≠ e → ∃ dirt, fs'.inode j = { fs.inode j with iDirt := dirt } ∧
    (dirt = true → (fs.inode j).iDirt = true)

theorem Served.getEmptyInode (hs : Served fs) (hfree : ∃ i, (fs.inode i).iCount = 0) :
    ∃ e fs', getEmptyInode fs = .ok (e, fs') ∧ Apart e fs fs' := by
  have hscan := scanInodes_spec fs NR_INODE fs.lastInode none fun i hi => by cases hi
  unfold Fs.getEmptyInode
  generalize scanInodes fs NR_INODE fs.lastInode none = r at hscan ⊢
  obtain ⟨last, found⟩ := r
  cases found with
  | none =>
    obtain ⟨i, hi⟩ := hfree
    obtain ⟨k, hk, hkj⟩ := iterate_covers (fs.lastInode + 1) i
    exact absurd hi (hkj ▸ hscan.2 k hk)
  | some e =>
    have hs₀ : Served { fs with lastInode := last } :=
      ⟨hs.short, hs.unlocked, hs.unique, hs.held, hs.written, hs.mounted, hs.reads, hs.counts⟩
    have hclean : ∃ fs₁,
      (∀ k : FileSystem → Except Panic (InodeIx × FileSystem), (if (fs.inode e).iDirt = true then
        Fs.writeInode e { fs with lastInode := last } >>= k
          else pure { fs with lastInode := last } >>= k) = k fs₁) ∧
        Recounted fs.refs fs fs₁ ∧ (fs₁.inode e).iDirt = false := by
      by_cases hd : (fs.inode e).iDirt = true
      · obtain ⟨fs₁, heq, h, hd₁⟩ := hs₀.writeInode hd
        exact ⟨fs₁, fun k =>
          by rw [if_pos hd, heq]; rfl, ⟨h.super, h.readable, h.buffers, h.entry⟩, hd₁⟩
      · exact ⟨_, fun k => if_neg hd, ⟨rfl, rfl, .refl fs, fun _ => ⟨_, rfl, id⟩⟩,
          by simpa using hd⟩
    obtain ⟨fs₁, heq, h, hd₁⟩ := hclean
    refine ⟨e, fs₁.setInode e { MInode.zero with iCount := 1 }, ?_, h.super, h.readable,
      h.buffers, hscan,
      setInode_inode .., fun j hj => ?_⟩
    · have hwait : waitOnInode e { fs with lastInode := last } = .ok () :=
        if_neg (by simp [hs.unlocked e])
      refine bind_eq_ok.mpr ⟨(), hwait, (heq _).trans ?_⟩
      change (if (fs₁.inode e).iDirt = true then _ else _) = _
      rw [hd₁]
      rfl
    · obtain ⟨dirt, hdirt, hclean⟩ := h.entry j
      exact ⟨dirt, (Function.update_of_ne hj ..).trans hdirt, hclean⟩

theorem Served.find (hs : Served fs) (hdev : dev ≠ 0) (hd : (fs.inode i).iDev = dev)
    (hn : (fs.inode i).iNum = nr) :
    findInode fs dev nr = some i := by
  cases hf : findInode fs dev nr with
  | none => exact absurd ⟨hd, hn⟩ (findInode_none.mp hf i)
  | some j =>
    obtain ⟨hd', hn'⟩ := findInode_some hf
    rw [hs.unique i j (hd ▸ hdev) (hd.trans hd'.symm) (hn.trans hn'.symm)]

theorem Served.apart (hs : Served fs) (h : Apart e fs fs') : Served fs' := by
  have hsuper : ∀ dev, getSuper dev fs' = getSuper dev fs := fun dev => by
    simp only [Fs.getSuper, h.super]
  refine ⟨fun j => ?_, fun j => ?_, fun j k => ?_, fun j hj => ?_, fun j hj => ?_, fun k j => ?_,
    fun k => ?_,
    fun d b => ?_⟩
  · by_cases hje : j = e
    · rw [hje, h.blank]
      decide
    · obtain ⟨_, hj, -⟩ := h.others j hje
      rw [hj]
      exact hs.short j
  · by_cases hje : j = e
    · rw [hje, h.blank]
      rfl
    · obtain ⟨_, hj, -⟩ := h.others j hje
      rw [hj]
      exact hs.unlocked j
  · intro hdev hd hn
    by_cases hje : j = e
    · rw [hje, h.blank] at hdev
      exact absurd rfl hdev
    by_cases hke : k = e
    · rw [hke, h.blank] at hd
      exact absurd hd hdev
    obtain ⟨_, hj, -⟩ := h.others j hje
    obtain ⟨_, hk, -⟩ := h.others k hke
    rw [hj] at hdev
    rw [hj, hk] at hd hn
    exact hs.unique j k hdev hd hn
  · by_cases hje : j = e
    · rw [hje, h.blank]
      decide
    · obtain ⟨_, hk, -⟩ := h.others j hje
      rw [hk] at hj ⊢
      exact hs.held j hj
  · by_cases hje : j = e
    · rw [hje, h.blank] at hj
      cases hj
    · obtain ⟨_, hk, hclean⟩ := h.others j hje
      rw [hsuper]
      rw [hk] at hj ⊢
      exact hs.written j (hclean hj)
  · rw [hsuper, h.super]
    exact hs.mounted k j
  · rw [h.readable]
    exact hs.reads k
  · rw [h.buffers d b]
    exact hs.counts d b

theorem Apart.find (hs : Served fs) (h : Apart e fs fs') (hdev : dev ≠ 0) :
    findInode fs' dev nr = if findInode fs dev nr = some e then none else findInode fs dev nr := by
  have hnot : ∀ j, j ≠ e → ((fs'.inode j).iDev = dev ∧ (fs'.inode j).iNum = nr ↔
      (fs.inode j).iDev = dev ∧ (fs.inode j).iNum = nr) := fun j hje => by
    obtain ⟨_, hj, -⟩ := h.others j hje
    rw [hj]
  have hspare : ¬ ((fs'.inode e).iDev = dev ∧ (fs'.inode e).iNum = nr) := by
    rw [h.blank]
    exact fun hd => hdev hd.1.symm
  cases hf : findInode fs dev nr with
  | none =>
    rw [if_neg (by simp)]
    refine findInode_none.mpr fun j hj => ?_
    by_cases hje : j = e
    · exact hspare (hje ▸ hj)
    · exact findInode_none.mp hf j ((hnot j hje).mp hj)
  | some j =>
    obtain ⟨hd, hn⟩ := findInode_some hf
    by_cases hje : j = e
    · subst hje
      rw [if_pos rfl]
      refine findInode_none.mpr fun k hk => ?_
      by_cases hkj : k = j
      · exact hspare (hkj ▸ hk)
      · have hk' := (hnot k hkj).mp hk
        exact hkj (hs.unique k j (hk'.1 ▸ hdev) (hk'.1.trans hd.symm) (hk'.2.trans hn.symm))
    · rw [if_neg (by simpa using hje)]
      have hj := (hnot j hje).mpr ⟨hd, hn⟩
      exact (hs.apart h).find hdev hj.1 hj.2

theorem mountedOn_slot (h : mountedOn fs i = some sb) :
    ∃ k, fs.super k = sb ∧ (fs.super k).sImount = .entry i := by
  unfold mountedOn at h
  have hmount := List.find?_some h
  obtain ⟨k, -, rfl⟩ := List.mem_map.mp (List.mem_of_find?_eq_some h)
  exact ⟨k, rfl, of_decide_eq_true hmount⟩

theorem mountedOn_mounted (hs : Served fs) (h : mountedOn fs i = some sb) :
    (getSuper sb.sDev fs).isSome ∧ sb.sDev < 65536 := by
  obtain ⟨k, hk⟩ := mountedOn_slot h
  rw [← hk.1]
  exact hs.mounted k i hk.2

theorem Way.apart (hs : Served fs) (h : Apart e fs fs') (hw : Way fs dev nr l d n)
    (hdev : dev ≠ 0) :
    ∃ l', Way fs' dev nr l' d n ∧ l'.length ≤ l.length ∧ d ≠ 0 ∧
    ((∀ i ∈ l', Passable fs' i) ↔ ∀ i ∈ l, Passable fs i) := by
  have hon : ∀ i, mountedOn fs' i = mountedOn fs i := fun i => by simp only [mountedOn, h.super]
  have hpass : ∀ i, i ≠ e → (Passable fs' i ↔ Passable fs i) := fun i hie => by
    obtain ⟨_, hi, -⟩ := h.others i hie
    rw [Passable, Passable, hon, hi]
  have hmount : ∀ i, (fs.inode i).iMount = true → i ≠ e :=
    fun i hm hie => hs.held i hm (hie ▸ h.free)
  have hsame : ∀ i, i ≠ e → (fs'.inode i).iMount = (fs.inode i).iMount := fun i hie => by
    obtain ⟨_, hi, -⟩ := h.others i hie
    rw [hi]
  induction hw with
  | absent hf =>
    exact ⟨[], .absent (by rw [h.find hs hdev, hf, if_neg (by simp)]), Nat.le_refl _, hdev, by simp⟩
  | @plain dev nr i hf hm =>
    by_cases hie : i = e
    · subst hie
      refine ⟨[], .absent (by rw [h.find hs hdev, hf, if_pos rfl]), Nat.zero_le _, hdev,
        by simp [Passable, hm, h.free]⟩
    · refine ⟨[i], .plain (i := i) ?_ (by rw [hsame i hie, hm]), Nat.le_refl _, hdev,
        by simp [hpass i hie]⟩
      rw [h.find hs hdev, hf, if_neg (by simpa using hie)]
  | @lost dev nr i hf hm hsb =>
    have hie := hmount i hm
    refine ⟨[i], .lost (i := i) ?_ (by rw [hsame i hie, hm]) (by rw [hon, hsb]), Nat.le_refl _,
      hdev, by simp [hpass i hie]⟩
    rw [h.find hs hdev, hf, if_neg (by simpa using hie)]
  | @cross dev nr d n i l sb hf hm hsb hw ih =>
    have hie := hmount i hm
    obtain ⟨l', hw', hlen, hd, hall⟩ := ih (getSuper_ne_zero (mountedOn_mounted hs hsb).1)
    refine ⟨i :: l', .cross (i := i) ?_ (by rw [hsame i hie, hm]) (by rw [hon, hsb]) hw',
      Nat.succ_le_succ hlen,
      hd, ?_⟩
    · rw [h.find hs hdev, hf, if_neg (by simpa using hie)]
    · simp only [List.forall_mem_cons, hpass i hie, hall]

theorem Way.unique {l' : List InodeIx} {d' n' : Nat} (h : Way fs dev nr l d n)
    (h' : Way fs dev nr l' d' n') : l' = l := by
  induction h generalizing l' with
  | absent hf =>
    cases h' with
    | absent => rfl
    | plain hf' => cases hf.symm.trans hf'
    | lost hf' => cases hf.symm.trans hf'
    | cross hf' => cases hf.symm.trans hf'
  | plain hf hm =>
    cases h' with
    | absent hf' => cases hf.symm.trans hf'
    | plain hf' => rw [Option.some.inj (hf.symm.trans hf')]
    | lost hf' => rw [Option.some.inj (hf.symm.trans hf')]
    | cross hf' hm' =>
      obtain rfl := Option.some.inj (hf.symm.trans hf')
      cases hm.symm.trans hm'
  | lost hf hm hsb =>
    cases h' with
    | absent hf' => cases hf.symm.trans hf'
    | plain hf' => rw [Option.some.inj (hf.symm.trans hf')]
    | lost hf' => rw [Option.some.inj (hf.symm.trans hf')]
    | cross hf' _ hsb' =>
      obtain rfl := Option.some.inj (hf.symm.trans hf')
      cases hsb.symm.trans hsb'
  | cross hf hm hsb hw ih =>
    cases h' with
    | absent hf' => cases hf.symm.trans hf'
    | plain hf' hm' =>
      obtain rfl := Option.some.inj (hf.symm.trans hf')
      cases hm.symm.trans hm'
    | lost hf' _ hsb' =>
      obtain rfl := Option.some.inj (hf.symm.trans hf')
      cases hsb.symm.trans hsb'
    | cross hf' _ hsb' hw' =>
      obtain rfl := Option.some.inj (hf.symm.trans hf')
      obtain rfl := Option.some.inj (hsb.symm.trans hsb')
      rw [ih hw']

theorem Way.from_mem (hw : Way fs dev nr l d n) (hi : i ∈ l) :
    ∃ dev' nr' l', findInode fs dev' nr' = some i ∧ Way fs dev' nr' l' d n ∧
    l'.length ≤ l.length := by
  induction hw with
  | absent => cases hi
  | @plain dev nr j hf hm =>
    obtain rfl := List.mem_singleton.mp hi
    exact ⟨dev, nr, _, hf, .plain hf hm, Nat.le_refl _⟩
  | @lost dev nr j hf hm hsb =>
    obtain rfl := List.mem_singleton.mp hi
    exact ⟨dev, nr, _, hf, .lost hf hm hsb, Nat.le_refl _⟩
  | @cross dev nr d n j l sb hf hm hsb hw ih =>
    cases List.mem_cons.mp hi with
    | inl h =>
      subst h
      exact ⟨dev, nr, _, hf, .cross hf hm hsb hw, Nat.le_refl _⟩
    | inr h =>
      obtain ⟨dev', nr', l', hf', hw', hlen⟩ := ih h
      exact ⟨dev', nr', l', hf', hw', Nat.le_succ_of_le hlen⟩

theorem Way.nodup (hw : Way fs dev nr l d n) : l.Nodup := by
  induction hw with
  | absent => exact List.nodup_nil
  | plain => exact List.nodup_singleton _
  | lost => exact List.nodup_singleton _
  | @cross dev nr d n i l sb hf hm hsb hw ih =>
    refine List.nodup_cons.mpr ⟨fun hi => ?_, ih⟩
    obtain ⟨dev', nr', l', hf', hw', hlen⟩ := hw.from_mem hi
    obtain ⟨rfl, rfl⟩ := findInode_some hf
    obtain ⟨rfl, rfl⟩ := findInode_some hf'
    rw [(Way.cross hf hm hsb hw).unique hw'] at hlen
    exact Nat.not_succ_le_self _ hlen

theorem Way.mounts (hw : Way fs dev nr l d n) :
    ∃ c last, l = c ++ last ∧ last.length ≤ 1 ∧ ∀ i ∈ c, ∃ k, (fs.super k).sImount = .entry i := by
  induction hw with
  | absent => exact ⟨[], [], rfl, Nat.zero_le _, fun i hi => by cases hi⟩
  | @plain dev nr i => exact ⟨[], [i], rfl, Nat.le_refl _, fun i hi => by cases hi⟩
  | @lost dev nr i => exact ⟨[], [i], rfl, Nat.le_refl _, fun i hi => by cases hi⟩
  | @cross dev nr d n i l sb hf hm hsb hw ih =>
    obtain ⟨c, last, rfl, hlast, hc⟩ := ih
    obtain ⟨k, -, hk⟩ := mountedOn_slot hsb
    refine ⟨i :: c, last, rfl, hlast, fun j hj => ?_⟩
    cases List.mem_cons.mp hj with
    | inl h => exact ⟨k, h ▸ hk⟩
    | inr h => exact hc j h

theorem Way.length_le (hw : Way fs dev nr l d n) : l.length ≤ NR_SUPER + 1 := by
  have hnd := hw.nodup
  obtain ⟨c, last, rfl, hlast, hc⟩ := hw.mounts
  have hcnd : c.Nodup := (List.nodup_append.mp hnd).1
  have hk : ∀ i : InodeIx, ∃ k, i ∈ c → (fs.super k).sImount = .entry i := fun i => by
    by_cases hi : i ∈ c
    · obtain ⟨k, hk⟩ := hc i hi
      exact ⟨k, fun _ => hk⟩
    · exact ⟨⟨0, by decide⟩, fun h => absurd h hi⟩
  choose slot hslot using hk
  have hinj : ∀ i ∈ c, ∀ j ∈ c, slot i = slot j → i = j := fun i hi j hj heq => by
    have h := hslot i hi
    rw [heq, hslot j hj] at h
    exact (InodePtr.entry.inj h).symm
  have hcard := (List.Nodup.map_on hinj hcnd).length_le_card
  rw [List.length_map, Fintype.card_fin] at hcard
  rw [List.length_append]
  omega

theorem Recounted.mountedOn {c : InodeIx → Nat} (h : Recounted c fs fs') (i : InodeIx) :
    mountedOn fs' i = mountedOn fs i := by
  simp only [Fs.mountedOn, h.super]

/-- Where the search ends: entry `i` holds inode `n` of `d`, and the count of `e` has moved there.
-/
structure ScanEnded (e : InodeIx) (fs : FileSystem) (d n : Nat) (i : InodeIx) (fs' : FileSystem) :
  Prop where
  dev : (fs'.inode i).iDev = d
  num : (fs'.inode i).iNum = n
  found : ∀ j, findInode fs d n = some j → i = j
  spare : findInode fs d n = none → i = e
  counts : ∀ j, (fs'.inode j).iCount + (if j = e then 1 else 0) = (fs.inode j).iCount + if j =
    i then 1 else 0

/-- One more reference to an entry, taken in a table that has been written back. -/
theorem Recounted.oneMore (h : Recounted fs.refs fs fs') (hfit : (fs.inode i).iCount < 65535) :
    Recounted (Function.update fs.refs i ((fs.inode i).iCount + 1)) fs
      (fs'.setInode i { fs'.inode i with iCount := ((fs'.inode i).iCount + 1) % 65536 }) := by
  have hcount : (fs'.inode i).iCount = (fs.inode i).iCount := congrFun h.refs i
  have hmod : ((fs.inode i).iCount + 1) % 65536 = (fs.inode i).iCount + 1 :=
    Nat.mod_eq_of_lt (by omega)
  have h' := (OnlyBuffers.refl fs').recounted i ((fs.inode i).iCount + 1) (fs'.inode i).iDirt
    (.refl fs') id
  rw [h.refs] at h'
  rw [hcount, hmod]
  exact h.trans h'

theorem iput_spare (hlock : (fs.inode e).iLock = false) (hcount : (fs.inode e).iCount = 1)
    (hdev : (fs.inode e).iDev = 0) (hpipe : (fs.inode e).iPipe = false) :
    iput e fs = .ok (fs.setInode e { fs.inode e with iCount := 0 }) := by
  simp only [iput, waitOnInode, hlock, Bool.false_eq_true, if_false]
  change (if _ then _ else _) = _
  rw [if_neg (by omega), if_neg (by simp [hpipe]), if_pos hdev, hcount]
  rfl

/-- A mount point is crossed: its count is as before, and the search goes on. -/
theorem igetScan_cross (hs : Served fs) (h : Recounted fs.refs fs fs')
    (hf : findInode fs dev nr = some i) (hdev : dev ≠ 0) (hm : (fs.inode i).iMount = true)
    (hsb : mountedOn fs i = some sb) (hfit : (fs.inode i).iCount < 65535) (fuel : Nat) :
    ∃ fs₁, Recounted fs.refs fs fs₁ ∧
    igetScan e (fuel + 1) dev nr fs' = igetScan e fuel sb.sDev ROOT_INO fs₁ := by
  have hs' := hs.writtenBack h
  have hmore := h.oneMore hfit
  have hfind := (h.find dev nr).trans hf
  obtain ⟨_, hentry, -⟩ := h.entry i
  have hm' : (fs'.inode i).iMount = true := by rw [hentry, hm]
  have hdev' : (fs'.inode i).iDev ≠ 0 := by rw [(findInode_some hfind).1]; exact hdev
  have hwait : waitOnInode i fs' = .ok () := if_neg (by simp [hs'.unlocked i])
  generalize hu : fs'.setInode i { fs'.inode i with iCount := ((fs'.inode i).iCount + 1) % 65536 } =
    u at hmore
  have hsu : Served u := by
    refine hs.recounted hmore (fun j => ?_) fun j hj => ?_
    · by_cases hji : j = i
      · rw [hji, Function.update_self]
        omega
      · rw [Function.update_of_ne hji]
        exact hs.short j
    · by_cases hji : j = i
      · rw [hji, Function.update_self]
        exact Nat.succ_ne_zero _
      · rw [Function.update_of_ne hji]
        exact hs.held j hj
  have hucount : (u.inode i).iCount = (fs.inode i).iCount + 1 := by
    have := congrFun hmore.refs i
    rwa [Function.update_self] at this
  have humount : (u.inode i).iMount = true := by rw [← hu, setInode_inode]; exact hm'
  have hudev : (u.inode i).iDev ≠ 0 := by rw [← hu, setInode_inode]; exact hdev'
  have hheld := hs.held i hm
  obtain ⟨fs₁, hput, h₁⟩ := (hsu.iput (by omega) hudev).exists_ok
  refine ⟨fs₁, ?_, ?_⟩
  · have hback : Function.update u.refs i ((u.inode i).iCount - 1) = fs.refs := by
      rw [hmore.refs, hucount, Function.update_idem]
      exact Function.update_eq_self i fs.refs
    rw [hback] at h₁
    exact hmore.trans h₁
  · have hsb' : ((List.finRange NR_SUPER).map u.super).find? (fun s => s.sImount = .entry i) =
        some sb := by
      rw [← hsb, Fs.mountedOn, hmore.super]
    simp only [igetScan, hfind, hwait, hu, humount, if_true, hsb', hput]
    rfl

theorem Recounted.blank (h : Recounted fs.refs fs fs')
    (he : fs.inode e = { MInode.zero with iCount := 1 }) :
    fs'.inode e = { MInode.zero with iCount := 1 } := by
  obtain ⟨dirt, hentry, hclean⟩ := h.entry e
  have hdirt : dirt = false := Bool.eq_false_iff.mpr fun hd => by
    have := hclean hd
    rw [he] at this
    cases this
  rw [hentry, hdirt, FileSystem.refs, he]
  rfl

/-- The search has found an entry on which nothing is mounted, and gives back the spare one. -/
theorem igetScan_found (hs : Served fs) (he : fs.inode e = { MInode.zero with iCount := 1 })
    (h : Recounted fs.refs fs fs') (hf : findInode fs dev nr = some i) (hdev : dev ≠ 0)
    (hend : (fs.inode i).iMount = false ∨ mountedOn fs i = none) (fuel : Nat) :
    ∃ fs'', igetScan e (fuel + 1) dev nr fs' = .ok (if (fs.inode i).iMount then e else i, fs'') ∧
    i ≠ e ∧
      (fs''.inode i).iDev = dev ∧ (fs''.inode i).iNum = nr ∧ (fs''.inode e).iDev = 0 ∧
      ∀ j, (fs''.inode j).iCount = if j = e then 0
        else if j = i then ((fs.inode i).iCount + 1) % 65536
        else (fs.inode j).iCount := by
  have hfind := (h.find dev nr).trans hf
  obtain ⟨hd, hn⟩ := findInode_some hfind
  have he' := h.blank he
  have hie : i ≠ e := fun hie => by
    rw [hie, he'] at hd
    exact hdev hd.symm
  obtain ⟨_, hentry, -⟩ := h.entry i
  have hcount := congrFun h.refs
  have hm : (fs'.inode i).iMount = (fs.inode i).iMount := by rw [hentry]
  have hwait : waitOnInode i fs' = .ok () := if_neg (by simp [(hs.writtenBack h).unlocked i])
  generalize hu : fs'.setInode i { fs'.inode i with iCount := ((fs'.inode i).iCount + 1) % 65536 } =
    u
  have hui : u.inode i = { fs'.inode i with iCount := ((fs'.inode i).iCount + 1) % 65536 } := by
    rw [← hu, setInode_inode]
  have hother : ∀ j, j ≠ i → u.inode j = fs'.inode j := fun j hj => by
    rw [← hu]
    exact Function.update_of_ne hj ..
  have hue : u.inode e = { MInode.zero with iCount := 1 } := (hother e hie.symm).trans he'
  have hput : iput e u = .ok (u.setInode e { u.inode e with iCount := 0 }) :=
    iput_spare (by rw [hue]; rfl) (by rw [hue]) (by rw [hue]; rfl) (by rw [hue]; rfl)
  have hum : (u.inode i).iMount = (fs.inode i).iMount := by rw [hui]; exact hm
  have hsuper : u.super = fs.super := by rw [← hu]; exact h.super
  refine ⟨u.setInode e { u.inode e with iCount := 0 }, ?_, hie, ?_, ?_, ?_, fun j => ?_⟩
  · cases hmount : (fs.inode i).iMount with
    | false =>
      simp only [igetScan, hfind, hwait, hu, hum, hmount, hput]
      rfl
    | true =>
      have hsb : ((List.finRange NR_SUPER).map u.super).find? (fun s => s.sImount = .entry i) =
          none := by
        rw [hsuper]
        exact hend.resolve_left (by simp [hmount])
      simp only [igetScan, hfind, hwait, hu, hum, hmount, if_true, hsb, hput]
      rfl
  · rw [show (u.setInode e _).inode i = u.inode i from Function.update_of_ne hie .., hui]
    exact hd
  · rw [show (u.setInode e _).inode i = u.inode i from Function.update_of_ne hie .., hui]
    exact hn
  · rw [setInode_inode, hue]
    rfl
  · by_cases hje : j = e
    · rw [hje, setInode_inode, if_pos rfl]
    · rw [if_neg hje, show (u.setInode e _).inode j = u.inode j from Function.update_of_ne hje ..]
      by_cases hji : j = i
      · rw [if_pos hji, hji, hui]
        exact congrArg (fun c => (c + 1) % 65536) (hcount i)
      · rw [if_neg hji, hother j hji]
        exact hcount j

/-- The search has found nothing, and fills the spare entry from the disk. -/
theorem igetScan_fill (hs : Served fs) (he : fs.inode e = { MInode.zero with iCount := 1 })
    (h : Recounted fs.refs fs fs') (hf : findInode fs dev nr = none)
    (hdev : (getSuper dev fs).isSome) (hdev' : dev < 65536) (hone : 1 ≤ nr) (hnr : nr < 65536)
    (fuel : Nat) :
    ∃ fs'', igetScan e (fuel + 1) dev nr fs' = .ok (e, fs'') ∧ ScanEnded e fs dev nr e fs'' := by
  have hs' := hs.writtenBack h
  have hfind := (h.find dev nr).trans hf
  have he' := h.blank he
  obtain ⟨sb, hsb⟩ := Option.isSome_iff_exists.mp hdev
  have hm : ({ fs'.inode e with iDev := dev % 65536, iNum := nr % 65536 } : MInode) =
      { MInode.zero with iCount := 1, iDev := dev, iNum := nr } := by
    rw [he', Nat.mod_eq_of_lt hdev', Nat.mod_eq_of_lt hnr]
  generalize hu : fs'.setInode e { MInode.zero with iCount := 1, iDev := dev, iNum := nr } = u
  have hue : u.inode e = { MInode.zero with iCount := 1, iDev := dev, iNum := nr } := by
    rw [← hu, setInode_inode]
  have hsb' : getSuper (u.inode e).iDev u = some sb := by
    rw [hue, ← hu]
    exact (h.getSuper dev).trans hsb
  have hreads : ∀ k d b, u.readable k d b = true := by
    rw [← hu]
    exact hs'.reads
  have hcounts : ∀ d b, bufferCount u d b < 255 := by
    rw [← hu]
    exact hs'.counts
  obtain ⟨fs₁, hstill, heq⟩ :=
    readInode_eq hsb' (by rw [hue]; exact hone) (.inr fun k => hreads k _ _)
      (by rw [hue]; rfl) hcounts
  have hother : ∀ j, j ≠ e → fs₁.inode j = fs'.inode j := fun j hj => by
    rw [hstill.only.inode, ← hu]
    exact Function.update_of_ne hj ..
  generalize hv : fs₁.setInode e
    { u.inode e with d := diskInode u (u.inode e).iDev (u.inode e).iNum, iLock := false } = v at heq
  have hve : (v.inode e).iDev = dev ∧ (v.inode e).iNum = nr ∧ (v.inode e).iCount = 1 := by
    rw [← hv, setInode_inode, hue]
    exact ⟨rfl, rfl, rfl⟩
  refine ⟨v, ?_, hve.1, hve.2.1, fun j hj => ?_, fun _ => rfl, fun j => ?_⟩
  · simp only [igetScan, hfind, hm, hu, heq]
    rfl
  · cases hf.symm.trans hj
  · by_cases hje : j = e
    · rw [hje, hve.2.2, he]
    · have hvj : v.inode j = fs₁.inode j := by
        rw [← hv]
        exact Function.update_of_ne hje ..
      rw [hvj, hother j hje, if_neg hje]
      exact congrFun h.refs j

/-- Where all entries of the way can be passed, the search comes to its end. -/
theorem igetScan_ended (hs : Served fs) (he : fs.inode e = { MInode.zero with iCount := 1 })
    (hw : Way fs dev nr l d n) (hdev : (getSuper dev fs).isSome) (hdev' : dev < 65536)
    (hone : 1 ≤ nr) (hnr : nr < 65536) (hpass : ∀ i ∈ l, Passable fs i) (fuel : Nat)
    (hfuel : l.length < fuel) (h : Recounted fs.refs fs fs') :
    ∃ i fs'', igetScan e fuel dev nr fs' = .ok (i, fs'') ∧ ScanEnded e fs d n i fs'' := by
  induction hw generalizing fuel fs' with
  | @absent dev nr hf =>
    obtain ⟨fuel, rfl⟩ : ∃ k, fuel = k + 1 := ⟨fuel - 1, by omega⟩
    obtain ⟨fs'', heq, hend⟩ := igetScan_fill hs he h hf hdev hdev' hone hnr fuel
    exact ⟨e, fs'', heq, hend⟩
  | @plain dev nr i hf hm =>
    obtain ⟨fuel, rfl⟩ : ∃ k, fuel = k + 1 := ⟨fuel - 1, by omega⟩
    obtain ⟨fs'', heq, hie, hd, hn, -, hcounts⟩ :=
      igetScan_found hs he h hf (getSuper_ne_zero hdev) (.inl hm) fuel
    have hfit := (hpass i (List.mem_singleton_self i)).2
    rw [hm] at heq
    refine ⟨i, fs'', heq, hd, hn, fun j hj => Option.some.inj (hf.symm.trans hj), fun hnone => ?_,
      fun j => ?_⟩
    · cases hf.symm.trans hnone
    · rw [hcounts j]
      by_cases hje : j = e
      · subst hje
        simp [he, hie.symm]
      · simp only [if_neg hje]
        by_cases hji : j = i
        · rw [if_pos hji, if_pos hji, hji, Nat.mod_eq_of_lt (by omega)]
        · rw [if_neg hji, if_neg hji]
  | @lost dev nr i hf hm hsb =>
    have := (hpass i (List.mem_singleton_self i)).1 hm
    rw [hsb] at this
    cases this
  | @cross dev nr d n i l sb hf hm hsb hw ih =>
    obtain ⟨hpi, hpl⟩ := List.forall_mem_cons.mp hpass
    obtain ⟨fuel, rfl⟩ : ∃ k, fuel = k + 1 := ⟨fuel - 1, by omega⟩
    obtain ⟨hsuper, hshort⟩ := mountedOn_mounted hs hsb
    obtain ⟨fs₁, h₁, heq⟩ :=
      igetScan_cross (e := e) hs h hf (getSuper_ne_zero hdev) hm hsb hpi.2 fuel
    rw [heq]
    exact ih hsuper hshort (by decide) (by decide) hpl fuel (by simpa using hfuel) h₁

theorem igetScan_wraps (hs : Served fs) (h : Recounted fs.refs fs fs')
    (hf : findInode fs dev nr = some i) (hm : (fs.inode i).iMount = true)
    (hsb : mountedOn fs i = some sb) (hfit : ¬ (fs.inode i).iCount < 65535) (fuel : Nat)
    (r : InodeIx × FileSystem) : igetScan e (fuel + 1) dev nr fs' ≠ .ok r := by
  have hs' := hs.writtenBack h
  have hfind := (h.find dev nr).trans hf
  obtain ⟨_, hentry, -⟩ := h.entry i
  have hm' : (fs'.inode i).iMount = true := by rw [hentry, hm]
  have hwait : waitOnInode i fs' = .ok () := if_neg (by simp [hs'.unlocked i])
  have hcount : ((fs'.inode i).iCount + 1) % 65536 = 0 := by
    have hc : (fs'.inode i).iCount = (fs.inode i).iCount := congrFun h.refs i
    have hshort := hs.short i
    omega
  generalize hu : fs'.setInode i { fs'.inode i with iCount := ((fs'.inode i).iCount + 1) % 65536 } =
    u
  have hui : u.inode i = { fs'.inode i with iCount := 0 } := by rw [← hu, setInode_inode, hcount]
  have hput : iput i u = .error .freeFreeInode := by
    have hlock : (u.inode i).iLock = false := by rw [hui]; exact hs'.unlocked i
    have hzero : (u.inode i).iCount = 0 := by rw [hui]
    simp only [iput, waitOnInode, hlock, Bool.false_eq_true, if_false]
    change (if _ then _ else _) = _
    rw [if_pos hzero]
    rfl
  have hsb' : ((List.finRange NR_SUPER).map u.super).find? (fun s => s.sImount = .entry i) =
      some sb := by
    have hsuper : u.super = fs.super := by rw [← hu]; exact h.super
    rw [← hsb, mountedOn, hsuper]
  have humount : (u.inode i).iMount = true := by rw [hui]; exact hm'
  simp only [igetScan, hfind, hwait, hu, humount, if_true, hsb', hput]
  exact fun hr => by cases hr

/-- Where one cannot be passed, the search panics, or hands out the spare entry or one without
a count. -/
theorem igetScan_wrong (hs : Served fs) (he : fs.inode e = { MInode.zero with iCount := 1 })
    (hw : Way fs dev nr l d n) (hdev : dev ≠ 0) (hpass : ¬ ∀ i ∈ l, Passable fs i) (fuel : Nat)
    (h : Recounted fs.refs fs fs') {r : InodeIx × FileSystem}
    (hr : igetScan e fuel dev nr fs' = .ok r) :
    (r.2.inode r.1).iDev = 0 ∨ (r.2.inode r.1).iCount = 0 := by
  induction hw generalizing fuel fs' with
  | absent => exact (hpass (by simp)).elim
  | @plain dev nr i hf hm =>
    cases fuel with
    | zero => cases hr
    | succ fuel =>
      obtain ⟨fs'', heq, hie, -, -, -, hcounts⟩ := igetScan_found hs he h hf hdev (.inl hm) fuel
      rw [hm] at heq
      obtain rfl := Except.ok.inj (heq.symm.trans hr)
      have hfit : ¬ (fs.inode i).iCount < 65535 := fun hfit => hpass fun j hj => by
        obtain rfl := List.mem_singleton.mp hj
        exact ⟨fun h => absurd (hm.symm.trans h) Bool.false_ne_true, hfit⟩
      have hshort := hs.short i
      right
      change (fs''.inode i).iCount = 0
      rw [hcounts i, if_neg hie, if_pos rfl]
      omega
  | @lost dev nr i hf hm hsb =>
    cases fuel with
    | zero => cases hr
    | succ fuel =>
      obtain ⟨fs'', heq, hie, -, -, he'', -⟩ := igetScan_found hs he h hf hdev (.inr hsb) fuel
      rw [hm] at heq
      obtain rfl := Except.ok.inj (heq.symm.trans hr)
      exact .inl he''
  | @cross dev nr d n i l sb hf hm hsb hw ih =>
    cases fuel with
    | zero => cases hr
    | succ fuel =>
      by_cases hfit : (fs.inode i).iCount < 65535
      · obtain ⟨fs₁, h₁, heq⟩ := igetScan_cross (e := e) hs h hf hdev hm hsb hfit fuel
        refine ih (getSuper_ne_zero (mountedOn_mounted hs hsb).1) (fun hall => hpass ?_) fuel
          h₁ (heq ▸ hr)
        exact List.forall_mem_cons.mpr ⟨⟨fun _ => by rw [hsb]; rfl, hfit⟩, hall⟩
      · exact absurd hr (igetScan_wraps hs h hf hm hsb hfit fuel r)

/-- `iget` gets the inode where the way ends, exactly when every entry of the way can be passed. -/
theorem iget_right_iff (hs : Served fs) (hfree : ∃ i, (fs.inode i).iCount = 0)
    (hw : Way fs dev nr l d n) (hdev : (getSuper dev fs).isSome) (hdev' : dev < 65536)
    (hone : 1 ≤ nr) (hnr : nr < 65536) :
    IgetRight fs dev nr d n ↔ ∀ i ∈ l, Passable fs i := by
  have hne := getSuper_ne_zero hdev
  obtain ⟨e, fs₁, hempty, ha⟩ := hs.getEmptyInode hfree
  have hs₁ := hs.apart ha
  obtain ⟨l', hw', hlen, hd, hall⟩ := hw.apart hs ha hne
  have higet : ∀ r, iget dev nr fs = .ok r ↔
      igetScan e (NR_SUPER + 2) dev nr fs₁ = .ok r := fun r => by
    rw [iget, if_neg hne, hempty]
    rfl
  have hcount : ∀ j, j ≠ e → (fs₁.inode j).iCount = (fs.inode j).iCount := fun j hje => by
    obtain ⟨_, hj, -⟩ := ha.others j hje
    rw [hj]
  have hblank : (fs₁.inode e).iCount = 1 := by rw [ha.blank]
  constructor
  · rintro ⟨i, fs', hok, hdi, _, _, hi, _⟩
    by_contra hpass
    have hwrong := igetScan_wrong hs₁ ha.blank hw' hne (fun h => hpass (hall.mp h)) _ (.refl fs₁)
      ((higet _).mp hok)
    cases hwrong with
    | inl h => exact hd (hdi.symm.trans h)
    | inr h => exact absurd (hi.symm.trans h) (Nat.succ_ne_zero _)
  · intro hpass
    have hsuper₁ : (getSuper dev fs₁).isSome := by
      simp only [getSuper, ha.super]
      exact hdev
    have hfuel : l'.length < NR_SUPER + 2 := Nat.lt_succ_of_le (hlen.trans hw.length_le)
    obtain ⟨i, fs', hscan, hend⟩ :=
      igetScan_ended hs₁ ha.blank hw' hsuper₁ hdev' hone hnr (hall.mpr hpass) _ hfuel
      (.refl fs₁)
    have hfind := (ha.find hs hd : findInode fs₁ d n = _)
    refine ⟨i, fs', (higet _).mpr hscan, hend.dev, hend.num, fun j hj => ?_, ?_, fun hnone => ?_,
      fun j hji => ?_⟩
    · by_cases hje : j = e
      · subst hje
        rw [hj, if_pos rfl] at hfind
        exact hend.spare hfind
      · rw [hj, if_neg (by simpa using hje)] at hfind
        exact hend.found j hfind
    · have h := hend.counts i
      by_cases hie : i = e
      · subst hie
        rw [hblank] at h
        rw [ha.free]
        exact Nat.add_right_cancel h
      · rw [if_neg hie, hcount i hie, if_pos rfl] at h
        exact h
    · rw [hnone, if_neg (by simp)] at hfind
      have hie := hend.spare hfind
      subst hie
      have h := hend.counts i
      rw [hblank] at h
      exact Nat.add_right_cancel h
    · have h := hend.counts j
      by_cases hje : j = e
      · subst hje
        rw [hblank, if_pos rfl, if_neg hji] at h
        rw [ha.free]
        exact Nat.add_right_cancel h
      · rw [if_neg hje, if_neg hji, hcount j hje] at h
        exact h

/-- Entry 3 holds inode 5 of device 1 as a mount point; device 2 is mounted on `p`. -/
def mountTable (p : InodePtr) : FileSystem :=
  { bigState DInode.zero with
    inode := fun i => if i = 3 then ⟨DInode.zero, 1, 5, 1, false, false, false, true⟩ else .zero
    super := fun k => { (bigState DInode.zero).super k with
      sDev := if k = 0 then 1 else if k = 1 then 2 else 0
      sImount := if k = 1 then p else .null } }

theorem served_mountTable (p : InodePtr) : Served (mountTable p) := by
  have hclean : ∀ i, ((mountTable p).inode i).iDirt = false := by
    simp only [mountTable]
    decide
  refine ⟨by simp only [mountTable]; decide,
    by simp only [mountTable]; decide, ?_, by simp only [mountTable]; decide,
    fun i hi => ?_, fun k i hk => ?_, fun _ _ _ => rfl, fun _ _ => Nat.zero_lt_succ _⟩
  · simp only [mountTable]
    decide
  · rw [hclean i] at hi
    cases hi
  · have hk1 : k = 1 := by
      by_contra hne
      simp [mountTable, hne] at hk
    subst hk1
    exact ⟨rfl, show 2 < 65536 by decide⟩

/-- No file system is mounted on the mount point: the spare entry is handed out, without a
count, and entry 3 keeps one too many. -/
theorem iget_lost_mount :
    (iget 1 5 (mountTable .null)).toOption.map
      (fun r => (r.1, (r.2.inode r.1).iDev, (r.2.inode r.1).iCount,
      (r.2.inode 3).iCount)) = some (1, 0, 0, 2) ∧
    Way (mountTable .null) 1 5 [3] 1 5 ∧ ¬ IgetRight (mountTable .null) 1 5 1 5 := by
  have hrun : (iget 1 5 (mountTable .null)).toOption.map (fun r => (r.2.inode r.1).iDev) =
    some 0 := by decide +kernel
  refine ⟨by decide +kernel, .lost (by decide +kernel) rfl (by decide +kernel),
    fun ⟨i, fs', hok, hd, _⟩ => ?_⟩
  rw [hok] at hrun
  have hzero : (fs'.inode i).iDev = 0 := Option.some.inj hrun
  rw [hd] at hzero
  cases hzero

theorem iget_mounted_root : IgetRight (mountTable (.entry 3)) 1 5 2 1 := by
  have hway : Way (mountTable (.entry 3)) 1 5 [3] 2 1 :=
    .cross (by decide +kernel) rfl (rfl : mountedOn _ 3 = some ((mountTable (.entry 3)).super 1))
      (.absent (by decide +kernel))
  refine (iget_right_iff (served_mountTable _) ⟨0, rfl⟩ hway rfl (by decide) (by decide)
    (by decide)).mpr fun i hi => ?_
  obtain rfl := List.mem_singleton.mp hi
  exact ⟨fun _ => rfl, by decide⟩

end Hios.Fs
