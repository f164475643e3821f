import Hios.Fs.Coherence
import Mathlib.Logic.Function.Iterate

/-! `iput`, `get_empty_inode` and `iget` over a coherent table: what they do to the
references, and that every inode is seen as before. -/
namespace Hios.Fs
open Hios.Outcome
variable {fs fs' fs'' : FileSystem} {dev nr block : Nat} {i j : InodeIx} {sb : SuperBlock}
  {m : MInode}

theorem Coherent.setInode (hc : Coherent fs) {count : Nat} {dirt pipe : Bool}
    (hm : m = { fs.inode i with iCount := count, iDirt := dirt, iPipe := pipe })
    (hp : pipe = true → (fs.inode i).iPipe = true)
    (hd : dirt ≠ (fs.inode i).iDirt → dirt = false ∧ (fs.inode i).iDev = 0) :
    Coherent (fs.setInode i m) ∧ Kept fs (fs.setInode i m) ∧ SameInodes fs (fs.setInode i m) := by
  have hs : SameInodes fs (fs.setInode i m) := sameInodes_setInode rfl hm hp
  have hk : Kept fs (fs.setInode i m) := by
    refine ⟨rfl, .refl fs, fun dev nr _ => ?_, fun _ _ _ => rfl, fun _ _ => id⟩
    simp only [inodeAt, hs.find]
    cases findInode fs dev nr with
    | none => rfl
    | some j =>
      obtain ⟨_, _, _, hj, -⟩ := hs j
      simp only [hj]
  have hdirt : ∀ j, ((fs.setInode i m).inode j).iDirt = (fs.inode j).iDirt ∨
      ((fs.setInode i m).inode j).iDirt = false ∧ (fs.inode j).iDev = 0 := by
    intro j
    by_cases hj : j = i
    · subst hj
      rw [setInode_inode, hm]
      by_cases he : dirt = (fs.inode j).iDirt
      · exact .inl he
      · exact .inr (hd he)
    · exact .inl (congrArg MInode.iDirt (Function.update_of_ne hj ..))
  refine ⟨hc.of_sameInodes hk hs (fun j hdj hdj' => ?_) (fun j _ hdj => ?_) hc.dirty, hk, hs⟩
  · cases hdirt j with
    | inl h => exact hc.clean j hdj (h ▸ hdj')
    | inr h => exact absurd h.2 hdj
  · cases hdirt j with
    | inl h => exact h ▸ hdj
    | inr h => exact absurd hdj (by simp [h.1])

structure Counted (f : Nat → Nat) (i : InodeIx) (fs fs' : FileSystem) : Prop where
  coherent : Coherent fs'
  kept : Kept fs fs'
  same : SameInodes fs fs'
  refs : CountsTo f i fs fs'

theorem WrittenBack.counted {f : Nat → Nat} (h : WrittenBack fs fs') (h' : Counted f i fs' fs'') :
    Counted f i fs fs'' :=
  ⟨h'.coherent, h.kept.trans h'.kept, h.same.trans h'.same, fun j => by rw [h'.refs j, h.refs j]⟩

theorem Coherent.setCount (hc : Coherent fs) {f : Nat → Nat} {count : Nat}
    (hcount : count = f (fs.inode i).iCount) :
    Counted f i fs (fs.setInode i { fs.inode i with iCount := count }) := by
  obtain ⟨hc', hk, hs⟩ := hc.setInode (m := { fs.inode i with iCount := count }) rfl id fun h =>
    absurd rfl h
  exact ⟨hc', hk, hs, countsTo_setInode rfl hcount⟩

theorem iputRepeat_clean (n : Nat) (hlink : 1 < (fs.inode i).iCount ∨ (fs.inode i).d.iNlinks ≠ 0)
    (hd : (fs.inode i).iDirt = false) :
    iputRepeat (n + 1) i fs =
      .ok (fs.setInode i { fs.inode i with iCount := (fs.inode i).iCount - 1 }) := by
  unfold iputRepeat
  by_cases hone : 1 < (fs.inode i).iCount
  · rw [if_pos hone]
  · rw [if_neg hone, if_neg (hlink.resolve_left hone), hd]
    rfl

theorem Coherent.iputRepeat (hc : Coherent fs)
    (hlink : 1 < (fs.inode i).iCount ∨ (fs.inode i).d.iNlinks ≠ 0) (hdev : (fs.inode i).iDev ≠ 0) :
    Returns (Counted (· - 1) i fs) (iputRepeat 2 i fs) := by
  by_cases hd : (fs.inode i).iDirt = true
  · unfold Fs.iputRepeat
    split
    · exact hc.setCount rfl
    · rename_i hone
      obtain ⟨fs₁, heq, hc₁, hk₁, hinode, -⟩ := hc.writeInode hdev hd
      have hwb : WrittenBack fs fs₁ :=
        ⟨hc₁, hk₁, sameInodes_setInode hinode rfl id, sameRefs_setInode hinode rfl⟩
      have hi : fs₁.inode i = { fs.inode i with iDirt := false } := by
        rw [hinode, Function.update_self]
      have hclean : Fs.iputRepeat 1 i fs₁ = _ := iputRepeat_clean 0 (hi ▸ hlink) (by rw [hi])
      rw [if_neg (hlink.resolve_left hone), heq]
      change Returns _ (waitOnInode i fs₁ >>= fun _ => Fs.iputRepeat 1 i fs₁)
      rw [waitOnInode, hc₁.unlocked i, hclean]
      exact hwb.counted (hc₁.setCount rfl)
  · rw [iputRepeat_clean 1 hlink (by simpa using hd)]
    exact hc.setCount rfl

theorem Coherent.iput (hc : Coherent fs) (hpos : (fs.inode i).iCount ≠ 0)
    (hlink : 1 < (fs.inode i).iCount ∨ (fs.inode i).iDev = 0 ∨ (fs.inode i).d.iNlinks ≠ 0) :
    Returns (Counted (· - 1) i fs) (iput i fs) := by
  unfold Fs.iput
  rw [waitOnInode, hc.unlocked i]
  change Returns _ (if _ then _ else _)
  rw [if_neg hpos]
  by_cases hpipe : (fs.inode i).iPipe = true
  · have hdev : (fs.inode i).iDev = 0 := by
      by_contra hdev
      rw [hc.notPipe i hdev] at hpipe
      cases hpipe
    rw [if_pos hpipe]
    split
    · exact hc.setCount rfl
    · rename_i hone
      obtain ⟨hc', hk, hs⟩ :=
        hc.setInode (m := { fs.inode i with iCount := 0, iDirt := false, iPipe := false }) rfl
        (fun h => by cases h) fun _ => ⟨rfl, hdev⟩
      exact ⟨hc', hk, hs, countsTo_setInode rfl (by change 0 = _; omega)⟩
  · rw [if_neg hpipe]
    split
    · exact hc.setCount rfl
    · rename_i hdev
      have hlink : 1 < (fs.inode i).iCount ∨ (fs.inode i).d.iNlinks ≠ 0 :=
        hlink.imp_right fun h => h.resolve_left hdev
      split
      · refine (hc.syncDev _).bind fun fs₁ h => ?_
        obtain ⟨_, _, _, hi, -⟩ := h.same i
        have hcount := h.refs i
        rw [waitOnInode, h.coherent.unlocked i]
        change Returns _ (Fs.iputRepeat 2 i fs₁)
        refine (h.coherent.iputRepeat ?_ ?_).mono fun fs₂ h₂ => h.counted h₂
        · rw [hcount, hi]
          exact hlink
        · rw [hi]
          exact hdev
      · exact hc.iputRepeat hlink hdev

theorem Known.dev_ne (h : Known fs dev nr) : dev ≠ 0 := by
  obtain ⟨sb, hsb, -⟩ := h
  intro e
  simp [getSuper, e] at hsb

theorem Coherent.inodeAt_disk (hc : Coherent fs) (hdev : dev ≠ 0)
    (h : ∀ j, (fs.inode j).iDev = dev → (fs.inode j).iNum = nr → (fs.inode j).iDirt = false) :
    inodeAt fs dev nr = diskInode fs dev nr := by
  unfold inodeAt
  cases hf : findInode fs dev nr with
  | none => rfl
  | some j =>
    obtain ⟨hd, hn⟩ := findInode_some hf
    have hclean := hc.clean j (hd ▸ hdev) (h j hd hn)
    rw [hd, hn] at hclean
    exact hclean

structure MayEnter (fs : FileSystem) (i : InodeIx) (m : MInode) : Prop where
  unlocked : m.iLock = false
  notMount : m.iMount = false
  clean : m.iDirt = false
  inode : m.iDev ≠ 0 → m.iPipe = false ∧ Known fs m.iDev m.iNum ∧ m.d = diskInode fs m.iDev m.iNum ∧
    ∀ j, j ≠ i → ¬ ((fs.inode j).iDev = m.iDev ∧ (fs.inode j).iNum = m.iNum)

theorem Coherent.replace (hc : Coherent fs) (hold : (fs.inode i).iDirt = false)
    (hm : MayEnter fs i m)
    (hrest : fs' = { fs with
      reads := fs'.reads, buffer := fs'.buffer, inode := fs'.inode, lastInode := fs'.lastInode })
    (hinode : fs'.inode = Function.update fs.inode i m) (hcounts : SameCounts fs fs')
    (hcontent : ∀ d b, content fs' d b = content fs d b)
    (hcached : ∀ d b, cached fs d b = true → cached fs' d b = true) (hdirty : DirtyHolds fs') :
    Coherent fs' ∧ Kept fs fs' := by
  have hself : fs'.inode i = m := by rw [hinode, Function.update_self]
  have hother : ∀ {j}, j ≠ i → fs'.inode j = fs.inode j := fun hj => by
    rw [hinode, Function.update_of_ne hj]
  have hsuper : ∀ d, getSuper d fs' = getSuper d fs := fun d => by
    rw [hrest]
    rfl
  have hdisk : ∀ d n, diskInode fs' d n = diskInode fs d n := fun d n => by
    unfold diskInode
    simp only [hsuper, hcontent]
  have hknown : ∀ {d n}, Known fs d n → Known fs' d n := by
    rintro d n ⟨sb, hsb, hone, hlast, hn, hd, hr⟩
    refine ⟨sb, (hsuper d).trans hsb, hone, hlast, hn, hd, ?_⟩
    cases hr with
    | inl hr => exact .inl (hcached _ _ hr)
    | inr hr => exact .inr fun k => by rw [hrest]; exact hr k
  have hc' : Coherent fs' := by
    refine ⟨fun j => ?_, fun j => ?_, fun j hj => ?_, fun j k hdev hd hn => ?_, fun j hj => ?_,
      fun j hj hd => ?_, fun j hj => ?_, fun d b => hcounts d b ▸ hc.counts d b, hdirty⟩
    · by_cases hji : j = i
      · rw [hji, hself, hm.unlocked]
      · rw [hother hji, hc.unlocked]
    · by_cases hji : j = i
      · rw [hji, hself, hm.notMount]
      · rw [hother hji, hc.notMount]
    · by_cases hji : j = i
      · rw [hji, hself] at hj ⊢
        exact (hm.inode hj).1
      · rw [hother hji] at hj ⊢
        exact hc.notPipe j hj
    · by_cases hji : j = i
      · by_cases hki : k = i
        · rw [hji, hki]
        · rw [hji, hself] at hdev hd hn
          rw [hother hki] at hd hn
          exact absurd ⟨hd.symm, hn.symm⟩ ((hm.inode hdev).2.2.2 k hki)
      · rw [hother hji] at hdev hd hn
        by_cases hki : k = i
        · rw [hki, hself] at hd hn
          exact absurd ⟨hd, hn⟩ ((hm.inode (hd ▸ hdev)).2.2.2 j hji)
        · rw [hother hki] at hd hn
          exact hc.unique j k hdev hd hn
    · by_cases hji : j = i
      · rw [hji, hself] at hj ⊢
        exact hknown (hm.inode hj).2.1
      · rw [hother hji] at hj ⊢
        exact hknown (hc.known j hj)
    · rw [hdisk]
      by_cases hji : j = i
      · rw [hji, hself] at hj ⊢
        exact (hm.inode hj).2.2.1
      · rw [hother hji] at hj hd ⊢
        exact hc.clean j hj hd
    · by_cases hji : j = i
      · rw [hji, hself, hm.clean]
      · rw [hother hji] at hj ⊢
        exact hc.spare j hj
  refine ⟨hc', ?_, hcounts, fun dev nr hk => ?_, fun d b _ => hcontent d b, hcached⟩
  · rw [hrest]
  · by_cases hj : ∃ j, j ≠ i ∧ (fs.inode j).iDev = dev ∧ (fs.inode j).iNum = nr
    · obtain ⟨j, hji, hd, hn⟩ := hj
      have hdev : (fs.inode j).iDev ≠ 0 := hd ▸ hk.dev_ne
      have hdev' : (fs'.inode j).iDev ≠ 0 := hother hji ▸ hdev
      have h := hc.inodeAt_entry hdev
      have h' := hc'.inodeAt_entry hdev'
      rw [hother hji] at h'
      rw [← hd, ← hn, h, h']
    · have hno : ∀ j, (fs.inode j).iDev = dev → (fs.inode j).iNum = nr → j = i :=
        fun j hd hn => by_contra fun hji => hj ⟨j, hji, hd, hn⟩
      have hno' : ∀ j, (fs'.inode j).iDev = dev → (fs'.inode j).iNum = nr →
          j = i := fun j hd hn => by
        by_contra hji
        rw [hother hji] at hd hn
        exact hji (hno j hd hn)
      rw [hc.inodeAt_disk hk.dev_ne fun j hd hn => hno j hd hn ▸ hold,
        hc'.inodeAt_disk hk.dev_ne fun j hd hn => ?_, hdisk]
      rw [hno' j hd hn, hself, hm.clean]

theorem iterate_add_one (x : InodeIx) (k : Nat) : ((· + 1)^[k] x).val = (x.val + k) % NR_INODE := by
  induction k generalizing x with
  | zero => exact (Nat.mod_eq_of_lt x.isLt).symm
  | succ k ih =>
    have hone : (1 : InodeIx).val = 1 := rfl
    rw [Function.iterate_succ_apply, ih, Fin.val_add, hone]
    simp only [NR_INODE]
    omega

theorem iterate_covers (x j : InodeIx) : ∃ k < NR_INODE, (· + 1)^[k] x = j := by
  refine ⟨(j.val + NR_INODE - x.val) % NR_INODE, Nat.mod_lt _ (by decide), Fin.ext ?_⟩
  rw [iterate_add_one]
  have hx := x.isLt
  have hj := j.isLt
  simp only [NR_INODE] at hx hj ⊢
  omega

/-- What the search for a free entry finds is free, and where it finds none it has
passed only entries in use. -/
theorem scanInodes_spec (fs : FileSystem) (n : Nat) (last : InodeIx) (found : Option InodeIx)
    (hfound : ∀ i, found = some i → (fs.inode i).iCount = 0) :
    match (scanInodes fs n last found).2 with
    | some i => (fs.inode i).iCount = 0
    | none => found = none ∧ ∀ k < n, (fs.inode ((· + 1)^[k] (last + 1))).iCount ≠ 0 := by
  induction n generalizing last found with
  | zero =>
    unfold scanInodes
    cases found with
    | none => exact ⟨rfl, fun k hk => absurd hk (Nat.not_lt_zero k)⟩
    | some i => exact hfound i rfl
  | succ n ih =>
    simp only [scanInodes]
    by_cases hcount : (fs.inode (last + 1)).iCount = 0
    · rw [if_pos hcount]
      by_cases hd : (fs.inode (last + 1)).iDirt = false ∧ (fs.inode (last + 1)).iLock = false
      · rw [if_pos hd]
        exact hcount
      · rw [if_neg hd]
        have h := ih (last + 1) (some (last + 1)) fun i hi => Option.some.inj hi ▸ hcount
        cases hres : (scanInodes fs n (last + 1) (some (last + 1))).2 with
        | some i =>
          rw [hres] at h
          exact h
        | none =>
          rw [hres] at h
          cases h.1
    · rw [if_neg hcount]
      have h := ih (last + 1) found hfound
      cases hres : (scanInodes fs n (last + 1) found).2 with
      | some i =>
        rw [hres] at h
        exact h
      | none =>
        rw [hres] at h
        refine ⟨h.1, fun k hk => ?_⟩
        cases k with
        | zero => exact hcount
        | succ k => exact h.2 k (by omega)

theorem Coherent.getEmptyInode (hc : Coherent fs) (hfree : ∃ i, (fs.inode i).iCount = 0) :
    ∃ i fs', getEmptyInode fs = .ok (i, fs') ∧ (fs.inode i).iCount = 0 ∧ Coherent fs' ∧
    Kept fs fs' ∧
      ∀ j, fs'.inode j = if j = i then { MInode.zero with iCount := 1 } else fs.inode j := by
  have hscan := scanInodes_spec fs NR_INODE fs.lastInode none fun i hi => by cases hi
  unfold Fs.getEmptyInode
  generalize scanInodes fs NR_INODE fs.lastInode none = r at hscan ⊢
  obtain ⟨last, found⟩ := r
  cases found with
  | none =>
    obtain ⟨i, hi⟩ := hfree
    obtain ⟨k, hk, hkj⟩ := iterate_covers (fs.lastInode + 1) i
    exact absurd hi (hkj ▸ hscan.2 k hk)
  | some i =>
    have hc₀ : Coherent { fs with lastInode := last } :=
      ⟨hc.unlocked, hc.notMount, hc.notPipe, hc.unique, hc.known, hc.clean, hc.spare,
        hc.counts, hc.dirty⟩
    have hk₀ : Kept fs { fs with lastInode := last } :=
      ⟨rfl, .refl fs, fun _ _ _ => rfl, fun _ _ _ => rfl, fun _ _ => id⟩
    -- the entry is clean when it is cleared
    have hclean : ∃ fs₁,
      (∀ k : FileSystem → Except Panic (InodeIx × FileSystem), (if (fs.inode i).iDirt = true then
        Fs.writeInode i { fs with lastInode := last } >>= k
          else pure { fs with lastInode := last } >>= k) = k fs₁) ∧
        Coherent fs₁ ∧ Kept fs fs₁ ∧ (fs₁.inode i).iDirt = false ∧
        ∀ j, j ≠ i → fs₁.inode j = fs.inode j := by
      by_cases hd : (fs.inode i).iDirt = true
      · have hdev : (fs.inode i).iDev ≠ 0 := by
          intro e
          rw [hc.spare i e] at hd
          cases hd
        obtain ⟨fs₁, heq, hc₁, hk₁, hinode, -⟩ := hc₀.writeInode (i := i) hdev hd
        refine ⟨fs₁, fun k => by rw [if_pos hd, heq]; rfl, hc₁, hk₀.trans hk₁,
          by rw [hinode, Function.update_self], fun j hj => ?_⟩
        rw [hinode, Function.update_of_ne hj]
      · exact ⟨_, fun k => if_neg hd, hc₀, hk₀, by simpa using hd, fun j _ => rfl⟩
    obtain ⟨fs₁, heq, hc₁, hk₁, hd₁, hother⟩ := hclean
    have hm : MayEnter fs₁ i { MInode.zero with iCount := 1 } :=
      ⟨rfl, rfl, rfl, fun h => absurd rfl h⟩
    have hrep : Coherent (fs₁.setInode i { MInode.zero with iCount := 1 }) ∧
        Kept fs₁ (fs₁.setInode i { MInode.zero with iCount := 1 }) :=
      hc₁.replace hd₁ hm rfl rfl (.refl fs₁) (fun _ _ => rfl) (fun _ _ => id) hc₁.dirty
    refine ⟨i, fs₁.setInode i { MInode.zero with iCount := 1 }, ?_, hscan, hrep.1, hk₁.trans hrep.2,
      fun j => ?_⟩
    · have hwait : waitOnInode i { fs with lastInode := last } = .ok () :=
        if_neg (by simp [hc.unlocked i])
      refine bind_eq_ok.mpr ⟨(), hwait, (heq _).trans ?_⟩
      change (if (fs₁.inode i).iDirt = true then _ else _) = _
      rw [hd₁]
      rfl
    · by_cases hj : j = i
      · rw [hj, setInode_inode, if_pos rfl]
      · rw [if_neg hj, ← hother j hj]
        exact Function.update_of_ne hj ..

def InUseKept (fs fs' : FileSystem) : Prop :=
  ∀ j, (fs.inode j).iCount ≠ 0 → (fs'.inode j).iDev = (fs.inode j).iDev ∧
    (fs'.inode j).iNum = (fs.inode j).iNum ∧
    (fs'.inode j).d = (fs.inode j).d

theorem SameInodes.inUseKept (h : SameInodes fs fs') : InUseKept fs fs' := by
  intro j _
  obtain ⟨_, _, _, hj, -⟩ := h j
  rw [hj]
  exact ⟨rfl, rfl, rfl⟩

/-- What `iget` hands out: entry `i` holds the inode and is counted once more. -/
structure Got (dev nr : Nat) (i : InodeIx) (fs fs' : FileSystem) : Prop where
  coherent : Coherent fs'
  kept : Kept fs fs'
  refs : CountsTo (· + 1) i fs fs'
  inUse : InUseKept fs fs'
  dev : (fs'.inode i).iDev = dev
  num : (fs'.inode i).iNum = nr

/-- What the search of `iget` leaves: the inode is in entry `i`, and the reference of the spare
entry `e` is now one of `i`. -/
structure Scanned (dev nr : Nat) (e i : InodeIx) (fs fs' : FileSystem) : Prop where
  coherent : Coherent fs'
  kept : Kept fs fs'
  refs : (∀ j, (fs.inode j).iCount < 65535) → ∀ j,
    (fs'.inode j).iCount + (if j = e then 1 else 0) =
      (fs.inode j).iCount + if j = i then 1 else 0
  same : ∀ j, j ≠ e → (fs'.inode j).iDev = (fs.inode j).iDev ∧
    (fs'.inode j).iNum = (fs.inode j).iNum ∧ (fs'.inode j).d = (fs.inode j).d
  dev : (fs'.inode i).iDev = dev
  num : (fs'.inode i).iNum = nr

section Scan
variable {e : InodeIx}

theorem igetScan_cached (n : Nat) (hc : Coherent fs) (hdev : dev ≠ 0)
    (he : fs.inode e = { MInode.zero with iCount := 1 }) {j : InodeIx}
    (hf : findInode fs dev nr = some j) :
    ∃ fs', igetScan e (n + 1) dev nr fs = .ok (j, fs') ∧ Scanned dev nr e j fs fs' := by
  unfold igetScan
  rw [hf]
  obtain ⟨hd, hn⟩ := findInode_some hf
  have hje : j ≠ e := by
    intro h
    rw [h, he] at hd
    exact hdev hd.symm
  have h₁ : Counted (fun count => (count + 1) % 65536) j fs
      (fs.setInode j { fs.inode j with iCount := ((fs.inode j).iCount + 1) % 65536 }) :=
        hc.setCount rfl
  generalize hfs₁ : fs.setInode j
    { fs.inode j with iCount := ((fs.inode j).iCount + 1) % 65536 } = fs₁ at h₁
  have hee : fs₁.inode e = { MInode.zero with iCount := 1 } := by
    rw [← hfs₁, ← he]
    exact Function.update_of_ne hje.symm ..
  obtain ⟨fs₂, heq, h₂⟩ :=
    (h₁.coherent.iput (i := e) (by rw [hee]; decide)
      (by rw [hee]; exact .inr (.inl rfl))).exists_ok
  have hsame := h₁.same.trans h₂.same
  refine ⟨fs₂, ?_, h₂.coherent, h₁.kept.trans h₂.kept, fun hfit k => ?_, fun k _ => ?_, ?_, ?_⟩
  · refine bind_eq_ok.mpr ⟨(), if_neg (by simp [hc.unlocked j]), ?_⟩
    simp only [hfs₁, h₁.coherent.notMount j, Bool.false_eq_true, if_false]
    exact bind_eq_ok.mpr ⟨fs₂, heq, rfl⟩
  · rw [h₂.refs k, h₁.refs k]
    by_cases hke : k = e
    · subst hke
      simp [he, hje.symm]
    · simp only [if_neg hke]
      by_cases hkj : k = j
      · have hlt := hfit k
        simp only [if_pos hkj]
        omega
      · simp [hkj]
  · obtain ⟨_, _, _, hk, -⟩ := hsame k
    rw [hk]
    exact ⟨rfl, rfl, rfl⟩
  · obtain ⟨_, _, _, hj, -⟩ := hsame j
    rw [hj, hd]
  · obtain ⟨_, _, _, hj, -⟩ := hsame j
    rw [hj, hn]

theorem igetScan_read (n : Nat) (hc : Coherent fs) (hk : Known fs dev nr)
    (he : fs.inode e = { MInode.zero with iCount := 1 }) (hf : findInode fs dev nr = none) :
    ∃ fs', igetScan e (n + 1) dev nr fs = .ok (e, fs') ∧ Scanned dev nr e e fs fs' := by
  unfold igetScan
  rw [hf]
  obtain ⟨sb, hsb, hone, hlast, hnr, hdv, hr⟩ := hk
  have hm : ({ fs.inode e with iDev := dev % 65536, iNum := nr % 65536 } : MInode) =
      { MInode.zero with iCount := 1, iDev := dev, iNum := nr } := by
    rw [he, Nat.mod_eq_of_lt hnr, Nat.mod_eq_of_lt hdv]
  generalize hfs₁ : fs.setInode e { MInode.zero with iCount := 1, iDev := dev, iNum := nr } = fs₁
  have hie : fs₁.inode e = { MInode.zero with iCount := 1, iDev := dev, iNum := nr } := by
    rw [← hfs₁, setInode_inode]
  have hsb₁ : getSuper (fs₁.inode e).iDev fs₁ = some sb := by
    rw [hie, ← hfs₁]
    exact hsb
  have hr₁ : Readable fs₁ (fs₁.inode e).iDev (inodeBlock sb (fs₁.inode e).iNum) := by
    rw [hie, ← hfs₁]
    exact hr
  have hcounts₁ : ∀ d b, bufferCount fs₁ d b < 255 := by
    rw [← hfs₁]
    exact hc.counts
  obtain ⟨fs₂, hstill, heq⟩ :=
    readInode_eq hsb₁ (by rw [hie]; exact hone) hr₁ (by rw [hie]; rfl) hcounts₁
  have hdisk : diskInode fs₁ dev nr = diskInode fs dev nr := by
    rw [← hfs₁]
    rfl
  simp only [hie, hdisk] at heq
  generalize hfs₃ : fs₂.setInode e ⟨diskInode fs dev nr, dev, nr, 1, false, false, false, false⟩ =
    fs₃ at heq
  have hinode : fs₃.inode = Function.update fs.inode e ⟨diskInode fs dev nr, dev, nr, 1, false,
      false, false, false⟩ := by
    rw [← hfs₃]
    change Function.update fs₂.inode e _ = _
    rw [hstill.only.inode, ← hfs₁]
    exact Function.update_idem ..
  have hmay : MayEnter fs e ⟨diskInode fs dev nr, dev, nr, 1, false, false, false, false⟩ :=
    ⟨rfl, rfl, rfl, fun _ =>
      ⟨rfl, ⟨sb, hsb, hone, hlast, hnr, hdv, hr⟩, rfl, fun j _ => findInode_none.mp hf j⟩⟩
  have hrep : Coherent fs₃ ∧ Kept fs fs₃ := by
    refine hc.replace (by rw [he]; rfl) hmay ?_ hinode ?_ ?_ ?_ ?_
    · rw [← hfs₃, hstill.only, ← hfs₁]
      rfl
    · rw [← hfs₃]
      exact fun d b => (hstill.counts d b).trans (by rw [← hfs₁]; rfl)
    · rw [← hfs₃]
      exact fun d b => (hstill.content d b).trans (by rw [← hfs₁]; rfl)
    · rw [← hfs₃]
      exact fun d b h => hstill.cached d b (by rw [← hfs₁]; exact h)
    · rw [← hfs₃]
      exact hstill.dirty (by rw [← hfs₁]; exact hc.dirty)
  refine ⟨fs₃, ?_, hrep.1, hrep.2, fun _ k => ?_, fun k hke => ?_, ?_, ?_⟩
  · dsimp only
    rw [hm, hfs₁]
    exact bind_eq_ok.mpr ⟨fs₃, heq.trans (congrArg Except.ok hfs₃), rfl⟩
  · rw [hinode]
    by_cases hke : k = e
    · rw [hke, Function.update_self, he]
    · rw [Function.update_of_ne hke]
  · rw [hinode, Function.update_of_ne hke]
    exact ⟨rfl, rfl, rfl⟩
  · rw [hinode, Function.update_self]
  · rw [hinode, Function.update_self]

theorem igetScan_got (n : Nat) (hc : Coherent fs) (hk : Known fs dev nr)
    (he : fs.inode e = { MInode.zero with iCount := 1 }) :
    ∃ i fs', igetScan e (n + 1) dev nr fs = .ok (i, fs') ∧ Scanned dev nr e i fs fs' := by
  cases hf : findInode fs dev nr with
  | some j => exact ⟨j, igetScan_cached n hc hk.dev_ne he hf⟩
  | none => exact ⟨e, igetScan_read n hc hk he hf⟩

end Scan

theorem Coherent.iget_found (hc : Coherent fs) (hk : Known fs dev nr)
    (hfree : ∃ i, (fs.inode i).iCount = 0) :
    ∃ i fs', iget dev nr fs = .ok (i, fs') ∧ Coherent fs' ∧ Kept fs fs' ∧
      ((∀ j, (fs.inode j).iCount < 65535) → CountsTo (· + 1) i fs fs') ∧ InUseKept fs fs' ∧
      (fs'.inode i).iDev = dev ∧ (fs'.inode i).iNum = nr := by
  obtain ⟨e, fs₁, heq, he, hc₁, hk₁, htab⟩ := hc.getEmptyInode hfree
  have hee : fs₁.inode e = { MInode.zero with iCount := 1 } := (htab e).trans (if_pos rfl)
  obtain ⟨i, fs₂, heq₂, hc₂, hk₂, hcount, hsame, hd, hn⟩ :=
    igetScan_got (NR_SUPER + 1) hc₁ (hk₁.known hk) hee
  refine ⟨i, fs₂, ?_, hc₂, hk₁.trans hk₂, fun hfit j => ?_, fun j hj => ?_, hd, hn⟩
  · rw [Fs.iget, if_neg hk.dev_ne]
    exact bind_eq_ok.mpr ⟨(e, fs₁), heq, heq₂⟩
  · have hfit₁ : ∀ j, (fs₁.inode j).iCount < 65535 := by
      intro j
      rw [htab j]
      split
      · decide
      · exact hfit j
    have h := hcount hfit₁ j
    rw [htab j] at h
    change _ = if j = i then (fs.inode j).iCount + 1 else (fs.inode j).iCount
    by_cases hje : j = e
    · subst hje
      simp only [if_true, MInode.zero] at h
      split
      · rename_i hi
        rw [if_pos hi] at h
        omega
      · rename_i hi
        rw [if_neg hi] at h
        omega
    · rw [if_neg hje] at h
      rw [if_neg hje] at h
      split
      · rename_i hi
        rw [if_pos hi] at h
        omega
      · rename_i hi
        rw [if_neg hi] at h
        omega
  · have hje : j ≠ e := fun h => hj (h ▸ he)
    have h := hsame j hje
    rwa [htab j, if_neg hje] at h

theorem Coherent.iget (hc : Coherent fs) (hk : Known fs dev nr)
    (hfree : ∃ i, (fs.inode i).iCount = 0) (hfit : ∀ i, (fs.inode i).iCount < 65535) :
    ∃ i fs', iget dev nr fs = .ok (i, fs') ∧ Got dev nr i fs fs' := by
  obtain ⟨i, fs₁, heq, hc₁, hk₁, hrefs, huse, hd, hn⟩ := hc.iget_found hk hfree
  exact ⟨i, fs₁, heq, hc₁, hk₁, hrefs hfit, huse, hd, hn⟩

end Hios.Fs
