import Hios.Fs.FileRead
import Hios.Lib.BlockTree

/-! `_bmap` with `create`: the zone tree of an inode grows at the end of one path, and
no other block of the file moves. -/
namespace Hios.Fs
open Hios.Outcome Hios.BlockTree
variable {fs₀ fs fs' fs'' : FileSystem} {i : InodeIx} {dev b n z : Nat} {r : Fin 9}
  {l : List (Fin 512)}

abbrev NewBlock := Nat → FileSystem → Except Panic (Nat × FileSystem)

def Block.setShort (b : Block) (k v : Nat) : Block := fun j =>
  if j.val = 2 * k then BitVec.ofNat 8 v
  else if j.val = 2 * k + 1 then BitVec.ofNat 8 (v / 256) else b j

/-- How `_bmap` comes to `i_zone[k]`. `i_ctime`, which it sets too, is left out. -/
def bmapZone (newBlock : NewBlock) (i : InodeIx) (k : Fin 9) (create : Bool) (fs : FileSystem) :
    Except Panic (Nat × FileSystem) :=
  if create ∧ (fs.inode i).d.iZone k = 0 then do
    let (z, fs) ← newBlock (fs.inode i).iDev fs
    let m := fs.inode i
    let fs := fs.setInode i
      { m with d := m.d.setZone k (z % 65536), iDirt := m.iDirt || z % 65536 ≠ 0 }
    return (z % 65536, fs)
  else .ok ((fs.inode i).d.iZone k, fs)

/-- How `_bmap` comes to entry `k` of an indirect block. -/
def bmapEntry (newBlock : NewBlock) (dev block k : Nat) (create : Bool) (fs : FileSystem) :
    Except Panic (Nat × FileSystem) := do
  match ← bread dev block fs with
  | (none, fs) => return (0, fs)
  | (some data, fs) =>
    if create ∧ data.short k = 0 then
      let (z, fs) ← newBlock dev fs
      let fs ← if z ≠ 0 then modify dev block (Block.setShort · k (z % 65536)) fs else pure fs
      let fs ← brelse dev block fs
      return (z, fs)
    else
      let fs ← brelse dev block fs
      return (data.short k, fs)

def bmapCreate (newBlock : NewBlock) (i : InodeIx) (block : Nat) (create : Bool) (fs : FileSystem) :
    Except Panic (Nat × FileSystem) :=
  if 7 + 512 + 512 * 512 ≤ block then .error .blockTooBig
  else if h : block < 7 then bmapZone newBlock i ⟨block, direct_lt h⟩ create fs
  else if block - 7 < 512 then do
    let (z, fs) ← bmapZone newBlock i 7 create fs
    if z = 0 then return (0, fs) else bmapEntry newBlock (fs.inode i).iDev z (block - 7) create fs
  else do
    let block := block - 7 - 512
    let (z, fs) ← bmapZone newBlock i 8 create fs
    if z = 0 then return (0, fs) else
    let (z, fs) ← bmapEntry newBlock (fs.inode i).iDev z (block / 512) create fs
    if z = 0 then return (0, fs) else bmapEntry newBlock (fs.inode i).iDev z (block % 512) create fs

theorem bmapCreate_false (newBlock : NewBlock) (i : InodeIx) (n : Nat) (fs : FileSystem) :
    bmapCreate newBlock i n false fs = bmap i n fs := by
  have hzone : ∀ k, bmapZone newBlock i k false fs = .ok ((fs.inode i).d.iZone k, fs) := fun k => by
    simp [bmapZone]
  have hentry : ∀ dev b k fs, bmapEntry newBlock dev b k false fs = (do
      match ← bread dev b fs with
      | (none, fs) => return (0, fs)
      | (some data, fs) =>
        let fs ← brelse dev b fs
        return (data.short k, fs)) := fun dev b k fs => by simp [bmapEntry]
  unfold bmapCreate bmap
  simp only [hzone, hentry]
  by_cases hbig : 7 + 512 + 512 * 512 ≤ n
  · rw [if_pos hbig, if_pos hbig]
  · rw [if_neg hbig, if_neg hbig]
    by_cases hdirect : n < 7
    · rw [dif_pos hdirect, dif_pos hdirect]
    · rw [dif_neg hdirect, dif_neg hdirect]
      by_cases hind : n - 7 < 512
      · rw [if_pos hind, if_pos hind]
        rfl
      · rw [if_neg hind, if_neg hind]
        by_cases h8 : (fs.inode i).d.iZone 8 = 0
        · simp only [h8, if_true, bind, Except.bind]
          rfl
        · simp only [h8, if_false, bind, Except.bind]
          have honly := bread_only (fs.inode i).iDev ((fs.inode i).d.iZone 8) fs
          cases hb : bread (fs.inode i).iDev ((fs.inode i).d.iZone 8) fs with
          | error e => rfl
          | ok p =>
            obtain ⟨data, fs₁⟩ := p
            rw [hb] at honly
            cases data with
            | none => rfl
            | some data =>
              have honly' := brelse_only (fs.inode i).iDev ((fs.inode i).d.iZone 8) fs₁
              simp only
              cases hrel : brelse (fs.inode i).iDev ((fs.inode i).d.iZone 8) fs₁ with
              | error e => rfl
              | ok fs₂ =>
                rw [hrel] at honly'
                have hinode : fs₂.inode = fs.inode := (OnlyBuffers.trans honly honly').inode
                dsimp only [pure, Except.pure]
                rewrite [hinode]
                rfl

def zoneTree (i : InodeIx) (fs : FileSystem) : Tree (Fin 9) (Fin 512) Nat :=
  ⟨(fs.inode i).d.iZone, fun z k => (content fs (fs.inode i).iDev z).short k⟩

def levels (k : Fin 9) : Nat := k.val - 6

def zonePath (n : Nat) : Fin 9 × List (Fin 512) :=
  if n < 7 then (Fin.ofNat 9 n, [])
  else if n - 7 < 512 then (7, [Fin.ofNat 512 (n - 7)])
  else (8, [Fin.ofNat 512 ((n - 7 - 512) % 512), Fin.ofNat 512 ((n - 7 - 512) / 512)])

theorem zonePath_direct (h : n < 7) : zonePath n = (Fin.ofNat 9 n, []) := if_pos h

theorem zonePath_ind (h : ¬ n < 7) (h' : n - 7 < 512) :
    zonePath n = (7, [Fin.ofNat 512 (n - 7)]) := by
  rw [zonePath, if_neg h, if_pos h']

theorem zonePath_dind (h : ¬ n < 7) (h' : ¬ n - 7 < 512) : zonePath n =
    (8, [Fin.ofNat 512 ((n - 7 - 512) % 512), Fin.ofNat 512 ((n - 7 - 512) / 512)]) := by
  rw [zonePath, if_neg h, if_neg h']

theorem zonePath_length (n : Nat) : (zonePath n).2.length = levels (zonePath n).1 := by
  by_cases hdirect : n < 7
  · rw [zonePath_direct hdirect]
    simp only [levels, Fin.ofNat, List.length_nil]
    omega
  · by_cases hind : n - 7 < 512
    · rw [zonePath_ind hdirect hind]
      rfl
    · rw [zonePath_dind hdirect hind]
      rfl

def pathBlock (r : Fin 9) : List (Fin 512) → Nat
  | [] => r.val
  | [k] => 7 + k.val
  | k' :: k :: _ => 7 + 512 + 512 * k.val + k'.val

theorem pathBlock_zonePath (hn : n < MAPPABLE) : pathBlock (zonePath n).1 (zonePath n).2 = n := by
  unfold MAPPABLE at hn
  by_cases hdirect : n < 7
  · rw [zonePath_direct hdirect]
    simp only [pathBlock, Fin.ofNat]
    omega
  · by_cases hind : n - 7 < 512
    · rw [zonePath_ind hdirect hind]
      simp only [pathBlock, Fin.ofNat]
      omega
    · rw [zonePath_dind hdirect hind]
      simp only [pathBlock, Fin.ofNat]
      omega

theorem zonePath_inj {m : Nat} (hn : n < MAPPABLE) (hm : m < MAPPABLE)
    (h : zonePath n = zonePath m) : n = m := by
  rw [← pathBlock_zonePath hn, ← pathBlock_zonePath hm, h]

theorem zoneAt_eq_blockAt (i : InodeIx) (fs : FileSystem) (hn : n < MAPPABLE) :
    zoneAt i fs n = blockAt (zoneTree i fs) (zonePath n).1 (zonePath n).2 := by
  unfold MAPPABLE at hn
  by_cases hdirect : n < 7
  · have hk : Fin.ofNat 9 n = ⟨n, by omega⟩ := Fin.ext (Nat.mod_eq_of_lt (by omega))
    rw [zonePath_direct hdirect, hk]
    exact zoneAt_direct ⟨n, by omega⟩ hdirect
  · by_cases hind : n - 7 < 512
    · have hk : (Fin.ofNat 512 (n - 7)).val = n - 7 := Nat.mod_eq_of_lt hind
      rw [zonePath_ind hdirect hind, zoneAt, dif_neg hdirect, if_pos hind]
      simp only [blockAt, zoneTree, hk]
    · have hk : (Fin.ofNat 512 ((n - 7 - 512) / 512)).val = (n - 7 - 512) / 512 :=
        Nat.mod_eq_of_lt (by omega)
      have hk' : (Fin.ofNat 512 ((n - 7 - 512) % 512)).val = (n - 7 - 512) % 512 :=
        Nat.mod_eq_of_lt (by omega)
      rw [zonePath_dind hdirect hind, zoneAt, dif_neg hdirect, if_neg hind]
      simp only [blockAt, zoneTree, hk, hk']
      by_cases h8 : (fs.inode i).d.iZone 8 = 0
      · simp only [h8, if_true]
      · simp only [h8, if_false]

def MarkedDirty (fs : FileSystem) (dev b : Nat) : Prop :=
  ∃ bh, fs.buffer dev b = some bh ∧ bh.dirt = true ∧ bh.uptodate = true

def InTree (i : InodeIx) (fs : FileSystem) (b : Nat) : Prop :=
  b ≠ 0 ∧ ∃ r l, l.length ≤ levels r ∧ blockAt (zoneTree i fs) r l = b

structure SameTree (i : InodeIx) (fs fs' : FileSystem) : Prop where
  inode : fs'.inode = fs.inode
  readable : fs'.readable = fs.readable
  content : ∀ b, InTree i fs b → content fs' (fs.inode i).iDev b = content fs (fs.inode i).iDev b
  cached : ∀ b, InTree i fs b → cached fs (fs.inode i).iDev b = true →
    cached fs' (fs.inode i).iDev b = true
  marked : ∀ b, InTree i fs b → MarkedDirty fs (fs.inode i).iDev b →
    MarkedDirty fs' (fs.inode i).iDev b

/-- What is relied on: `new_block` returns 0 or a zone that is not in the file and reads as zeroes,
and leaves the blocks of the file alone. -/
def Allocates (newBlock : NewBlock) (i : InodeIx) : Prop :=
  ∀ fs, ∃ z fs', newBlock (fs.inode i).iDev fs = .ok (z, fs') ∧ SameTree i fs fs' ∧
    SameCounts fs fs' ∧
    (z ≠ 0 → z < 65536 ∧ Unnamed levels (zoneTree i fs) z ∧ Readable fs' (fs.inode i).iDev z ∧
      content fs' (fs.inode i).iDev z = fun _ => 0)

theorem inTree_of_blockAt (hl : l.length ≤ levels r) (hb : blockAt (zoneTree i fs) r l ≠ 0) :
    InTree i fs (blockAt (zoneTree i fs) r l) := ⟨hb, r, l, hl, rfl⟩

theorem indirectBlock_iff (hb : b ≠ 0) :
    IndirectBlock i fs b ↔ ∃ r l, l.length < levels r ∧ blockAt (zoneTree i fs) r l = b := by
  constructor
  · intro h
    obtain h7 | h8 | ⟨h8, k, hk, hz⟩ := h
    · exact ⟨7, [], by decide, h7.symm⟩
    · exact ⟨8, [], by decide, h8.symm⟩
    · refine ⟨8, [⟨k, hk⟩], show 1 < 2 by decide, ?_⟩
      rw [blockAt_cons (show blockAt (zoneTree i fs) 8 [] ≠ 0 from h8)]
      exact hz.symm
  · rintro ⟨r, l, hl, hz⟩
    cases l with
    | nil =>
      have hr : r = 7 ∨ r = 8 := by
        simp only [levels, List.length_nil] at hl
        omega
      cases hr with
      | inl h7 => exact .inl (h7 ▸ hz.symm)
      | inr h8 => exact .inr (.inl (h8 ▸ hz.symm))
    | cons k up =>
      have hr : r = 8 ∧ up = [] := by
        simp only [levels, List.length_cons] at hl
        refine ⟨by omega, List.length_eq_zero_iff.mp (by omega)⟩
      obtain ⟨rfl, rfl⟩ := hr
      have h8 := blockAt_up (hz ▸ hb)
      rw [blockAt_cons h8] at hz
      exact .inr (.inr ⟨h8, k.val, k.isLt, hz.symm⟩)

theorem SameTree.blockAt_eq (h : SameTree i fs fs') (hl : l.length ≤ levels r) :
    blockAt (zoneTree i fs') r l = blockAt (zoneTree i fs) r l := by
  refine blockAt_congr levels ?_ (fun r' l' hl' hne => ?_) hl
  · simp only [zoneTree, h.inode]
  · funext k
    change (Fs.content fs' (fs'.inode i).iDev _).short k =
      (Fs.content fs (fs.inode i).iDev _).short k
    rw [h.inode, h.content _ (inTree_of_blockAt (Nat.le_of_lt hl') hne)]

theorem SameTree.inTree (h : SameTree i fs fs') : InTree i fs' b ↔ InTree i fs b := by
  refine and_congr_right fun _ => exists_congr fun r => exists_congr fun l =>
    and_congr_right fun hl => ?_
  rw [h.blockAt_eq hl]

theorem SameTree.trans (h : SameTree i fs fs') (h' : SameTree i fs' fs'') : SameTree i fs fs'' := by
  have hdev : (fs'.inode i).iDev = (fs.inode i).iDev := by rw [h.inode]
  refine ⟨h'.inode.trans h.inode, h'.readable.trans h.readable, fun b hb => ?_, fun b hb hc => ?_,
    fun b hb hm => ?_⟩
  · rw [← h.content b hb, ← hdev]
    exact h'.content b (h.inTree.mpr hb)
  · rw [← hdev]
    exact h'.cached b (h.inTree.mpr hb) (hdev ▸ h.cached b hb hc)
  · rw [← hdev]
    exact h'.marked b (h.inTree.mpr hb) (hdev ▸ h.marked b hb hm)

theorem bread_other {d c : Nat} {data : Option Block} (he : ¬ (d = dev ∧ c = b))
    (hb : bread dev b fs = .ok (data, fs')) : fs'.buffer d c = fs.buffer d c := by
  cases ha : available fs dev 0 b with
  | true =>
    obtain ⟨bh, hbread, -⟩ := bread_available ha
    obtain ⟨-, rfl⟩ := Prod.mk.inj (Except.ok.inj (hbread.symm.trans hb))
    rw [setBuffer_buffer, if_neg he]
  | false =>
    rw [bread_unavailable ha] at hb
    split at hb
    · cases hb
    · obtain ⟨-, rfl⟩ := Prod.mk.inj (Except.ok.inj hb)
      rw [setBuffer_buffer, if_neg he]

theorem bread_marked {d c : Nat} {data : Option Block} (hm : MarkedDirty fs d c)
    (hb : bread dev b fs = .ok (data, fs')) : MarkedDirty fs' d c := by
  obtain ⟨bh, hbuf, hd, hup⟩ := hm
  by_cases he : d = dev ∧ c = b
  · obtain ⟨rfl, rfl⟩ := he
    simp only [bread, getblk, hbuf, hup, if_true] at hb
    obtain ⟨-, rfl⟩ := Prod.mk.inj (Except.ok.inj hb)
    exact ⟨{ bh with uptodate := true, count := (bh.count + 1) % 256 },
      by rw [setBuffer_buffer, if_pos ⟨rfl, rfl⟩],
      hd, rfl⟩
  · exact ⟨bh, (bread_other he hb).trans hbuf, hd, hup⟩

theorem brelse_marked {d c : Nat} (hm : MarkedDirty fs d c) (hb : brelse dev b fs = .ok fs') :
    MarkedDirty fs' d c := by
  obtain ⟨bh, hbuf, -, rfl⟩ := brelse_eq_ok.mp hb
  obtain ⟨bh', hbuf', hd, hup⟩ := hm
  by_cases he : d = dev ∧ c = b
  · obtain ⟨rfl, rfl⟩ := he
    obtain rfl := Option.some.inj (hbuf.symm.trans hbuf')
    exact ⟨{ bh with count := bh.count - 1 }, by rw [setBuffer_buffer, if_pos ⟨rfl, rfl⟩], hd, hup⟩
  · exact ⟨bh', by rw [setBuffer_buffer, if_neg he, hbuf'], hd, hup⟩

theorem bread_sameTree (i : InodeIx) (hr : Readable fs dev b) :
    ∃ fs', bread dev b fs = .ok (some (content fs dev b), fs') ∧ SameTree i fs fs' ∧
    Taken dev b fs fs' := by
  obtain ⟨fs', hbread, htaken⟩ := bread_taken (available_of_readable hr)
  refine ⟨fs', hbread,
    ⟨htaken.only.inode, ?_, fun c _ => htaken.content _ c, fun c _ => htaken.cached _ c,
      fun c _ hm => ?_⟩,
    htaken⟩
  · rw [htaken.only]
  · exact bread_marked hm hbread

theorem brelse_sameTree (i : InodeIx) (hcount : bufferCount fs dev b ≠ 0) :
    ∃ fs', brelse dev b fs = .ok fs' ∧ SameTree i fs fs' := by
  cases hbuf : fs.buffer dev b with
  | none => simp [bufferCount, hbuf] at hcount
  | some bh =>
    rw [bufferCount_of_some hbuf] at hcount
    have hrel := brelse_eq_ok.mpr ⟨bh, hbuf, hcount, rfl⟩
    refine ⟨_, hrel, rfl, rfl, fun c _ => ?_, fun c _ hc => ?_, fun c _ hm => brelse_marked hm hrel⟩
    · rw [content_setBuffer]
      split
      · rename_i e
        simp [content, e.1, e.2, hbuf]
      · rfl
    · rw [cached_setBuffer]
      split
      · rename_i e
        simpa [cached, e.1, e.2, hbuf] using hc
      · exact hc

theorem modify_of_cached (f : Block → Block) (hc : cached fs dev b = true) :
    ∃ bh, fs.buffer dev b = some bh ∧ bh.uptodate = true ∧ bh.data = content fs dev b ∧
      modify dev b f fs = .ok
        (fs.setBuffer dev b (some { bh with data := f bh.data, dirt := true })) := by
  cases hbuf : fs.buffer dev b with
  | none => simp [cached, hbuf] at hc
  | some bh =>
    have hup : bh.uptodate = true := by simpa [cached, hbuf] using hc
    exact ⟨bh, rfl, hup, (content_of_uptodate hbuf hup).symm, by simp [modify, hbuf]⟩

/-- The block has the bytes it had, or none but zeroes if it was not in the tree. -/
def AsBefore (i : InodeIx) (fs₀ fs : FileSystem) (b : Nat) : Prop :=
  (InTree i fs₀ b → content fs (fs₀.inode i).iDev b = content fs₀ (fs₀.inode i).iDev b) ∧
    (¬ InTree i fs₀ b → content fs (fs₀.inode i).iDev b = fun _ => 0)

/-- The tree has grown from `fs₀` to `fs`, along the path `L` under `R` only. -/
structure Growth (i : InodeIx) (R : Fin 9) (L : List (Fin 512)) (fs₀ fs : FileSystem) : Prop where
  others : ∀ j, j ≠ i → fs.inode j = fs₀.inode j
  entry : fs.inode i = { fs₀.inode i with d := (fs.inode i).d, iDirt := (fs.inode i).iDirt }
  dirt : (fs.inode i).d = (fs₀.inode i).d ∨ (fs.inode i).iDirt = true
  once : NamedOnce levels (zoneTree i fs)
  readable : ∀ b, b ≠ 0 → IndirectBlock i fs b → Readable fs (fs₀.inode i).iDev b
  only : ∀ r l, l.length ≤ levels r → ¬ (r = R ∧ l <:+ L) →
    blockAt (zoneTree i fs) r l = blockAt (zoneTree i fs₀) r l
  kept : ∀ r l, l.length ≤ levels r → blockAt (zoneTree i fs₀) r l ≠ 0 →
    blockAt (zoneTree i fs) r l = blockAt (zoneTree i fs₀) r l
  changed : ∀ b, b ≠ 0 → IndirectBlock i fs b → AsBefore i fs₀ fs b ∨
    MarkedDirty fs (fs₀.inode i).iDev b

variable {R : Fin 9} {L : List (Fin 512)}

theorem Growth.refl (hone : NamedOnce levels (zoneTree i fs))
    (hread : ∀ b, b ≠ 0 → IndirectBlock i fs b → Readable fs (fs.inode i).iDev b) :
    Growth i R L fs fs := by
  refine ⟨fun _ _ => rfl, rfl, .inl rfl, hone, hread, fun _ _ _ _ => rfl, fun _ _ _ _ => rfl,
    fun b hb hind => .inl ⟨fun _ => rfl, ?_⟩⟩
  intro hno
  obtain ⟨r, l, hl, hz⟩ := (indirectBlock_iff hb).mp hind
  exact absurd ⟨hb, r, l, Nat.le_of_lt hl, hz⟩ hno

theorem Growth.iDev (h : Growth i R L fs₀ fs) : (fs.inode i).iDev = (fs₀.inode i).iDev := by
  rw [h.entry]

theorem SameTree.indirectBlock (h : SameTree i fs fs') (hb : b ≠ 0) :
    IndirectBlock i fs' b ↔ IndirectBlock i fs b := by
  rw [indirectBlock_iff hb, indirectBlock_iff hb]
  refine exists_congr fun r => exists_congr fun l => and_congr_right fun hl => ?_
  rw [h.blockAt_eq (Nat.le_of_lt hl)]

theorem SameTree.unnamed (h : SameTree i fs fs') (hz : Unnamed levels (zoneTree i fs) z) :
    Unnamed levels (zoneTree i fs') z := by
  intro r l hl
  rw [h.blockAt_eq hl]
  exact hz r l hl

theorem inTree_of_indirect (hb : b ≠ 0) (h : IndirectBlock i fs b) : InTree i fs b := by
  obtain ⟨r, l, hl, hz⟩ := (indirectBlock_iff hb).mp h
  exact ⟨hb, r, l, Nat.le_of_lt hl, hz⟩

theorem Growth.same (h : Growth i R L fs₀ fs) (hs : SameTree i fs fs') : Growth i R L fs₀ fs' := by
  have hdev := h.iDev
  refine ⟨fun j hj => ?_, ?_, ?_, ?_, fun b hb hind => ?_, fun r l hl hno => ?_,
    fun r l hl hne => ?_, fun b hb hind => ?_⟩
  · rw [hs.inode]
    exact h.others j hj
  · rw [hs.inode]
    exact h.entry
  · rw [hs.inode]
    exact h.dirt
  · intro r l r' l' hl hl' hne hsame
    rw [hs.blockAt_eq hl] at hne hsame
    rw [hs.blockAt_eq hl'] at hsame
    exact h.once r l r' l' hl hl' hne hsame
  · have hin := (hs.indirectBlock hb).mp hind
    cases h.readable b hb hin with
    | inl hc => exact .inl (hdev ▸ hs.cached b (inTree_of_indirect hb hin) (hdev.symm ▸ hc))
    | inr hr =>
      refine .inr fun n => ?_
      rw [hs.readable]
      exact hr n
  · rw [hs.blockAt_eq hl]
    exact h.only r l hl hno
  · rw [hs.blockAt_eq hl]
    exact h.kept r l hl hne
  · have hin := (hs.indirectBlock hb).mp hind
    have hcontent := hs.content b (inTree_of_indirect hb hin)
    rw [hdev] at hcontent
    refine (h.changed b hb hin).imp (fun hbefore => ?_) fun hm => ?_
    · unfold AsBefore
      rw [hcontent]
      exact hbefore
    · exact hdev ▸ hs.marked b (inTree_of_indirect hb hin) (hdev.symm ▸ hm)

theorem Growth.put (h : Growth i R L fs₀ fs) (hl : l <:+ L) (hL : L.length ≤ levels R)
    (htree : zoneTree i fs' = BlockTree.put (zoneTree i fs) R l z) (hz : z ≠ 0)
    (hnew : Unnamed levels (zoneTree i fs) z)
    (hzero : content fs (fs₀.inode i).iDev z = fun _ => 0)
    (hzread : Readable fs (fs₀.inode i).iDev z) (hend : blockAt (zoneTree i fs) R l = 0)
    (hup : ∀ k up, l = k :: up → blockAt (zoneTree i fs) R up ≠ 0)
    (hothers : ∀ j, j ≠ i → fs'.inode j = fs.inode j)
    (hentry : fs'.inode i = { fs.inode i with d := (fs'.inode i).d, iDirt := (fs'.inode i).iDirt })
    (hdirt : (fs'.inode i).d = (fs.inode i).d ∧ (fs'.inode i).iDirt = (fs.inode i).iDirt ∨
      (fs'.inode i).iDirt = true)
    (hread : ∀ b, Readable fs (fs₀.inode i).iDev b → Readable fs' (fs₀.inode i).iDev b)
    (hblocks : ∀ b, MarkedDirty fs' (fs₀.inode i).iDev b ∨
      content fs' (fs₀.inode i).iDev b = content fs (fs₀.inode i).iDev b ∧
      (MarkedDirty fs (fs₀.inode i).iDev b → MarkedDirty fs' (fs₀.inode i).iDev b)) :
    Growth i R L fs₀ fs' := by
  have hlen : l.length ≤ levels R := Nat.le_trans hl.length_le hL
  have hentries : ∀ k, (zoneTree i fs).entry z k = 0 := by
    intro k
    change (content fs (fs.inode i).iDev z).short k = 0
    rw [h.iDev, hzero]
    rfl
  have hat : ∀ r' l', l'.length ≤ levels r' → blockAt (zoneTree i fs') r' l' =
      if r' = R ∧ l' = l then z else blockAt (zoneTree i fs) r' l' := by
    intro r' l' hl'
    rw [htree]
    exact blockAt_put h.once hnew hz hentries hend hup hlen hl'
  -- an indirect block is the new one or was there
  have hcases : ∀ b, b ≠ 0 → IndirectBlock i fs' b → b = z ∨ IndirectBlock i fs b := by
    intro b hb hind
    obtain ⟨r', l', hl', hb'⟩ := (indirectBlock_iff hb).mp hind
    rw [hat r' l' (Nat.le_of_lt hl')] at hb'
    split at hb'
    · exact .inl hb'.symm
    · exact .inr ((indirectBlock_iff hb).mpr ⟨r', l', hl', hb'⟩)
  have hfresh : ¬ InTree i fs₀ z := by
    rintro ⟨_, r', l', hl', hz'⟩
    exact hnew r' l' hl' ((h.kept r' l' hl' (hz'.symm ▸ hz)).trans hz')
  refine ⟨fun j hj => (hothers j hj).trans (h.others j hj), ?_, ?_, ?_, fun b hb hind => ?_,
    fun r' l' hl' hno => ?_,
    fun r' l' hl' hne => ?_, fun b hb hind => ?_⟩
  · rw [hentry, h.entry]
  · cases hdirt with
    | inl hsame =>
      rw [hsame.1, hsame.2]
      exact h.dirt
    | inr hset => exact .inr hset
  · rw [htree]
    exact namedOnce_put h.once hnew hz hentries hend hup hlen
  · cases hcases b hb hind with
    | inl hbz => exact hread b (hbz ▸ hzread)
    | inr hin => exact hread b (h.readable b hb hin)
  · rw [hat r' l' hl', if_neg fun e : r' = R ∧ l' = l => hno ⟨e.1, e.2 ▸ hl⟩]
    exact h.only r' l' hl' hno
  · have hkept := h.kept r' l' hl' hne
    rw [hat r' l' hl', if_neg ?_, hkept]
    rintro ⟨hr', hl''⟩
    rw [hr', hl'', hend] at hkept
    rw [hr', hl''] at hne
    exact hne hkept.symm
  · cases hblocks b with
    | inl hm => exact .inr hm
    | inr hsame =>
      unfold AsBefore
      rw [hsame.1]
      cases hcases b hb hind with
      | inl hbz =>
        subst hbz
        exact .inl ⟨fun hin => absurd hin hfresh, fun _ => hzero⟩
      | inr hin => exact (h.changed b hb hin).imp_right hsame.2

theorem setZone_zero {d : DInode} {k : Fin 9} (h : d.iZone k = 0) : d.setZone k 0 = d := by
  funext j
  unfold DInode.setZone DInode.put
  split
  · rename_i hj
    simp only [DInode.iZone, DInode.short] at h
    have hbyte : (d j).toNat = 0 := by
      by_cases hlow : j.val = 14 + 2 * k.val
      · have he : j = Fin.castSucc ⟨14 + 2 * k.val, by omega⟩ := Fin.ext hlow
        rw [he]
        omega
      · have he : j = Fin.succ ⟨14 + 2 * k.val, by omega⟩ := Fin.ext (by simp; omega)
        rw [he]
        omega
    refine BitVec.eq_of_toNat_eq ?_
    rw [hbyte, Nat.zero_div]
    rfl
  · rfl

theorem bmapZone_grows {newBlock : NewBlock} (hnb : Allocates newBlock i)
    (h : Growth i R L fs₀ fs) (hL : L.length ≤ levels R) :
    ∃ z fs', bmapZone newBlock i R true fs = .ok (z, fs') ∧ Growth i R L fs₀ fs' ∧
    SameCounts fs fs' ∧
      blockAt (zoneTree i fs') R [] = z := by
  by_cases hzone : (fs.inode i).d.iZone R = 0
  · obtain ⟨z, fs₁, hcall, hs, hcounts, hfresh⟩ := hnb fs
    have h₁ := h.same hs
    have hzone₁ : (fs₁.inode i).d.iZone R = 0 := by rw [hs.inode, hzone]
    rw [bmapZone, if_pos ⟨rfl, hzone⟩, hcall]
    refine ⟨z % 65536, _, rfl, ?_, hcounts, ?_⟩
    · by_cases hz : z = 0
      · subst hz
        refine h₁.same ⟨?_, rfl, fun _ _ => rfl, fun _ _ => id, fun _ _ => id⟩
        simp only [FileSystem.setInode, Nat.zero_mod, setZone_zero hzone₁]
        simp
      · obtain ⟨hlt, hnew, hread, hzero⟩ := hfresh hz
        rw [h.iDev] at hread hzero
        rw [Nat.mod_eq_of_lt hlt]
        refine h₁.put List.nil_suffix hL ?_ hz (hs.unnamed hnew) hzero hread hzone₁
          (fun k up e => absurd e.symm (List.cons_ne_nil k up))
          (fun j hj => Function.update_of_ne hj ..) ?_ (.inr ?_) (fun _ => id) fun b =>
            .inr ⟨rfl, id⟩
        · simp only [zoneTree, BlockTree.put, setInode_inode]
          congr 1
          funext k
          rw [iZone_setZone _ _ _ hlt, Function.update_apply]
        · rw [setInode_inode]
        · simp [setInode_inode, hz]
    · change ((fs₁.setInode i _).inode i).d.iZone R = _
      rw [setInode_inode, iZone_setZone _ _ _ (Nat.mod_lt _ (by decide)), if_pos rfl]
  · rw [bmapZone, if_neg fun hc => hzone hc.2]
    exact ⟨_, fs, rfl, h, .refl fs, rfl⟩

theorem Block.short_setShort (data : Block) {k k' v : Nat} (hk : k < 512) (hk' : k' < 512)
    (hv : v < 65536) :
    (data.setShort k v).short k' = if k' = k then v else data.short k' := by
  have hlow : (Fin.ofNat 1024 (2 * k')).val = 2 * k' := Nat.mod_eq_of_lt (by omega)
  have hhigh : (Fin.ofNat 1024 (2 * k' + 1)).val = 2 * k' + 1 := Nat.mod_eq_of_lt (by omega)
  unfold Block.short Block.setShort
  rw [hlow, hhigh]
  by_cases he : k' = k
  · subst he
    rw [if_pos rfl, if_neg (by omega), if_pos rfl, if_pos rfl]
    simp only [BitVec.toNat_ofNat]
    omega
  · rw [if_neg (by omega), if_neg (by omega), if_neg (by omega), if_neg (by omega), if_neg he]

theorem OneMore.release (i : InodeIx) (h : OneMore dev b fs fs')
    (hcounts : ∀ d c, bufferCount fs d c < 255) :
    ∃ fs'', Fs.brelse dev b fs' = .ok fs'' ∧ SameTree i fs' fs'' ∧ SameCounts fs fs'' := by
  have hself := h dev b
  have hlt := hcounts dev b
  rw [if_pos ⟨rfl, rfl⟩] at hself
  obtain ⟨fs'', hrel, hs⟩ := brelse_sameTree i (show bufferCount fs' dev b ≠ 0 by omega)
  exact ⟨fs'', hrel, hs,
    (h.brelse fun d c => Nat.lt_of_lt_of_le (hcounts d c) (by decide)).of_ok hrel⟩

theorem Growth.store {k : Fin 512} {up : List (Fin 512)} (h : Growth i R L fs₀ fs)
    (hl : k :: up <:+ L) (hL : L.length ≤ levels R) (hup : blockAt (zoneTree i fs) R up = b)
    (hb : b ≠ 0) (hend : blockAt (zoneTree i fs) R (k :: up) = 0)
    (hc : cached fs (fs₀.inode i).iDev b = true) (hz : z ≠ 0) (hlt : z < 65536)
    (hnew : Unnamed levels (zoneTree i fs) z)
    (hzero : content fs (fs₀.inode i).iDev z = fun _ => 0)
    (hzread : Readable fs (fs₀.inode i).iDev z) :
    ∃ fs', modify (fs₀.inode i).iDev b (Block.setShort · k.val z) fs = .ok fs' ∧
    Growth i R L fs₀ fs' ∧ SameCounts fs fs' ∧
      blockAt (zoneTree i fs') R (k :: up) = z := by
  have hdev := h.iDev
  obtain ⟨bh, hbuf, hup₂, hdata, hmodify⟩ := modify_of_cached (Block.setShort · k.val z) hc
  generalize hbh : ({ bh with data := bh.data.setShort k.val z, dirt := true } : Buffer) =
    bh' at hmodify
  have hbh' : bh'.uptodate = true ∧ bh'.dirt = true ∧ bh'.data = bh.data.setShort k.val z ∧
      bh'.count = bh.count := by
    rw [← hbh]
    exact ⟨hup₂, rfl, rfl, rfl⟩
  generalize hfs' : fs.setBuffer (fs₀.inode i).iDev b (some bh') = fs' at hmodify
  have hbuffer : ∀ c, fs'.buffer (fs₀.inode i).iDev c = if c = b then some bh'
      else fs.buffer (fs₀.inode i).iDev c := by
    intro c
    rw [← hfs', setBuffer_buffer]
    simp only [true_and]
  have hinode : fs'.inode = fs.inode := by
    rw [← hfs']
    rfl
  have hcontent : ∀ c, content fs' (fs₀.inode i).iDev c =
      if c = b then (content fs (fs₀.inode i).iDev b).setShort k.val z
        else content fs (fs₀.inode i).iDev c := by
    intro c
    rw [← hfs', content_setBuffer]
    simp only [true_and, hbh'.1, if_true, hbh'.2.2.1, hdata]
  have htree : zoneTree i fs' = BlockTree.put (zoneTree i fs) R (k :: up) z := by
    simp only [BlockTree.put, hup]
    simp only [zoneTree, hinode, hdev]
    congr 1
    funext c k'
    rw [hcontent]
    by_cases hcb : c = b
    · subst hcb
      rw [if_pos rfl, Function.update_self, Block.short_setShort _ k.isLt k'.isLt hlt,
        Function.update_apply]
      simp only [Fin.ext_iff]
    · rw [if_neg hcb, Function.update_of_ne hcb]
  have hup' : ∀ k' up', k :: up = k' :: up' → blockAt (zoneTree i fs) R up' ≠ 0 := by
    intro k' up' he
    rw [← (List.cons.inj he).2, hup]
    exact hb
  have hlen : (k :: up).length ≤ levels R := Nat.le_trans hl.length_le hL
  refine ⟨fs', hmodify, ?_, ?_, ?_⟩
  · refine h.put hl hL htree hz hnew hzero hzread hend hup' (fun j _ => by rw [hinode])
      (by rw [hinode])
      (.inl (by rw [hinode]; exact ⟨rfl, rfl⟩)) (fun c hr => ?_) fun c => ?_
    · cases hr with
      | inr hr =>
        refine .inr fun n => ?_
        rw [← hfs']
        exact hr n
      | inl hcache =>
        refine .inl ?_
        by_cases hcb : c = b
        · simp [cached, hbuffer, hcb, hbh'.1]
        · simpa [cached, hbuffer, hcb] using hcache
    · by_cases hcb : c = b
      · exact .inl ⟨bh', by rw [hbuffer, if_pos hcb], hbh'.2.1, hbh'.1⟩
      · refine .inr ⟨by rw [hcontent, if_neg hcb], fun hm => ?_⟩
        obtain ⟨bc, hbc, hflags⟩ := hm
        exact ⟨bc, by rw [hbuffer, if_neg hcb, hbc], hflags⟩
  · rw [← hfs']
    exact sameCounts_setBuffer hbuf hbh'.2.2.2
  · rw [htree, blockAt_put h.once hnew hz ?_ hend hup' hlen hlen, if_pos ⟨rfl, rfl⟩]
    intro k'
    change (content fs (fs.inode i).iDev z).short k'.val = 0
    rw [hdev, hzero]
    rfl

theorem bmapEntry_grows {newBlock : NewBlock} {k : Fin 512} {up : List (Fin 512)}
    (hnb : Allocates newBlock i) (h : Growth i R L fs₀ fs) (hl : k :: up <:+ L)
    (hL : L.length ≤ levels R) (hup : blockAt (zoneTree i fs) R up = b) (hb : b ≠ 0)
    (hcounts : ∀ d c, bufferCount fs d c < 255) :
    ∃ z fs', bmapEntry newBlock (fs.inode i).iDev b k.val true fs = .ok (z, fs') ∧
    Growth i R L fs₀ fs' ∧
      SameCounts fs fs' ∧ blockAt (zoneTree i fs') R (k :: up) = z := by
  have hlen : (k :: up).length ≤ levels R := Nat.le_trans hl.length_le hL
  have hind : IndirectBlock i fs b := (indirectBlock_iff hb).mpr ⟨R, up, hlen, hup⟩
  have hin := inTree_of_indirect hb hind
  have hdev := h.iDev
  obtain ⟨fs₁, hbread, hs₁, htaken⟩ := bread_sameTree i (hdev.symm ▸ h.readable b hb hind)
  have hentry : blockAt (zoneTree i fs) R (k :: up) =
      (content fs (fs.inode i).iDev b).short k.val := by
    rw [blockAt_cons (hup.symm ▸ hb), hup]
    rfl
  rw [bmapEntry, hbread]
  by_cases hz : (content fs (fs.inode i).iDev b).short k.val = 0
  · obtain ⟨z, fs₂, hcall, hs₂, hcounts₂, hfresh⟩ := hnb fs₁
    have hdev₁ : (fs₁.inode i).iDev = (fs.inode i).iDev := by rw [hs₁.inode]
    rw [hdev₁] at hcall hfresh
    have hs := hs₁.trans hs₂
    have hone := htaken.counts.same hcounts₂
    by_cases hnone : z = 0
    · obtain ⟨fs₃, hrel, hs₃, hcounts₃⟩ := hone.release i hcounts
      refine ⟨0, fs₃, ?_, h.same (hs.trans hs₃), hcounts₃, ?_⟩
      · simp only [bind, Except.bind, hz, and_self, if_true, hcall, hnone, ne_eq, not_true_eq_false,
          if_false, pure,
          Except.pure, hrel]
      · rw [(hs.trans hs₃).blockAt_eq hlen, hentry, hz]
    · obtain ⟨hlt, hnew, hread, hzero⟩ := hfresh hnone
      have hcached₁ : cached fs₁ (fs.inode i).iDev b = true := by
        obtain ⟨bh, hbuf, -, hup₁⟩ := htaken.data
        simp [cached, hbuf, hup₁]
      have hcached₂ := hs₂.cached b (hs₁.inTree.mpr hin)
      rw [hdev₁] at hcached₂
      rw [hdev] at hread hzero hcached₁ hcached₂
      obtain ⟨fs₃, hmodify, h₃, hcounts₃, hat⟩ := (h.same hs).store hl hL
        ((hs.blockAt_eq (Nat.le_of_succ_le hlen)).trans hup) hb
          ((hs.blockAt_eq hlen).trans (hentry.trans hz))
        (hcached₂ hcached₁) hnone hlt (hs₂.unnamed hnew) hzero hread
      rw [← hdev] at hmodify
      obtain ⟨fs₄, hrel, hs₄, hcounts₄⟩ := (hone.same hcounts₃).release i hcounts
      refine ⟨z, fs₄, ?_, h₃.same hs₄, hcounts₄, (hs₄.blockAt_eq hlen).trans hat⟩
      simp only [bind, Except.bind, hz, and_self, if_true, hcall, hnone, ne_eq, not_false_eq_true,
        Nat.mod_eq_of_lt hlt,
        hmodify, hrel]
      rfl
  · obtain ⟨fs₂, hrel, hs₂, hcounts₂⟩ := htaken.counts.release i hcounts
    refine ⟨(content fs (fs.inode i).iDev b).short k.val, fs₂, ?_, h.same (hs₁.trans hs₂),
      hcounts₂, ?_⟩
    · simp only [bind, Except.bind, hz, and_false, if_false, hrel]
      rfl
    · rw [(hs₁.trans hs₂).blockAt_eq hlen, hentry]

theorem bmapCreate_grows {newBlock : NewBlock} (hnb : Allocates newBlock i)
    (hone : NamedOnce levels (zoneTree i fs))
    (hread : ∀ b, b ≠ 0 → IndirectBlock i fs b → Readable fs (fs.inode i).iDev b)
    (hcounts : ∀ d c, bufferCount fs d c < 255) (hn : n < MAPPABLE) :
    ∃ z fs', bmapCreate newBlock i n true fs = .ok (z, fs') ∧
    Growth i (zonePath n).1 (zonePath n).2 fs fs' ∧
      SameCounts fs fs' ∧ zoneAt i fs' n = z := by
  simp only [zoneAt_eq_blockAt _ _ hn]
  unfold MAPPABLE at hn
  rw [bmapCreate, if_neg (Nat.not_le_of_lt hn)]
  have hstart : Growth i (zonePath n).1 (zonePath n).2 fs fs := .refl hone hread
  have hL := Nat.le_of_eq (zonePath_length n)
  by_cases hdirect : n < 7
  · have hk : (⟨n, by omega⟩ : Fin 9) = Fin.ofNat 9 n := Fin.ext (Nat.mod_eq_of_lt (by omega)).symm
    rw [dif_pos hdirect, hk]
    rw [zonePath_direct hdirect] at hstart hL ⊢
    obtain ⟨z, fs₁, hcall, h₁, hcounts₁, hat⟩ := bmapZone_grows hnb hstart hL
    exact ⟨z, fs₁, hcall, h₁, hcounts₁, hat⟩
  · rw [dif_neg hdirect]
    by_cases hind : n - 7 < 512
    · have hk : n - 7 = (Fin.ofNat 512 (n - 7)).val := (Nat.mod_eq_of_lt hind).symm
      rw [if_pos hind]
      rw [zonePath_ind hdirect hind] at hstart hL ⊢
      obtain ⟨z, fs₁, hcall, h₁, hcounts₁, hat⟩ := bmapZone_grows hnb hstart hL
      rw [hcall]
      by_cases hz : z = 0
      · refine ⟨0, fs₁, ?_, h₁, hcounts₁, blockAt_broken (hat.trans hz)⟩
        simp only [bind, Except.bind, hz, if_true]
        rfl
      · obtain ⟨z', fs₂, hentry, h₂, hcounts₂, hat₂⟩ :=
          bmapEntry_grows hnb h₁ (List.suffix_refl _) hL hat hz
          fun d c => by rw [hcounts₁]; exact hcounts d c
        refine ⟨z', fs₂, ?_, h₂, hcounts₁.trans hcounts₂, hat₂⟩
        simp only [bind, Except.bind, hz, if_false]
        rw [← hentry, ← hk]
    · have hk : (n - 7 - 512) / 512 = (Fin.ofNat 512 ((n - 7 - 512) / 512)).val :=
        (Nat.mod_eq_of_lt (by omega)).symm
      have hk' : (n - 7 - 512) % 512 = (Fin.ofNat 512 ((n - 7 - 512) % 512)).val :=
        (Nat.mod_eq_of_lt (by omega)).symm
      rw [if_neg hind]
      rw [zonePath_dind hdirect hind] at hstart hL ⊢
      obtain ⟨z, fs₁, hcall, h₁, hcounts₁, hat⟩ := bmapZone_grows hnb hstart hL
      rw [hcall]
      by_cases hz : z = 0
      · refine ⟨0, fs₁, ?_, h₁, hcounts₁, blockAt_broken (blockAt_broken (hat.trans hz))⟩
        simp only [bind, Except.bind, hz, if_true]
        rfl
      · obtain ⟨z', fs₂, hentry, h₂, hcounts₂, hat₂⟩ :=
          bmapEntry_grows hnb h₁ (List.suffix_cons _ _) hL hat hz
          fun d c => by rw [hcounts₁]; exact hcounts d c
        rw [← hk] at hentry
        simp only [bind, Except.bind, hz, if_false, hentry]
        by_cases hz' : z' = 0
        · refine ⟨0, fs₂, ?_, h₂, hcounts₁.trans hcounts₂, blockAt_broken (hat₂.trans hz')⟩
          rw [if_pos hz']
          rfl
        · obtain ⟨z'', fs₃, hentry', h₃, hcounts₃, hat₃⟩ :=
            bmapEntry_grows hnb h₂ (List.suffix_refl _) hL hat₂ hz'
            fun d c => by rw [hcounts₂, hcounts₁]; exact hcounts d c
          rw [← hk'] at hentry'
          rw [if_neg hz']
          exact ⟨z'', fs₃, hentry', h₃, hcounts₁.trans (hcounts₂.trans hcounts₃), hat₃⟩

theorem bmapEntry_mapped {newBlock : NewBlock} {k : Nat} (hr : Readable fs dev b)
    (hk : (content fs dev b).short k ≠ 0) :
    bmapEntry newBlock dev b k true fs = bmapEntry newBlock dev b k false fs := by
  obtain ⟨fs₁, hbread, -⟩ := bread_taken (available_of_readable hr)
  simp [bmapEntry, hbread, bind, Except.bind, hk]

theorem bmapEntry_reads (newBlock : NewBlock) (k : Nat) (hr : Readable fs dev b)
    (hcount : bufferCount fs dev b < 255) :
    ∃ fs', bmapEntry newBlock dev b k false fs = .ok ((content fs dev b).short k, fs') ∧
    Still fs fs' := by
  obtain ⟨fs₁, hbread, htaken⟩ := bread_taken (available_of_readable hr)
  obtain ⟨fs₂, hrel, hstill⟩ := htaken.brelse hcount
  refine ⟨fs₂, ?_, hstill⟩
  simp [bmapEntry, hbread, bind, Except.bind, hrel, pure, Except.pure]

theorem bmapCreate_mapped {newBlock : NewBlock}
    (hread : ∀ b, b ≠ 0 → IndirectBlock i fs b → Readable fs (fs.inode i).iDev b)
    (hcounts : ∀ d c, bufferCount fs d c < 255) (hn : n < MAPPABLE) (hmapped : zoneAt i fs n ≠ 0) :
    bmapCreate newBlock i n true fs = bmap i n fs := by
  rw [← bmapCreate_false newBlock]
  have hzone : ∀ k create, (fs.inode i).d.iZone k ≠ 0 →
      bmapZone newBlock i k create fs = .ok ((fs.inode i).d.iZone k, fs) := by
    intro k create hk
    simp [bmapZone, hk]
  unfold MAPPABLE at hn
  unfold zoneAt at hmapped
  simp only [bmapCreate, if_neg (Nat.not_le_of_lt hn)]
  by_cases hdirect : n < 7
  · rw [dif_pos hdirect] at hmapped
    rw [dif_pos hdirect, dif_pos hdirect, hzone _ _ hmapped, hzone _ _ hmapped]
  · rw [dif_neg hdirect] at hmapped
    rw [dif_neg hdirect, dif_neg hdirect]
    by_cases hind : n - 7 < 512
    · by_cases h7 : (fs.inode i).d.iZone 7 = 0
      · simp [hind, h7] at hmapped
      · rw [if_pos hind, if_neg h7] at hmapped
        rw [if_pos hind, if_pos hind, hzone _ _ h7, hzone _ _ h7]
        simp only [bind, Except.bind, h7, if_false]
        exact bmapEntry_mapped (hread _ h7 (.inl rfl)) hmapped
    · by_cases h8 : (fs.inode i).d.iZone 8 = 0
      · simp [hind, h8] at hmapped
      · rw [if_neg hind, if_neg h8] at hmapped
        have hk : (n - 7 - 512) / 512 < 512 := by omega
        have hr8 := hread _ h8 (.inr (.inl rfl))
        by_cases he : (content fs (fs.inode i).iDev ((fs.inode i).d.iZone 8)).short
          ((n - 7 - 512) / 512) = 0
        · simp [he] at hmapped
        · rw [if_neg he] at hmapped
          obtain ⟨fs₁, hentry, hstill⟩ :=
            bmapEntry_reads newBlock ((n - 7 - 512) / 512) hr8 (hcounts _ _)
          have hdev : (fs₁.inode i).iDev = (fs.inode i).iDev := by rw [hstill.only.inode]
          rw [if_neg hind, if_neg hind, hzone _ _ h8, hzone _ _ h8]
          simp only [bind, Except.bind, h8, if_false, bmapEntry_mapped hr8 he, hentry, he, hdev]
          refine bmapEntry_mapped (hstill.readable (hread _ he (.inr (.inr ⟨h8, _, hk, rfl⟩)))) ?_
          rw [hstill.content]
          exact hmapped

theorem zonePath_surj (h : l.length = levels r) : ∃ n < MAPPABLE, zonePath n = (r, l) := by
  have hr := r.isLt
  unfold levels at h
  match l with
  | [] =>
    refine ⟨r.val, Nat.lt_trans (show r.val < 7 by simp at h; omega) (by decide), ?_⟩
    rw [zonePath_direct (by simp at h; omega)]
    exact Prod.ext (Fin.ext (Nat.mod_eq_of_lt hr)) rfl
  | [k] =>
    have hk := k.isLt
    have hr7 : r = 7 := Fin.ext (by simp at h; change r.val = 7; omega)
    refine ⟨7 + k.val, by unfold MAPPABLE; omega, ?_⟩
    rw [zonePath_ind (by omega) (by omega), hr7, Nat.add_sub_cancel_left]
    exact Prod.ext rfl (by rw [Fin.ofNat_val_eq_self])
  | [k', k] =>
    have hk := k.isLt
    have hk' := k'.isLt
    have hr8 : r = 8 := Fin.ext (by simp at h; change r.val = 8; omega)
    refine ⟨7 + 512 + 512 * k.val + k'.val, by unfold MAPPABLE; omega, ?_⟩
    have hsub : 7 + 512 + 512 * k.val + k'.val - 7 - 512 = 512 * k.val + k'.val := by omega
    have hdiv : (512 * k.val + k'.val) / 512 = k.val := by omega
    have hmod : (512 * k.val + k'.val) % 512 = k'.val := by omega
    rw [zonePath_dind (by omega) (by omega), hr8, hsub, hdiv, hmod]
    exact Prod.ext rfl (by rw [Fin.ofNat_val_eq_self, Fin.ofNat_val_eq_self])
  | _ :: _ :: _ :: _ =>
    simp at h
    omega

theorem inTree_iff_mem : InTree i fs b ↔ b ∈ zonesOf i fs := by
  rw [mem_zonesOf]
  constructor
  · rintro ⟨hb, r, l, hl, hz⟩
    refine ⟨hb, ?_⟩
    by_cases hfull : l.length = levels r
    · obtain ⟨n, hn, hpath⟩ := zonePath_surj hfull
      refine .inl ⟨n, hn, ?_⟩
      rw [zoneAt_eq_blockAt i fs hn, hpath]
      exact hz
    · exact .inr ((indirectBlock_iff hb).mpr ⟨r, l, Nat.lt_of_le_of_ne hl hfull, hz⟩)
  · rintro ⟨hb, h⟩
    cases h with
    | inl h =>
      obtain ⟨n, hn, hz⟩ := h
      exact ⟨hb, _, _, Nat.le_of_eq (zonePath_length n), (zoneAt_eq_blockAt i fs hn).symm.trans hz⟩
    | inr h => exact inTree_of_indirect hb h

def NoNewDirt (fs fs' : FileSystem) : Prop :=
  ∀ d c bh, fs'.buffer d c = some bh → bh.dirt = true → ∃ old, fs.buffer d c = some old ∧
    old.dirt = true

theorem NoNewDirt.trans (h : NoNewDirt fs fs') (h' : NoNewDirt fs' fs'') : NoNewDirt fs fs'' := by
  intro d c bh hbuf hd
  obtain ⟨bh', hbuf', hd'⟩ := h' d c bh hbuf hd
  exact h d c bh' hbuf' hd'

theorem bread_noNewDirt (dev b : Nat) (fs : FileSystem) :
    IfReturns (fun r => NoNewDirt fs r.2) (bread dev b fs) := by
  refine ifReturns_iff.mpr fun r hr => ?_
  obtain ⟨data, fs'⟩ := r
  intro d c bh hbuf hd
  by_cases he : d = dev ∧ c = b
  · obtain ⟨rfl, rfl⟩ := he
    cases ha : available fs d 0 c with
    | true =>
      obtain ⟨bh', hbread, -, -, -, hold⟩ := bread_available ha
      obtain ⟨-, rfl⟩ := Prod.mk.inj (Except.ok.inj (hbread.symm.trans hr))
      rw [setBuffer_buffer, if_pos ⟨rfl, rfl⟩] at hbuf
      obtain rfl := Option.some.inj hbuf
      obtain ⟨old, hbuf', hd', -⟩ := hold hd
      exact ⟨old, hbuf', hd'⟩
    | false =>
      rw [bread_unavailable ha] at hr
      split at hr
      · cases hr
      · obtain ⟨-, rfl⟩ := Prod.mk.inj (Except.ok.inj hr)
        rw [setBuffer_buffer, if_pos ⟨rfl, rfl⟩] at hbuf
        obtain rfl := Option.some.inj hbuf
        cases hd
  · rw [bread_other he hr] at hbuf
    exact ⟨bh, hbuf, hd⟩

theorem brelse_noNewDirt (dev b : Nat) (fs : FileSystem) :
    IfReturns (NoNewDirt fs) (brelse dev b fs) := by
  refine ifReturns_iff.mpr fun fs' hr d c bh hbuf hd => ?_
  obtain ⟨bh', hbuf', -, rfl⟩ := brelse_eq_ok.mp hr
  rw [setBuffer_buffer] at hbuf
  split at hbuf
  · rename_i he
    obtain rfl := Option.some.inj hbuf
    exact ⟨bh', by rw [he.1, he.2, hbuf'], hd⟩
  · exact ⟨bh, hbuf, hd⟩

theorem bmap_noNewDirt (i : InodeIx) (n : Nat) (fs : FileSystem) :
    IfReturns (fun r => NoNewDirt fs r.2) (bmap i n fs) := by
  have hrefl : ∀ fs, NoNewDirt fs fs := fun fs d c bh hbuf hd => ⟨bh, hbuf, hd⟩
  have hentry : ∀ dev b k fs, IfReturns (fun r : Nat × FileSystem => NoNewDirt fs r.2)
      (bmapEntry (fun _ fs => .ok (0, fs)) dev b k false fs) := by
    intro dev b k fs
    simp only [bmapEntry]
    refine (bread_noNewDirt _ _ fs).bind fun r h₁ => ?_
    obtain ⟨data, fs₁⟩ := r
    cases data with
    | none => exact h₁
    | some data =>
      simp only [Bool.false_eq_true, false_and, if_false]
      exact (brelse_noNewDirt _ _ fs₁).bind fun fs₂ h₂ => h₁.trans h₂
  rw [← bmapCreate_false fun _ fs => .ok (0, fs)]
  have hzone : ∀ k, bmapZone (fun _ fs => .ok (0, fs)) i k false fs =
    .ok ((fs.inode i).d.iZone k, fs) :=
    fun k => by simp [bmapZone]
  simp only [bmapCreate, hzone]
  split
  · trivial
  · split
    · exact hrefl fs
    · split
      · simp only [bind, Except.bind]
        split
        · exact hrefl fs
        · exact hentry ..
      · simp only [bind, Except.bind]
        split
        · exact hrefl fs
        · refine (hentry _ _ _ fs).bind fun r h₁ => ?_
          split
          · exact h₁
          · exact (hentry _ _ _ r.2).mono fun r' h₂ => h₁.trans h₂

def zoneSlot (i : InodeIx) (fs : FileSystem) (n : Nat) : Option (Slot (Fin 9) (Fin 512) Nat) :=
  slot (zoneTree i fs) (zonePath n).1 (zonePath n).2

def SlotsApart (i : InodeIx) (fs : FileSystem) : Prop :=
  ∀ n m s, n < MAPPABLE → m < MAPPABLE → zoneSlot i fs n = some s → zoneSlot i fs m = some s → n = m

theorem slotsApart (hone : NamedOnce levels (zoneTree i fs)) : SlotsApart i fs := by
  intro n m s hn hm hsn hsm
  obtain ⟨hr, hl⟩ := BlockTree.slot_inj hone (Nat.le_of_eq (zonePath_length n))
    (Nat.le_of_eq (zonePath_length m)) hsn hsm
  exact zonePath_inj hn hm (Prod.ext hr hl)

/-- `_bmap` with `create` maps its block and no other, and marks what it has changed. -/
theorem bmap_create_changes_one {newBlock : NewBlock} {i : InodeIx} {fs : FileSystem} {n : Nat}
    (hnb : Allocates newBlock i) (hone : NamedOnce levels (zoneTree i fs))
    (hread : ∀ b, b ≠ 0 → IndirectBlock i fs b → Readable fs (fs.inode i).iDev b)
    (hcounts : ∀ d c, bufferCount fs d c < 255) (hn : n < MAPPABLE) :
    ∃ r fs', bmapCreate newBlock i n true fs = .ok (r, fs') ∧
      (∃ s, bmap i n fs' = .ok (r, s)) ∧
      (∀ m < MAPPABLE, m ≠ n → ∃ z s s', bmap i m fs = .ok (z, s) ∧ bmap i m fs' = .ok (z, s')) ∧
      (∀ z s, bmap i n fs = .ok (z, s) → z ≠ 0 → r = z ∧ fs' = s ∧ Still fs fs' ∧
        NoNewDirt fs fs') ∧
      (∀ b, b ≠ 0 → IndirectBlock i fs' b → AsBefore i fs fs' b ∨
        MarkedDirty fs' (fs.inode i).iDev b) ∧
      ((fs'.inode i).d = (fs.inode i).d ∨ (fs'.inode i).iDirt = true) ∧
      (∀ j, j ≠ i → fs'.inode j = fs.inode j) ∧
      SlotsApart i fs ∧ SlotsApart i fs' := by
  obtain ⟨r, fs', hcall, h, hsame, hat⟩ := bmapCreate_grows hnb hone hread hcounts hn
  have hbmap : ∀ m < MAPPABLE, ∃ s, bmap i m fs = .ok (zoneAt i fs m, s) ∧ Still fs s := fun m hm =>
    bmap_eq hm (fun z hz hne => hread z hne hz) fun z _ _ => hcounts _ z
  have hbmap' : ∀ m < MAPPABLE, ∃ s, bmap i m fs' = .ok (zoneAt i fs' m, s) := by
    intro m hm
    obtain ⟨s, hs, -⟩ := bmap_eq hm (fun z hz hne => h.iDev.symm ▸ h.readable z hne hz)
      fun z _ _ => by rw [hsame]; exact hcounts _ z
    exact ⟨s, hs⟩
  refine ⟨r, fs', hcall, ?_, fun m hm hmn => ?_, fun z s hz hne => ?_, h.changed, h.dirt, h.others,
    slotsApart hone,
    slotsApart h.once⟩
  · obtain ⟨s, hs⟩ := hbmap' n hn
    exact ⟨s, hat ▸ hs⟩
  · obtain ⟨s, hs, -⟩ := hbmap m hm
    obtain ⟨s', hs'⟩ := hbmap' m hm
    refine ⟨_, s, s', hs, ?_⟩
    rw [hs', zoneAt_eq_blockAt _ _ hm, zoneAt_eq_blockAt _ _ hm]
    rw [h.only _ _ (Nat.le_of_eq (zonePath_length m)) fun hon => ?_]
    -- a path that ends on this one is this one, for both go down to the file's blocks
    refine hmn (zonePath_inj hm hn (Prod.ext hon.1 (hon.2.eq_of_length ?_)))
    rw [zonePath_length, zonePath_length, hon.1]
  · obtain ⟨s', hs', hstill⟩ := hbmap n hn
    obtain ⟨hzone, hs⟩ := Prod.mk.inj (Except.ok.inj (hs'.symm.trans hz))
    rw [bmapCreate_mapped hread hcounts hn (hzone ▸ hne), hz] at hcall
    obtain ⟨rfl, rfl⟩ := Prod.mk.inj (Except.ok.inj hcall)
    exact ⟨rfl, rfl, hs ▸ hstill, (bmap_noNewDirt i n fs).of_ok hz⟩

section Example

def oneZoneFs : FileSystem :=
  { smallFs with
    disk := fun _ _ _ => 0
    inode := fun i => if i = 0 then ⟨(DInode.zero.setMode 0o100644).setZone 0 6, 1, 2, 1, false,
      false, false, false⟩
      else .zero }

/-- The next zone from 100 on that is not in the file of `i`, cleared and to be written. -/
def nextZone (i : InodeIx) : NewBlock := fun dev fs =>
  match (List.range' 100 28).find? fun z => z ∉ zonesOf i fs ∧ fs.buffer dev z = none with
  | none => .ok (0, fs)
  | some z => .ok (z, fs.setBuffer dev z (some ⟨fun _ => 0, true, true, 0⟩))

theorem allocates_nextZone (i : InodeIx) : Allocates (nextZone i) i := by
  intro fs
  cases hfind : (List.range' 100 28).find? fun z => z ∉ zonesOf i fs ∧
    fs.buffer (fs.inode i).iDev z = none with
  | none =>
    refine ⟨0, fs, by rw [nextZone, hfind],
      ⟨rfl, rfl, fun _ _ => rfl, fun _ _ => id, fun _ _ => id⟩, .refl fs, fun h => ?_⟩
    exact absurd rfl h
  | some z =>
    obtain ⟨hnew, hbuf⟩ : z ∉ zonesOf i fs ∧ fs.buffer (fs.inode i).iDev z = none := by
      simpa using List.find?_some hfind
    have hrange := List.mem_range'_1.mp (List.mem_of_find?_eq_some hfind)
    have hother : ∀ c, InTree i fs c → c ≠ z := fun c hc e => hnew (e ▸ inTree_iff_mem.mp hc)
    have hsame : ∀ c, c ≠ z →
      (fs.setBuffer (fs.inode i).iDev z (some ⟨fun _ => 0, true, true, 0⟩)).buffer
        (fs.inode i).iDev c = fs.buffer (fs.inode i).iDev c := fun c hc => by
      rw [setBuffer_buffer, if_neg fun e => hc e.2]
    refine ⟨z, fs.setBuffer (fs.inode i).iDev z (some ⟨fun _ => 0, true, true, 0⟩),
      by rw [nextZone, hfind],
      ⟨rfl, rfl, fun c hc => ?_, fun c hc h => ?_, fun c hc h => ?_⟩, fun d c => ?_,
      fun hz => ⟨by omega, fun r l hl h => ?_, .inl ?_, ?_⟩⟩
    · rw [content, hsame c (hother c hc)]
      rfl
    · rwa [cached, hsame c (hother c hc)]
    · rwa [MarkedDirty, hsame c (hother c hc)]
    · rw [bufferCount_setBuffer]
      split
      · rename_i e
        simp [bufferCount, e.1, e.2, hbuf]
      · rfl
    · exact hother z ⟨hz, r, l, hl, h⟩ rfl
    · rw [cached_setBuffer, if_pos ⟨rfl, rfl⟩]
    · rw [content_setBuffer, if_pos ⟨rfl, rfl⟩]
      rfl

theorem bmap_create_changes_one_twoZones :
    ∃ fs', bmapCreate (nextZone 0) 0 10 true oneZoneFs = .ok (101, fs') ∧
    (∃ s, bmap 0 10 fs' = .ok (101, s)) ∧
      ∃ s, bmap 0 0 fs' = .ok (6, s) := by
  have hroot : ∀ r : Fin 9, r ≠ 0 → (oneZoneFs.inode 0).d.iZone r = 0 := by decide
  have hbroken : ∀ r l, r ≠ 0 → blockAt (zoneTree 0 oneZoneFs) r l = 0 := by
    intro r l hr
    induction l with
    | nil => exact hroot r hr
    | cons k up ih => exact blockAt_broken ih
  have honly : ∀ r l, l.length ≤ levels r → blockAt (zoneTree 0 oneZoneFs) r l ≠ 0 → r = 0 ∧
      l = [] := by
    intro r l hl hne
    have hr : r = 0 := by
      by_contra hr
      exact hne (hbroken r l hr)
    subst hr
    exact ⟨rfl, List.length_eq_zero_iff.mp (Nat.le_zero.mp hl)⟩
  have hone : NamedOnce levels (zoneTree 0 oneZoneFs) := by
    intro r l r' l' hl hl' hne hsame
    obtain ⟨rfl, rfl⟩ := honly r l hl hne
    obtain ⟨rfl, rfl⟩ := honly r' l' hl' (hsame ▸ hne)
    exact ⟨rfl, rfl⟩
  obtain ⟨r, fs', hcall, hmapped, hothers, -⟩ :=
    bmap_create_changes_one (n := 10) (allocates_nextZone 0) hone
    (fun _ _ _ => .inr fun _ => rfl) (fun _ _ => show 0 < 255 by decide) (by decide)
  have hr : (bmapCreate (nextZone 0) 0 10 true oneZoneFs).toOption.map (·.1) = some 101 := by
    decide +kernel
  rw [hcall] at hr
  obtain rfl : r = 101 := Option.some.inj hr
  obtain ⟨z, s, s', hbefore, hafter⟩ := hothers 0 (by decide) (by decide)
  have hz : (bmap 0 0 oneZoneFs).toOption.map (·.1) = some 6 := by decide
  rw [hbefore] at hz
  obtain rfl : z = 6 := Option.some.inj hz
  exact ⟨fs', hcall, hmapped, s', hafter⟩

end Example

end Hios.Fs
