import Hios.Fs.Super
import Hios.Fs.References

/-! The zones of an inode: the tree that `bmap` looks blocks up in, as the list that
`truncate` frees it in, and the bits of the zone bitmap. -/
namespace Hios.Fs
open Hios.Outcome
variable {fs fs' : FileSystem} {i : InodeIx} {z : Nat}

/-- The zone of block `n` of the file, from the inode and the indirect blocks as they
would be read now. -/
def zoneAt (i : InodeIx) (fs : FileSystem) (n : Nat) : Nat :=
  let m := fs.inode i
  if h : n < 7 then m.d.iZone ⟨n, direct_lt h⟩
  else if n - 7 < 512 then
    if m.d.iZone 7 = 0 then 0 else (content fs m.iDev (m.d.iZone 7)).short (n - 7)
  else if m.d.iZone 8 = 0 then 0 else
    let ind := (content fs m.iDev (m.d.iZone 8)).short ((n - 7 - 512) / 512)
    if ind = 0 then 0 else (content fs m.iDev ind).short ((n - 7 - 512) % 512)

def entriesOf (fs : FileSystem) (dev block : Nat) : List Nat :=
  ((List.range 512).map (content fs dev block).short).filter (· ≠ 0)

def treeOf (under : Nat → List Nat) (fs : FileSystem) (dev block : Nat) : List Nat :=
  if block = 0 then [] else (entriesOf fs dev block).flatMap under ++ [block]

def indZones (fs : FileSystem) (dev : Nat) : Nat → List Nat := treeOf (fun z => [z]) fs dev

def dindZones (fs : FileSystem) (dev : Nat) : Nat → List Nat := treeOf (indZones fs dev) fs dev

def directZones (d : DInode) : List Nat :=
  (([0, 1, 2, 3, 4, 5, 6] : List (Fin 9)).map d.iZone).filter (· ≠ 0)

/-- All zones of the file and its indirect blocks, in the order of `truncate`. -/
def zonesOf (i : InodeIx) (fs : FileSystem) : List Nat :=
  directZones (fs.inode i).d ++ indZones fs (fs.inode i).iDev ((fs.inode i).d.iZone 7) ++
    dindZones fs (fs.inode i).iDev ((fs.inode i).d.iZone 8)

def IndirectBlock (i : InodeIx) (fs : FileSystem) (z : Nat) : Prop :=
  z = (fs.inode i).d.iZone 7 ∨ z = (fs.inode i).d.iZone 8 ∨
    (fs.inode i).d.iZone 8 ≠ 0 ∧
      ∃ k < 512, z = (content fs (fs.inode i).iDev ((fs.inode i).d.iZone 8)).short k

theorem mem_entriesOf {dev block : Nat} :
    z ∈ entriesOf fs dev block ↔ z ≠ 0 ∧ ∃ k < 512, (content fs dev block).short k = z := by
  simp [entriesOf, and_comm]

theorem mem_treeOf {under : Nat → List Nat} {dev block : Nat} :
    z ∈ treeOf under fs dev block ↔
      block ≠ 0 ∧ ((∃ k < 512, (content fs dev block).short k ≠ 0 ∧
        z ∈ under ((content fs dev block).short k)) ∨
        z = block) := by
  unfold treeOf
  by_cases hb : block = 0
  · simp [hb]
  · simp only [hb, if_false, List.mem_append, List.mem_flatMap, List.mem_singleton,
      mem_entriesOf, ne_eq,
      not_false_eq_true, true_and]
    refine or_congr ⟨fun ⟨e, ⟨he, k, hk, hek⟩, hz⟩ => ?_, fun ⟨k, hk, he, hz⟩ => ?_⟩ .rfl
    · exact ⟨k, hk, hek ▸ he, hek ▸ hz⟩
    · exact ⟨_, ⟨he, k, hk, rfl⟩, hz⟩

theorem mem_direct (k : Fin 9) : k ∈ ([0, 1, 2, 3, 4, 5, 6] : List (Fin 9)) ↔ k.val < 7 := by
  revert k
  decide

theorem mem_directZones {d : DInode} :
    z ∈ directZones d ↔ z ≠ 0 ∧ ∃ k : Fin 9, k.val < 7 ∧ d.iZone k = z := by
  simp only [directZones, List.mem_filter, List.mem_map, decide_eq_true_eq, mem_direct]
  exact and_comm

theorem zoneAt_direct (k : Fin 9) (hk : k.val < 7) :
    zoneAt i fs k.val = (fs.inode i).d.iZone k := by
  simp [zoneAt, hk]

theorem zoneAt_ind {k : Nat} (h : (fs.inode i).d.iZone 7 ≠ 0) (hk : k < 512) :
    zoneAt i fs (7 + k) = (content fs (fs.inode i).iDev ((fs.inode i).d.iZone 7)).short k := by
  have hsub : 7 + k - 7 = k := by omega
  simp only [zoneAt, dif_neg (show ¬ 7 + k < 7 by omega), hsub, if_pos hk, if_neg h]

theorem zoneAt_dind {a b : Nat} (h : (fs.inode i).d.iZone 8 ≠ 0) (hb : b < 512)
    (he : (content fs (fs.inode i).iDev ((fs.inode i).d.iZone 8)).short a ≠ 0) :
    zoneAt i fs (7 + 512 + 512 * a + b) =
      (content fs (fs.inode i).iDev
        ((content fs (fs.inode i).iDev ((fs.inode i).d.iZone 8)).short a)).short b := by
  have hsub : 7 + 512 + 512 * a + b - 7 - 512 = 512 * a + b := by omega
  have hdiv : (512 * a + b) / 512 = a := by omega
  have hmod : (512 * a + b) % 512 = b := by omega
  simp only [zoneAt, dif_neg (show ¬ 7 + 512 + 512 * a + b < 7 by omega),
    if_neg (show ¬ 7 + 512 + 512 * a + b - 7 < 512 by omega), if_neg h, hsub, hdiv, hmod, if_neg he]

theorem zoneAt_mem {n : Nat} (hn : n < 7 + 512 + 512 * 512) (hz : zoneAt i fs n ≠ 0) :
    zoneAt i fs n ∈ zonesOf i fs := by
  unfold zonesOf
  by_cases hdirect : n < 7
  · have hat : zoneAt i fs n = _ := zoneAt_direct ⟨n, by omega⟩ hdirect
    refine List.mem_append_left _
      (List.mem_append_left _ (mem_directZones.mpr ⟨hz, ⟨n, by omega⟩, hdirect, hat.symm⟩))
  · by_cases hind : n - 7 < 512
    · by_cases h7 : (fs.inode i).d.iZone 7 = 0
      · simp [zoneAt, hdirect, hind, h7] at hz
      · have hat := zoneAt_ind h7 hind
        rw [show 7 + (n - 7) = n by omega] at hat
        refine List.mem_append_left _
          (List.mem_append_right _ (mem_treeOf.mpr ⟨h7, .inl ⟨n - 7, hind, ?_, ?_⟩⟩))
        · exact hat ▸ hz
        · exact List.mem_singleton.mpr hat
    · by_cases h8 : (fs.inode i).d.iZone 8 = 0
      · simp [zoneAt, hdirect, hind, h8] at hz
      · by_cases he : (content fs (fs.inode i).iDev ((fs.inode i).d.iZone 8)).short
          ((n - 7 - 512) / 512) = 0
        · simp [zoneAt, hdirect, hind, h8, he] at hz
        · have hat := zoneAt_dind (b := (n - 7 - 512) % 512) h8 (Nat.mod_lt _ (by decide)) he
          rw [show 7 + 512 + 512 * ((n - 7 - 512) / 512) + (n - 7 - 512) % 512 = n by omega] at hat
          refine List.mem_append_right _
            (mem_treeOf.mpr ⟨h8, .inl ⟨(n - 7 - 512) / 512, by omega, he, ?_⟩⟩)
          refine mem_treeOf.mpr ⟨he, .inl ⟨(n - 7 - 512) % 512, Nat.mod_lt _ (by decide), ?_, ?_⟩⟩
          · exact hat ▸ hz
          · exact List.mem_singleton.mpr hat

/-- The list holds the non-zero zones of the file and its indirect blocks. -/
theorem mem_zonesOf : z ∈ zonesOf i fs ↔
    z ≠ 0 ∧ ((∃ n < 7 + 512 + 512 * 512, zoneAt i fs n = z) ∨ IndirectBlock i fs z) := by
  constructor
  · intro hz
    simp only [zonesOf, List.mem_append] at hz
    cases hz with
    | inl hz =>
      cases hz with
      | inl hz =>
        obtain ⟨hne, k, hk, hat⟩ := mem_directZones.mp hz
        exact ⟨hne, .inl ⟨k.val, by omega, (zoneAt_direct k hk).trans hat⟩⟩
      | inr hz =>
        obtain ⟨h7, hz⟩ := mem_treeOf.mp hz
        cases hz with
        | inl hz =>
          obtain ⟨k, hk, hne, hz⟩ := hz
          obtain rfl := List.mem_singleton.mp hz
          exact ⟨hne, .inl ⟨7 + k, by omega, zoneAt_ind h7 hk⟩⟩
        | inr hz => exact ⟨hz ▸ h7, .inr (.inl hz)⟩
    | inr hz =>
      obtain ⟨h8, hz⟩ := mem_treeOf.mp hz
      cases hz with
      | inl hz =>
        obtain ⟨a, ha, he, hz⟩ := hz
        obtain ⟨-, hz⟩ := mem_treeOf.mp hz
        cases hz with
        | inl hz =>
          obtain ⟨b, hb, hne, hz⟩ := hz
          obtain rfl := List.mem_singleton.mp hz
          exact ⟨hne, .inl ⟨7 + 512 + 512 * a + b, by omega, zoneAt_dind h8 hb he⟩⟩
        | inr hz => exact ⟨hz ▸ he, .inr (.inr (.inr ⟨h8, a, ha, hz⟩))⟩
      | inr hz => exact ⟨hz ▸ h8, .inr (.inr (.inl hz))⟩
  · rintro ⟨hne, hz⟩
    cases hz with
    | inl hz =>
      obtain ⟨n, hn, rfl⟩ := hz
      exact zoneAt_mem hn hne
    | inr hz =>
      unfold zonesOf
      cases hz with
      | inl hz =>
        exact List.mem_append_left _
          (List.mem_append_right _ (mem_treeOf.mpr ⟨fun e => hne (hz.trans e), .inr hz⟩))
      | inr hz =>
        cases hz with
        | inl hz =>
          exact List.mem_append_right _ (mem_treeOf.mpr ⟨fun e => hne (hz.trans e), .inr hz⟩)
        | inr hz =>
          obtain ⟨h8, k, hk, hz⟩ := hz
          refine List.mem_append_right _
            (mem_treeOf.mpr ⟨h8, .inl ⟨k, hk, fun e => hne (hz.trans e), ?_⟩⟩)
          exact mem_treeOf.mpr ⟨fun e => hne (hz.trans e), .inr hz⟩

theorem Block.short_lt (b : Block) (k : Nat) : b.short k < 65536 := by
  have hlo := (b (Fin.ofNat 1024 (2 * k))).isLt
  have hhi := (b (Fin.ofNat 1024 (2 * k + 1))).isLt
  unfold Block.short
  omega

theorem DInode.short_lt (d : DInode) (k : Fin 31) : d.short k < 65536 := by
  have hlo := (d k.castSucc).isLt
  have hhi := (d k.succ).isLt
  unfold DInode.short
  omega

theorem setBit_clearBit {n m : Nat} (hn : n < 8192) (hm : m < 8192) (data : Block) :
    setBit m (clearBit n data).2 = (setBit m data && decide (m ≠ n)) := by
  have hbits : ∀ (x : Byte) (s t : Nat), s < 8 → t < 8 →
      (x &&& ~~~(1#8 <<< s)).getLsbD t = (x.getLsbD t && decide (t ≠ s)) := by
    intro x s t hs ht
    simp only [BitVec.getLsbD_and, BitVec.getLsbD_not, BitVec.getLsbD_shiftLeft, BitVec.getLsbD_one,
      ht, decide_true,
      Bool.true_and]
    by_cases hts : t = s
    · simp [hts]
    · by_cases hlt : t < s
      · simp [hlt, hts]
      · have hsub : t - s ≠ 0 := by omega
        simp [hlt, hts, hsub]
  simp only [setBit, clearBit]
  by_cases hbyte : m / 8 = n / 8
  · rw [hbyte, Function.update_self, hbits _ _ _ (Nat.mod_lt _ (by decide))
      (Nat.mod_lt _ (by decide))]
    have hiff : (m % 8 ≠ n % 8) ↔ m ≠ n := by omega
    simp only [hiff]
  · have hne : Fin.ofNat 1024 (m / 8) ≠ Fin.ofNat 1024 (n / 8) := by
      intro e
      have hval := congrArg Fin.val e
      simp only [Fin.ofNat] at hval
      omega
    have hmn : m ≠ n := fun e => hbyte (by rw [e])
    rw [Function.update_of_ne hne]
    simp [hmn]

theorem DInode.put_of_lt {d : DInode} {k len v : Nat} {j : Fin 32}
    (h : j.val < k ∨ k + len ≤ j.val) :
    d.put k len v j = d j := if_neg fun e => by omega

theorem DInode.put_zero {d : DInode} {k len : Nat} {j : Fin 32} (h : k ≤ j.val ∧ j.val < k + len) :
    d.put k len 0 j = 0 := by
  unfold DInode.put
  rw [if_pos h, Nat.zero_div]
  rfl

theorem DInode.put_short {d : DInode} {k v : Nat} {j j' : Fin 32} (hj : j.val = k)
    (hj' : j'.val = k + 1) (hv : v < 65536) :
    (d.put k 2 v j).toNat + 256 * (d.put k 2 v j').toNat = v := by
  unfold DInode.put
  rw [if_pos (by omega), if_pos (by omega),
    show j.val - k = 0 by omega, show j'.val - k = 1 by omega]
  simp only [BitVec.toNat_ofNat]
  omega

theorem iZone_setZone (d : DInode) (k k' : Fin 9) {v : Nat} (hv : v < 65536) :
    (d.setZone k v).iZone k' = if k' = k then v else d.iZone k' := by
  unfold DInode.setZone DInode.iZone DInode.short
  by_cases hk : k' = k
  · subst hk
    rw [DInode.put_short (by simp) (by simp) hv, if_pos rfl]
  · have hne : k'.val ≠ k.val := fun e => hk (Fin.ext e)
    rw [DInode.put_of_lt (by simp; omega), DInode.put_of_lt (by simp; omega), if_neg hk]

theorem iZone_setSize (d : DInode) (v : Nat) (k : Fin 9) : (d.setSize v).iZone k = d.iZone k := by
  unfold DInode.setSize DInode.iZone DInode.short
  rw [DInode.put_of_lt (by simp; omega), DInode.put_of_lt (by simp; omega)]

theorem iSize_setSize (d : DInode) : (d.setSize 0).iSize = 0 := by
  unfold DInode.setSize DInode.iSize DInode.short
  simp only [DInode.put_zero (show 4 ≤ (4 : Fin 31).castSucc.val ∧
    (4 : Fin 31).castSucc.val < 4 + 4 by decide),
    DInode.put_zero (show 4 ≤ (4 : Fin 31).succ.val ∧ (4 : Fin 31).succ.val < 4 + 4 by decide),
    DInode.put_zero (show 4 ≤ (6 : Fin 31).castSucc.val ∧
      (6 : Fin 31).castSucc.val < 4 + 4 by decide),
    DInode.put_zero (show 4 ≤ (6 : Fin 31).succ.val ∧ (6 : Fin 31).succ.val < 4 + 4 by decide)]
  rfl

theorem read_release {dev block : Nat} {α : Type} (hr : Readable fs dev block)
    (hcount : bufferCount fs dev block < 255) (f : Block → FileSystem → Except Panic α)
    (g : FileSystem → Except Panic α) :
    ∃ fs', Still fs fs' ∧ (do
      match ← bread dev block fs with
      | (none, fs) => g fs
      | (some data, fs) =>
        let fs ← brelse dev block fs
        f data fs) = f (content fs dev block) fs' := by
  obtain ⟨fs₁, hbread, htaken⟩ := bread_taken (available_of_readable hr)
  obtain ⟨fs₂, hrel, hstill⟩ := htaken.brelse hcount
  refine ⟨fs₂, hstill, ?_⟩
  rw [hbread]
  change (brelse dev block fs₁ >>= _) = _
  rw [hrel]
  rfl

theorem bmap_eq {n : Nat} (hn : n < 7 + 512 + 512 * 512)
    (hread : ∀ z, IndirectBlock i fs z → z ≠ 0 → Readable fs (fs.inode i).iDev z)
    (hcount : ∀ z, IndirectBlock i fs z → z ≠ 0 → bufferCount fs (fs.inode i).iDev z < 255) :
    ∃ fs', bmap i n fs = .ok (zoneAt i fs n, fs') ∧ Still fs fs' := by
  unfold bmap zoneAt
  simp only [if_neg (show ¬ 7 + 512 + 512 * 512 ≤ n by omega)]
  by_cases hdirect : n < 7
  · simp only [dif_pos hdirect]
    exact ⟨fs, rfl, .refl fs⟩
  · simp only [dif_neg hdirect]
    by_cases hind : n - 7 < 512
    · simp only [if_pos hind]
      by_cases h7 : (fs.inode i).d.iZone 7 = 0
      · simp only [if_pos h7]
        exact ⟨fs, rfl, .refl fs⟩
      · simp only [if_neg h7]
        obtain ⟨fs₁, hstill, heq⟩ := read_release (hread _ (.inl rfl) h7) (hcount _ (.inl rfl) h7)
          (fun data fs => (pure (data.short (n - 7), fs) : Except Panic (Nat × FileSystem)))
          fun fs => pure (0, fs)
        exact ⟨fs₁, heq, hstill⟩
    · simp only [if_neg hind]
      by_cases h8 : (fs.inode i).d.iZone 8 = 0
      · simp only [if_pos h8]
        exact ⟨fs, rfl, .refl fs⟩
      · simp only [if_neg h8]
        have hk : (n - 7 - 512) / 512 < 512 := by omega
        generalize (n - 7 - 512) / 512 = k at hk ⊢
        obtain ⟨fs₁, hstill, heq⟩ :=
          read_release (hread _ (.inr (.inl rfl)) h8) (hcount _ (.inr (.inl rfl)) h8)
          (fun data fs₁ => if data.short k = 0 then
            (pure (0, fs₁) : Except Panic (Nat × FileSystem)) else do
            match ← bread (fs.inode i).iDev (data.short k) fs₁ with
            | (none, fs₁) => return (0, fs₁)
            | (some data', fs₁) =>
              let fs₁ ← brelse (fs.inode i).iDev (data.short k) fs₁
              return (data'.short ((n - 7 - 512) % 512), fs₁))
          fun fs => pure (0, fs)
        by_cases he : (content fs (fs.inode i).iDev ((fs.inode i).d.iZone 8)).short k = 0
        · refine ⟨fs₁, heq.trans ?_, hstill⟩
          simp only [if_pos he]
          rfl
        · have hentry : IndirectBlock i fs
            ((content fs (fs.inode i).iDev ((fs.inode i).d.iZone 8)).short k) :=
            .inr (.inr ⟨h8, k, hk, rfl⟩)
          obtain ⟨fs₂, hstill₂, heq₂⟩ := read_release (hstill.readable (hread _ hentry he))
            (by rw [hstill.counts]; exact hcount _ hentry he)
            (fun data fs => (pure (data.short ((n - 7 - 512) % 512), fs) : Except Panic
              (Nat × FileSystem)))
            fun fs => pure (0, fs)
          refine ⟨fs₂, heq.trans ?_, hstill.trans hstill₂⟩
          simp only [if_neg he]
          rw [hstill.content] at heq₂
          exact heq₂

end Hios.Fs
