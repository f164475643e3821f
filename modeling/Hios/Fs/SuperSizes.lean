import Hios.Fs.Super
import Hios.Fs.References
import Mathlib.Tactic.Set

/-! When `read_super` does what its caller relies on: the sizes that it takes from
block 1 are checked against the number of reads that went well, and against nothing
else. -/
namespace Hios.Fs
open Hios.Outcome
variable {dev calls block n i : Nat} {fs₀ fs : FileSystem}

/-- After `calls` calls of `bread` from `fs₀` on, the bitmap blocks before `block` are
held once more each. -/
structure Reading (fs₀ fs : FileSystem) (dev calls block : Nat) : Prop where
  readable : fs.readable = fs₀.readable
  reads : fs.reads = fs₀.reads + calls
  fresh : ∀ b, block ≤ b → cached fs dev b = cached fs₀ dev b
  count : ∀ d b, bufferCount fs d b = bufferCount fs₀ d b + if d = dev ∧ 2 ≤ b ∧
    b < block then 1 else 0

theorem Reading.available (h : Reading fs₀ fs dev calls block) :
    available fs dev 0 block = available fs₀ dev calls block := by
  simp [Fs.available, h.fresh block (Nat.le_refl block), h.readable, h.reads]

theorem Reading.count_next (h : Reading fs₀ fs dev calls block) :
    bufferCount fs dev block = bufferCount fs₀ dev block := by
  rw [h.count]
  simp

theorem Reading.good (h : Reading fs₀ fs dev calls block)
    (hroom : ∀ b, bufferCount fs₀ dev b < 255) (hblock : 2 ≤ block)
    (ha : Fs.available fs₀ dev calls block = true) :
    ∃ data fs', bread dev block fs = .ok (some data, fs') ∧
    Reading fs₀ fs' dev (calls + 1) (block + 1) ∧
      fs'.super = fs.super := by
  obtain ⟨bh, hbread, -, hup, hcount, -⟩ := bread_available (h.available.trans ha)
  refine ⟨_, _, hbread, ⟨h.readable, ?_, fun b hb => ?_, fun d b => ?_⟩, rfl⟩
  · change fs.reads + 1 = _
    rw [h.reads]
    omega
  · rw [cached_setBuffer, if_neg fun e => by omega]
    exact h.fresh b (by omega)
  · have hsame : bufferCount { fs with reads := fs.reads + 1 } d b = bufferCount fs d b := rfl
    rw [bufferCount_setBuffer, hsame]
    by_cases hb : d = dev ∧ b = block
    · obtain ⟨rfl, rfl⟩ := hb
      have hlt := hroom b
      rw [if_pos ⟨rfl, rfl⟩, hcount, h.count_next, if_pos ⟨rfl, hblock, by omega⟩]
      omega
    · rw [if_neg hb, h.count]
      have hiff : (d = dev ∧ 2 ≤ b ∧ b < block + 1) ↔ d = dev ∧ 2 ≤ b ∧ b < block := by
        constructor
        · rintro ⟨hd, h2, hlt⟩
          exact ⟨hd, h2, by have := fun e => hb ⟨hd, e⟩; omega⟩
        · rintro ⟨hd, h2, hlt⟩
          exact ⟨hd, h2, by omega⟩
      simp only [hiff]

theorem Reading.bad (h : Reading fs₀ fs dev calls block) (hroom : ∀ b, bufferCount fs₀ dev b < 255)
    (ha : Fs.available fs₀ dev calls block = false) :
    ∃ fs', bread dev block fs = .ok (none, fs') ∧ Reading fs₀ fs' dev (calls + 1) block ∧
      fs'.super = fs.super := by
  have hlt := hroom block
  have hnext := h.count_next
  have hbread := bread_unavailable (h.available.trans ha)
  rw [if_neg (by omega)] at hbread
  refine ⟨_, hbread, ⟨h.readable, ?_, fun b hb => ?_, fun d b => ?_⟩, rfl⟩
  · change fs.reads + 1 = _
    rw [h.reads]
    omega
  · rw [cached_setBuffer]
    split
    · rename_i hb
      rw [← h.fresh b (by omega), hb.2]
      exact getblk_uptodate fs dev block
    · exact h.fresh b hb
  · rw [bufferCount_setBuffer]
    split
    · rename_i hb
      rw [hb.1, hb.2, ← h.count dev block]
      change (bufferCount fs dev block + 1) % 256 - 1 = _
      omega
    · exact h.count d b

def filled (dev i g block : Nat) (map : Fin 8 → Option BufferName) : Fin 8 → Option BufferName :=
  fun k =>
  if i ≤ k.val ∧ k.val < i + g then some (dev, block + (k.val - i)) else map k

theorem filled_zero (dev i block : Nat) (map : Fin 8 → Option BufferName) :
    filled dev i 0 block map = map := by
  funext k
  exact if_neg fun e => by omega

theorem filled_succ (dev g block : Nat) (map : Fin 8 → Option BufferName) (hi : i < 8) :
    filled dev (i + 1) g (block + 1) (Function.update map ⟨i, hi⟩ (some (dev, block))) =
      filled dev i (g + 1) block map := by
  funext k
  unfold filled
  by_cases hk : k = ⟨i, hi⟩
  · subst hk
    rw [Function.update_self, if_neg fun e => Nat.not_succ_le_self i e.1,
      if_pos ⟨Nat.le_refl i, by simp⟩]
    simp
  · have hne : k.val ≠ i := fun e => hk (Fin.ext e)
    have hiff : (i + 1 ≤ k.val ∧ k.val < i + 1 + g) ↔ i ≤ k.val ∧ k.val < i + (g + 1) := by omega
    rw [Function.update_of_ne hk]
    simp only [hiff]
    split
    · rw [show block + 1 + (k.val - (i + 1)) = block + (k.val - i) by omega]
    · rfl

/-- The loop that fills a bitmap: it writes outside the array exactly when it is told
more than the array holds and the reads go well that far. -/
theorem readMap_eq (n i : Nat) (map : Fin 8 → Option BufferName)
    (hroom : ∀ b, bufferCount fs₀ dev b < 255) (h : Reading fs₀ fs dev calls block)
    (hblock : 2 ≤ block) (hi : i ≤ 8) (hmap : ∀ k : Fin 8, i ≤ k.val → map k = none) :
    (8 < i + n ∧ 8 ≤ i + goodReads fs₀ dev calls block n →
      readMap dev n i block map fs = .error .wildPointer) ∧
    (¬ (8 < i + n ∧ 8 ≤ i + goodReads fs₀ dev calls block n) →
      ∃ fs', readMap dev n i block map fs =
        .ok (filled dev i (goodReads fs₀ dev calls block n) block map,
          block + goodReads fs₀ dev calls block n, fs') ∧
        Reading fs₀ fs' dev (calls + min (goodReads fs₀ dev calls block n + 1) n)
          (block + goodReads fs₀ dev calls block n) ∧ fs'.super = fs.super) := by
  induction n generalizing i block calls map fs with
  | zero => exact ⟨fun e => by omega, fun _ => ⟨fs, by rw [goodReads, filled_zero]; rfl, h, rfl⟩⟩
  | succ n ih =>
    cases ha : Fs.available fs₀ dev calls block with
    | true =>
      obtain ⟨data, fs₁, hbread, h₁, hsuper⟩ := h.good hroom hblock ha
      simp only [goodReads, ha, if_true]
      by_cases hin : i < 8
      · have hmap' : ∀ k : Fin 8, i + 1 ≤ k.val →
            Function.update map ⟨i, hin⟩ (some (dev, block)) k = none := by
          intro k hk
          have hne : k ≠ ⟨i, hin⟩ := fun e => by
            subst e
            exact Nat.not_succ_le_self i hk
          rw [Function.update_of_ne hne]
          exact hmap k (by omega)
        have hturn : readMap dev (n + 1) i block map fs =
            readMap dev n (i + 1) (block + 1) (Function.update map ⟨i, hin⟩ (some (dev, block)))
              fs₁ := by
          simp only [readMap, hbread, bind, Except.bind]
          exact dif_pos hin
        obtain ⟨hbad, hgood⟩ := ih _ _ h₁ (by omega) (by omega) hmap'
        generalize goodReads fs₀ dev (calls + 1) (block + 1) n = g at hbad hgood ⊢
        refine ⟨fun e => hturn.trans (hbad (by omega)), fun e => ?_⟩
        obtain ⟨fs₂, hread, h₂, hsuper₂⟩ := hgood (by omega)
        rw [filled_succ, show block + 1 + g = block + (g + 1) by omega] at hread
        rw [show block + 1 + g = block + (g + 1) by omega] at h₂
        rw [show calls + min (g + 1 + 1) (n + 1) = calls + 1 + min (g + 1) n by omega]
        exact ⟨fs₂, hturn.trans hread, h₂, hsuper₂.trans hsuper⟩
      · have hout : readMap dev (n + 1) i block map fs = .error .wildPointer := by
          simp only [readMap, hbread, bind, Except.bind]
          exact dif_neg hin
        exact ⟨fun _ => hout, fun e => absurd ⟨by omega, by omega⟩ e⟩
    | false =>
      obtain ⟨fs₁, hbread, h₁, hsuper⟩ := h.bad hroom ha
      have hzero : goodReads fs₀ dev calls block (n + 1) = 0 := by simp [goodReads, ha]
      rw [hzero]
      by_cases hin : i < 8
      · have hmap₀ : Function.update map ⟨i, hin⟩ none = map := by
          rw [← hmap ⟨i, hin⟩ (Nat.le_refl i)]
          exact Function.update_eq_self _ map
        refine ⟨fun e => by omega, fun _ => ⟨fs₁, ?_, ?_, hsuper⟩⟩
        · simp only [readMap, hbread, bind, Except.bind]
          rw [dif_pos (show i < MAP_SLOTS from hin), hmap₀, filled_zero]
          rfl
        · rw [show calls + min (0 + 1) (n + 1) = calls + 1 by omega]
          exact h₁
      · have hout : readMap dev (n + 1) i block map fs = .error .wildPointer := by
          simp only [readMap, hbread, bind, Except.bind]
          exact dif_neg hin
        exact ⟨fun _ => hout, fun e => absurd ⟨by omega, by omega⟩ e⟩

/-- A list of buffers is released if each is held as often as it is listed. -/
theorem brelse_list (l : List (Option BufferName)) (fs : FileSystem)
    (h : ∀ d b, l.count (some (d, b)) ≤ bufferCount fs d b) :
    ∃ fs', l.foldlM brelsePtr fs = .ok fs' ∧ fs'.super = fs.super ∧
      ∀ d b, bufferCount fs' d b + l.count (some (d, b)) = bufferCount fs d b := by
  induction l generalizing fs with
  | nil => exact ⟨fs, rfl, rfl, fun d b => rfl⟩
  | cons p l ih =>
    cases p with
    | none =>
      obtain ⟨fs', hfold, hsuper, hcount⟩ := ih fs fun d b => by simpa using h d b
      exact ⟨fs', hfold, hsuper, fun d b => by simpa using hcount d b⟩
    | some p =>
      obtain ⟨d₀, b₀⟩ := p
      have hself := h d₀ b₀
      rw [List.count_cons_self] at hself
      cases hb : fs.buffer d₀ b₀ with
      | none =>
        rw [bufferCount, hb] at hself
        simp at hself
      | some bh =>
        have hcount₀ := bufferCount_of_some hb
        have hrel : brelse d₀ b₀ fs =
          .ok (fs.setBuffer d₀ b₀ (some { bh with count := bh.count - 1 })) :=
          brelse_eq_ok.mpr ⟨bh, hb, by omega, rfl⟩
        have hdrop : ∀ d b, bufferCount
          (fs.setBuffer d₀ b₀ (some { bh with count := bh.count - 1 })) d b +
            (if d = d₀ ∧ b = b₀ then 1 else 0) = bufferCount fs d b := by
          intro d b
          rw [bufferCount_setBuffer]
          split
          · rename_i e
            rw [e.1, e.2, hcount₀]
            change bh.count - 1 + 1 = bh.count
            omega
          · rfl
        have hlist : ∀ d b, (some (d₀, b₀) :: l).count (some (d, b)) =
            l.count (some (d, b)) + if d = d₀ ∧ b = b₀ then 1 else 0 := by
          intro d b
          have hiff : (some (d₀, b₀) == some (d, b)) = true ↔ d = d₀ ∧ b = b₀ := by
            rw [beq_iff_eq, Option.some.injEq, Prod.mk.injEq]
            exact and_congr eq_comm eq_comm
          simp only [List.count_cons, hiff]
        obtain ⟨fs', hfold, hsuper, hcount⟩ :=
          ih (fs.setBuffer d₀ b₀ (some { bh with count := bh.count - 1 }))
          fun d b => by
            have hle := h d b
            rw [hlist, ← hdrop d b] at hle
            omega
        refine ⟨fs', ?_, hsuper, fun d b => ?_⟩
        · simp only [List.foldlM_cons, brelsePtr, hrel]
          exact hfold
        · rw [hlist, ← hdrop d b, ← hcount d b]
          omega

theorem mapAt_filled (dev g block : Nat) (hg : g ≤ 8) (k : Nat) :
    mapAt (filled dev 0 g block fun _ => none) k = if k < g then some (dev, block + k)
      else none := by
  unfold mapAt
  by_cases hk : k < MAP_SLOTS
  · simp [hk, filled]
  · have hkg : ¬ k < g := fun e => hk (Nat.lt_of_lt_of_le e hg)
    simp [hk, hkg]

theorem count_filled (dev g block : Nat) (hg : g ≤ 8) (d b : Nat) :
    ((List.range MAP_SLOTS).map (mapAt (filled dev 0 g block fun _ => none))).count (some (d, b)) =
      if d = dev ∧ block ≤ b ∧ b < block + g then 1 else 0 := by
  have hrange : ∀ m, ((List.range m).map (mapAt (filled dev 0 g block fun _ => none))).count
    (some (d, b)) =
      if d = dev ∧ block ≤ b ∧ b < block + min g m then 1 else 0 := by
    intro m
    induction m with
    | zero =>
      rw [if_neg fun e => by omega]
      rfl
    | succ m ih =>
      rw [List.range_succ, List.map_append, List.count_append, ih, List.map_singleton,
        mapAt_filled dev g block hg m]
      by_cases hm : m < g
      · have hiff : (some (dev, block + m) == some (d, b)) = true ↔ d = dev ∧ b = block + m := by
          rw [beq_iff_eq, Option.some.injEq, Prod.mk.injEq]
          exact and_congr eq_comm eq_comm
        simp only [hm, if_true, List.count_singleton, hiff]
        by_cases hd : d = dev
        · simp only [hd, true_and]
          split
          · rw [if_neg (by omega), if_pos (by omega)]
          · split
            · rw [if_pos (by omega)]
            · rw [if_neg (by omega)]
        · simp [hd]
      · have hmin : min g (m + 1) = min g m := by omega
        simp [hm, hmin]
  rw [hrange MAP_SLOTS, show min g MAP_SLOTS = g from Nat.min_eq_left hg]

theorem span_add (P : Prop) [Decidable P] (lo i z b : Nat) :
    (if P ∧ lo ≤ b ∧ b < lo + i then 1 else 0) + (if P ∧ lo + i ≤ b ∧
      b < lo + i + z then 1 else 0) =
      if P ∧ lo ≤ b ∧ b < lo + i + z then 1 else 0 := by
  by_cases hP : P
  · simp only [hP, true_and]
    by_cases hlo : lo ≤ b ∧ b < lo + i
    · rw [if_pos hlo, if_neg (by omega), if_pos (by omega)]
    · by_cases hz : lo + i ≤ b ∧ b < lo + i + z
      · rw [if_neg hlo, if_pos hz, if_pos (by omega)]
      · rw [if_neg hlo, if_neg hz, if_neg (by omega)]
  · simp [hP]

theorem goodReads_le (fs : FileSystem) (dev calls block n : Nat) :
    goodReads fs dev calls block n ≤ n := by
  induction n generalizing calls block with
  | zero => exact Nat.le_refl 0
  | succ n ih =>
    unfold goodReads
    split
    · have hle := ih (calls + 1) (block + 1)
      omega
    · omega

theorem markFirst_ok {map : Fin 8 → Option BufferName} {d b : Nat} (hmap : map 0 = some (d, b))
    (hheld : bufferCount fs d b ≠ 0) :
    ∃ fs', markFirst map fs = .ok fs' ∧ fs'.super = fs.super ∧
    ∀ e c, bufferCount fs' e c = bufferCount fs e c := by
  cases hb : fs.buffer d b with
  | none =>
    rw [bufferCount, hb] at hheld
    simp at hheld
  | some bh =>
    refine ⟨fs.setBuffer d b
      (some { bh with data := Function.update bh.data 0 (bh.data 0 ||| 1#8) }),
      by simp only [markFirst, hmap, hb], rfl, fun e c => ?_⟩
    rw [bufferCount_setBuffer]
    split
    · rename_i he
      rw [he.1, he.2, bufferCount_of_some hb]
    · rfl

theorem filled_first (dev g block : Nat) :
    filled dev 0 g block (fun _ => none) 0 = if 0 < g then some (dev, block) else none := by
  by_cases hg : 0 < g
  · simp [filled, hg]
  · simp [filled, hg]

section Bitmaps
variable {s : Mounts} {k : Fin NR_SUPER} {sb : SuperBlock} {i z : Nat}

theorem readBitmaps_wild (hroom : ∀ b, bufferCount fs₀ dev b < 255) (h : Reading fs₀ s.fs dev 1 2)
    (hsb : s.fs.super k = sb) (hi : goodReads fs₀ dev 1 2 sb.sImapBlocks = i)
    (hz : goodReads fs₀ dev (1 + min (i + 1) sb.sImapBlocks) (2 + i) sb.sZmapBlocks = z)
    (hout : 8 < sb.sImapBlocks ∧ 8 ≤ i ∨ 8 < sb.sZmapBlocks ∧ 8 ≤ z) :
    readBitmaps dev k s = .error .wildPointer := by
  obtain ⟨hbad, hgood⟩ := readMap_eq sb.sImapBlocks 0 (fun _ => none) hroom h (Nat.le_refl 2)
    (Nat.zero_le 8) fun _ _ => rfl
  rw [hi] at hbad hgood
  by_cases hI : 8 < sb.sImapBlocks ∧ 8 ≤ i
  · simp only [readBitmaps, hsb, hbad (by omega), bind, Except.bind]
  · obtain ⟨fs₁, hread, h₁, -⟩ := hgood (by omega)
    obtain ⟨hbad', -⟩ := readMap_eq sb.sZmapBlocks 0 (fun _ => none) hroom h₁ (by omega)
      (Nat.zero_le 8) fun _ _ => rfl
    rw [hz] at hbad'
    simp only [readBitmaps, hsb, hread, bind, Except.bind,
      hbad' (by have := hout.resolve_left hI; omega)]

theorem readBitmaps_loops (hroom : ∀ b, bufferCount fs₀ dev b < 255) (h : Reading fs₀ s.fs dev 1 2)
    (hsb : s.fs.super k = sb) (hi : goodReads fs₀ dev 1 2 sb.sImapBlocks = i)
    (hz : goodReads fs₀ dev (1 + min (i + 1) sb.sImapBlocks) (2 + i) sb.sZmapBlocks = z)
    (hI : ¬ (8 < sb.sImapBlocks ∧ 8 ≤ i)) (hZ : ¬ (8 < sb.sZmapBlocks ∧ 8 ≤ z)) :
    ∃ t : Mounts, t.fs.super k = { sb with
          sImap := filled dev 0 i 2 fun _ => none
          sZmap := filled dev 0 z (2 + i) fun _ => none } ∧
      (∀ d b, bufferCount t.fs d b = bufferCount fs₀ d b + if d = dev ∧ 2 ≤ b ∧
        b < 2 + i + z then 1 else 0) ∧
      readBitmaps dev k s =
        if 2 + i + z ≠ 2 + sb.sImapBlocks + sb.sZmapBlocks then do
          let fs ← brelseMap (filled dev 0 i 2 fun _ => none) t.fs
          let fs ← brelseMap (filled dev 0 z (2 + i) fun _ => none) fs
          return giveUp k { t with fs := fs }
        else do
          let fs ← markFirst (filled dev 0 i 2 fun _ => none) t.fs
          let fs ← markFirst (filled dev 0 z (2 + i) fun _ => none) fs
          return (some k, { t with fs := fs }.setLock k false) := by
  obtain ⟨-, hgood⟩ := readMap_eq sb.sImapBlocks 0 (fun _ => none) hroom h (Nat.le_refl 2)
    (Nat.zero_le 8) fun _ _ => rfl
  rw [hi] at hgood
  obtain ⟨fs₁, hread, h₁, -⟩ := hgood (by omega)
  obtain ⟨-, hgood'⟩ := readMap_eq sb.sZmapBlocks 0 (fun _ => none) hroom h₁ (by omega)
    (Nat.zero_le 8) fun _ _ => rfl
  rw [hz] at hgood'
  obtain ⟨fs₂, hread', h₂, -⟩ := hgood' (by omega)
  refine ⟨{ s with fs := fs₂ }.setSuper k { sb with
    sImap := filled dev 0 i 2 fun _ => none
    sZmap := filled dev 0 z (2 + i) fun _ => none }, by simp [Mounts.setSuper], h₂.count, ?_⟩
  simp only [readBitmaps, hsb, hread, hread', bind, Except.bind]

theorem readBitmaps_short (hroom : ∀ b, bufferCount fs₀ dev b < 255)
    (h : Reading fs₀ s.fs dev 1 2) (hsb : s.fs.super k = sb)
    (hi : goodReads fs₀ dev 1 2 sb.sImapBlocks = i)
    (hz : goodReads fs₀ dev (1 + min (i + 1) sb.sImapBlocks) (2 + i) sb.sZmapBlocks = z)
    (hI : ¬ (8 < sb.sImapBlocks ∧ 8 ≤ i)) (hZ : ¬ (8 < sb.sZmapBlocks ∧ 8 ≤ z))
    (hshort : ¬ (i = sb.sImapBlocks ∧ z = sb.sZmapBlocks)) :
    ∃ t : Mounts, readBitmaps dev k s = .ok (none, t) ∧ (t.fs.super k).sDev = 0 ∧
    t.sLock k = false ∧
      ∀ d b, bufferCount t.fs d b = bufferCount fs₀ d b := by
  have hile := goodReads_le fs₀ dev 1 2 sb.sImapBlocks
  have hzle := goodReads_le fs₀ dev (1 + min (i + 1) sb.sImapBlocks) (2 + i) sb.sZmapBlocks
  rw [hi] at hile
  rw [hz] at hzle
  obtain ⟨t, -, hcount, hread⟩ := readBitmaps_loops hroom h hsb hi hz hI hZ
  have hspan := fun d b => span_add (d = dev) 2 i z b
  obtain ⟨fs₁, hrel₁, -, hcount₁⟩ := brelse_list
    ((List.range MAP_SLOTS).map (mapAt (filled dev 0 i 2 fun _ => none))) t.fs fun d b => by
      rw [count_filled dev i 2 (by omega), hcount d b, ← hspan d b]
      omega
  obtain ⟨fs₂, hrel₂, -, hcount₂⟩ := brelse_list
    ((List.range MAP_SLOTS).map (mapAt (filled dev 0 z (2 + i) fun _ => none))) fs₁ fun d b => by
      have h₁ := hcount₁ d b
      rw [count_filled dev i 2 (by omega), hcount d b, ← hspan d b] at h₁
      rw [count_filled dev z (2 + i) (by omega)]
      omega
  refine ⟨(giveUp k { t with fs := fs₂ }).2, ?_, by simp [giveUp, Mounts.setSuper, Mounts.setLock],
    by simp [giveUp, Mounts.setLock], fun d b => ?_⟩
  · rw [hread, if_pos (by omega), brelseMap, hrel₁]
    simp only [bind, Except.bind, brelseMap, hrel₂]
    rfl
  · have h₁ := hcount₁ d b
    have h₂ := hcount₂ d b
    rw [count_filled dev i 2 (by omega), hcount d b, ← hspan d b] at h₁
    rw [count_filled dev z (2 + i) (by omega)] at h₂
    change bufferCount fs₂ d b = _
    omega

theorem readBitmaps_none (hroom : ∀ b, bufferCount fs₀ dev b < 255) (h : Reading fs₀ s.fs dev 1 2)
    (hsb : s.fs.super k = sb) (hi : goodReads fs₀ dev 1 2 sb.sImapBlocks = i)
    (hz : goodReads fs₀ dev (1 + min (i + 1) sb.sImapBlocks) (2 + i) sb.sZmapBlocks = z)
    (hI : ¬ (8 < sb.sImapBlocks ∧ 8 ≤ i)) (hZ : ¬ (8 < sb.sZmapBlocks ∧ 8 ≤ z))
    (hfull : i = sb.sImapBlocks ∧ z = sb.sZmapBlocks) (hnone : i = 0 ∨ z = 0) :
    readBitmaps dev k s = .error .wildPointer := by
  obtain ⟨t, -, hcount, hread⟩ := readBitmaps_loops hroom h hsb hi hz hI hZ
  rw [hread, if_neg (by omega)]
  by_cases hi0 : i = 0
  · have hfirst : filled dev 0 i 2 (fun _ => none) 0 = none := by
      rw [filled_first, if_neg (by omega)]
    simp only [markFirst, hfirst, bind, Except.bind]
  · have hfirst : filled dev 0 i 2 (fun _ => none) 0 = some (dev, 2) := by
      rw [filled_first, if_pos (by omega)]
    have hlast : filled dev 0 z (2 + i) (fun _ => none) 0 = none := by
      rw [filled_first, if_neg (by omega)]
    have hheld : bufferCount t.fs dev 2 ≠ 0 := by
      rw [hcount, if_pos ⟨rfl, Nat.le_refl 2, by omega⟩]
      omega
    obtain ⟨fs₁, hmark, -⟩ := markFirst_ok hfirst hheld
    rw [hmark]
    simp only [bind, Except.bind, markFirst, hlast]

theorem readBitmaps_full (hroom : ∀ b, bufferCount fs₀ dev b < 255) (h : Reading fs₀ s.fs dev 1 2)
    (hsb : s.fs.super k = sb) (hi : goodReads fs₀ dev 1 2 sb.sImapBlocks = i)
    (hz : goodReads fs₀ dev (1 + min (i + 1) sb.sImapBlocks) (2 + i) sb.sZmapBlocks = z)
    (hI : ¬ (8 < sb.sImapBlocks ∧ 8 ≤ i)) (hZ : ¬ (8 < sb.sZmapBlocks ∧ 8 ≤ z))
    (hfull : i = sb.sImapBlocks ∧ z = sb.sZmapBlocks) (hi0 : 0 < i) (hz0 : 0 < z) :
    ∃ t : Mounts, readBitmaps dev k s = .ok (some k, t) ∧
      t.fs.super k = { sb with
        sImap := filled dev 0 i 2 fun _ => none
        sZmap := filled dev 0 z (2 + i) fun _ => none } ∧
      ∀ d b, bufferCount t.fs d b = bufferCount fs₀ d b + if d = dev ∧ 2 ≤ b ∧ b < 2 + i + z then 1
        else 0 := by
  obtain ⟨t, hsuper, hcount, hread⟩ := readBitmaps_loops hroom h hsb hi hz hI hZ
  have hfirst : filled dev 0 i 2 (fun _ => none) 0 = some (dev, 2) := by
    rw [filled_first, if_pos hi0]
  have hlast : filled dev 0 z (2 + i) (fun _ => none) 0 = some (dev, 2 + i) := by
    rw [filled_first, if_pos hz0]
  have hheld : bufferCount t.fs dev 2 ≠ 0 := by
    rw [hcount, if_pos ⟨rfl, Nat.le_refl 2, by omega⟩]
    omega
  obtain ⟨fs₁, hmark₁, hsuper₁, hcount₁⟩ := markFirst_ok hfirst hheld
  have hheld' : bufferCount fs₁ dev (2 + i) ≠ 0 := by
    rw [hcount₁, hcount, if_pos ⟨rfl, by omega, by omega⟩]
    omega
  obtain ⟨fs₂, hmark₂, hsuper₂, hcount₂⟩ := markFirst_ok hlast hheld'
  refine ⟨{ t with fs := fs₂ }.setLock k false, ?_, ?_, fun d b => ?_⟩
  · rw [hread, if_neg (by omega), hmark₁]
    simp only [bind, Except.bind, hmark₂]
    rfl
  · change fs₂.super k = _
    rw [hsuper₂, hsuper₁, hsuper]
  · change bufferCount fs₂ d b = _
    rw [hcount₂, hcount₁, hcount]

end Bitmaps

section Slot
variable {s : Mounts} {k : Fin NR_SUPER}

def GaveUp (fs : FileSystem) (k : Fin NR_SUPER)
    (r : Except Panic (Option (Fin NR_SUPER) × Mounts)) : Prop :=
  ∃ t : Mounts, r = .ok (none, t) ∧ (t.fs.super k).sDev = 0 ∧ t.sLock k = false ∧
    ∀ d b, bufferCount t.fs d b = bufferCount fs d b

theorem readIntoSlot_unread (hroom : ∀ b, bufferCount s.fs dev b < 255) (hlock : s.sLock k = false)
    (ha : available s.fs dev 0 1 = false) : GaveUp s.fs k (readIntoSlot dev k s) := by
  set s₁ := (s.setSuper k { s.fs.super k with sDev := dev % 65536, sImount := .null }).setLock k
    true with hs₁
  have hstart : Reading s.fs s₁.fs dev 0 1 := by
    refine ⟨rfl, rfl, fun b _ => rfl, fun d b => ?_⟩
    rw [if_neg fun e => by omega]
    rfl
  obtain ⟨fs₁, hbread, h₁, -⟩ := hstart.bad hroom ha
  refine ⟨(giveUp k { s₁ with fs := fs₁ }).2, ?_, by simp [giveUp, Mounts.setSuper, Mounts.setLock],
    by simp [giveUp, Mounts.setLock], fun d b => ?_⟩
  · simp only [readIntoSlot, hlock, Bool.false_eq_true, if_false, ← hs₁, hbread, bind, Except.bind]
    rfl
  · change bufferCount fs₁ d b = _
    rw [h₁.count, if_neg fun e => by omega, Nat.add_zero]

theorem readIntoSlot_read (hroom : ∀ b, bufferCount s.fs dev b < 255) (hlock : s.sLock k = false)
    (ha : available s.fs dev 0 1 = true) :
    ∃ t : Mounts, Reading s.fs t.fs dev 1 2 ∧
    (t.fs.super k).sNinodes = (content s.fs dev 1).short 0 ∧
      (t.fs.super k).sNzones = (content s.fs dev 1).short 1 ∧
      (t.fs.super k).sImapBlocks = (content s.fs dev 1).short 2 ∧
      (t.fs.super k).sZmapBlocks = (content s.fs dev 1).short 3 ∧
      readIntoSlot dev k s =
        if (content s.fs dev 1).short 8 ≠ SUPER_MAGIC then .ok (giveUp k t)
          else readBitmaps dev k t := by
  set s₁ := (s.setSuper k { s.fs.super k with sDev := dev % 65536, sImount := .null }).setLock k
    true with hs₁
  have hlt := hroom 1
  have ha : available s₁.fs dev 0 1 = true := ha
  obtain ⟨bh, hbread, -, hup, hcount, -⟩ := bread_available ha
  have hcount₁ : bufferCount s₁.fs dev 1 = bufferCount s.fs dev 1 := rfl
  have hcontent : content s₁.fs dev 1 = content s.fs dev 1 := rfl
  rw [hcount₁] at hcount
  rw [hcontent] at hbread
  set fs₁ := { s₁.fs with reads := s₁.fs.reads + 1 }.setBuffer dev 1 (some bh) with hfs₁
  have hself : fs₁.buffer dev 1 = some bh := by simp [hfs₁, setBuffer_buffer]
  have hrel : brelse dev 1 fs₁ =
    .ok (fs₁.setBuffer dev 1 (some { bh with count := bh.count - 1 })) :=
    brelse_eq_ok.mpr ⟨bh, hself, by omega, rfl⟩
  set fs₂ := fs₁.setBuffer dev 1 (some { bh with count := bh.count - 1 }) with hfs₂
  refine ⟨{ s₁ with fs := fs₂ }.setSuper k { s₁.fs.super k with
    sNinodes := (content s.fs dev 1).short 0
    sNzones := (content s.fs dev 1).short 1
    sImapBlocks := (content s.fs dev 1).short 2
    sZmapBlocks := (content s.fs dev 1).short 3
    sFirstdatazone := (content s.fs dev 1).short 4 }, ⟨rfl, rfl, fun b hb => ?_, fun d b => ?_⟩, ?_,
      ?_, ?_, ?_, ?_⟩
  · refine (cached_setBuffer fs₁ dev 1 _ dev b).trans ?_
    rw [if_neg fun e => by omega]
    refine (cached_setBuffer _ dev 1 bh dev b).trans ?_
    rw [if_neg fun e => by omega]
    rfl
  · rw [if_neg fun e => by omega, Nat.add_zero]
    refine (bufferCount_setBuffer fs₁ dev 1 _ d b).trans ?_
    by_cases e : d = dev ∧ b = 1
    · rw [if_pos e, e.1, e.2]
      change bh.count - 1 = bufferCount s.fs dev 1
      omega
    · rw [if_neg e]
      refine (bufferCount_setBuffer _ dev 1 bh d b).trans ?_
      rw [if_neg e]
      rfl
  · simp [Mounts.setSuper]
  · simp [Mounts.setSuper]
  · simp [Mounts.setSuper]
  · simp [Mounts.setSuper]
  · simp only [readIntoSlot, hlock, Bool.false_eq_true, if_false, ← hs₁, hbread, bind,
      Except.bind, hrel]
    split
    · rfl
    · rfl

end Slot

theorem countFree_returns {map : Fin 8 → Option BufferName} {n : Nat}
    (h : ∀ i < n, ∃ d b, mapAt map (i / 8192) = some (d, b) ∧ fs.buffer d b ≠ none) :
    Returns (fun _ => True) (countFree map n fs) := by
  refine Ends.foldlM (I := fun _ => True) trivial fun free i hi _ => ?_
  rw [List.mem_reverse, List.mem_range] at hi
  obtain ⟨d, b, hmap, hb⟩ := h i hi
  obtain ⟨bh, hbh⟩ := Option.ne_none_iff_exists'.mp hb
  simp only [hmap, hbh]
  trivial

theorem Held.of_filled {g lo j : Nat} (hg : g ≤ 8) (hj : j < g)
    (hheld : ∀ b, lo ≤ b → b < lo + g → bufferCount fs dev b ≠ 0) :
    Held fs (mapAt (filled dev 0 g lo fun _ => none) j) :=
  ⟨dev, lo + j, by rw [mapAt_filled dev g lo hg, if_pos hj], hheld (lo + j) (by omega) (by omega)⟩

theorem Held.lt_of_filled {g lo j : Nat} (hg : g ≤ 8)
    (h : Held fs (mapAt (filled dev 0 g lo fun _ => none) j)) :
    j < g := by
  obtain ⟨d, b, hat, -⟩ := h
  rw [mapAt_filled dev g lo hg] at hat
  by_cases hj : j < g
  · exact hj
  · rw [if_neg hj] at hat
    cases hat

/-- A covered super block can be counted for as long as its bitmaps are held. -/
theorem Covers.countable {fs' : FileSystem} {sb : SuperBlock} (h : Covers fs sb)
    (hkept : ∀ d b, bufferCount fs d b ≠ 0 → fs'.buffer d b ≠ none) :
    Returns (fun _ => True) (countFree sb.sZmap sb.sNzones fs') ∧
      Returns (fun _ => True) (countFree sb.sImap (sb.sNinodes + 1) fs') := by
  refine ⟨countFree_returns fun i hi => ?_, countFree_returns fun i hi => ?_⟩
  · obtain ⟨d, b, hat, hheld⟩ := h.zmap i hi
    exact ⟨d, b, hat, hkept d b hheld⟩
  · obtain ⟨d, b, hat, hheld⟩ := h.imap i (Nat.lt_succ_iff.mp hi)
    exact ⟨d, b, hat, hkept d b hheld⟩

variable {s : Mounts}

theorem GaveUp.ok {k : Fin NR_SUPER} (hfree : findSuper 0 s.fs = some k)
    (hread : readSuper dev s = readIntoSlot dev k s) (h : GaveUp s.fs k (readIntoSlot dev k s)) :
    ReadSuperOk dev s := by
  obtain ⟨t, ht, hdev, hlock, hcount⟩ := h
  rw [ReadSuperOk, hread, ht]
  refine ⟨fun k' hk' => ?_, hcount⟩
  obtain rfl : k = k' := Option.some.inj (hfree.symm.trans hk')
  exact ⟨hdev, hlock⟩

theorem readIntoSlot_ok_iff {k : Fin NR_SUPER} (hfree : findSuper 0 s.fs = some k)
    (hread : readSuper dev s = readIntoSlot dev k s) (hroom : ∀ b, bufferCount s.fs dev b < 255)
    (hlock : s.sLock k = false) (ha : available s.fs dev 0 1 = true)
    (hmagic : (content s.fs dev 1).short 8 = SUPER_MAGIC) :
    ReadSuperOk dev s ↔ SizesFit s.fs dev := by
  obtain ⟨t, hstart, hninodes, hnzones, himap, hzmap, hslot⟩ := readIntoSlot_read hroom hlock ha
  rw [if_neg (not_not.mpr hmagic)] at hslot
  rw [SizesFit]
  generalize hsb : t.fs.super k = sb at hninodes hnzones himap hzmap
  simp only [← hninodes, ← hnzones, ← himap, ← hzmap]
  generalize hi : goodReads s.fs dev 1 2 sb.sImapBlocks = i
  generalize hz : goodReads s.fs dev (1 + min (i + 1) sb.sImapBlocks) (2 + i) sb.sZmapBlocks = z
  have hile : i ≤ sb.sImapBlocks := hi ▸ goodReads_le ..
  have hzle : z ≤ sb.sZmapBlocks := hz ▸ goodReads_le ..
  by_cases hout : 8 < sb.sImapBlocks ∧ 8 ≤ i ∨ 8 < sb.sZmapBlocks ∧ 8 ≤ z
  · refine iff_of_false (fun h => ?_) fun h => ?_
    · rw [ReadSuperOk, hread, hslot, readBitmaps_wild hroom hstart hsb hi hz hout] at h
      cases h
    · exact hout.elim h.1 h.2.1
  · obtain ⟨hI, hZ⟩ := not_or.mp hout
    by_cases hfull : i = sb.sImapBlocks ∧ z = sb.sZmapBlocks
    · by_cases hnone : i = 0 ∨ z = 0
      · refine iff_of_false (fun h => ?_) fun h => ?_
        · rw [ReadSuperOk, hread, hslot,
            readBitmaps_none hroom hstart hsb hi hz hI hZ hfull hnone] at h
          cases h
        · have hsizes := h.2.2 hfull.1 hfull.2
          omega
      · obtain ⟨u, hu, hsuper, hcount⟩ :=
          readBitmaps_full hroom hstart hsb hi hz hI hZ hfull (by omega) (by omega)
        rw [ReadSuperOk, hread, hslot, hu]
        change (Covers u.fs (u.fs.super k) ∧ _) ↔ _
        rw [hsuper]
        constructor
        · rintro ⟨hcovers, _⟩
          refine ⟨hI, hZ, fun _ _ => ?_⟩
          have himax := (hcovers.imap sb.sNinodes (Nat.le_refl _)).lt_of_filled (by omega)
          by_cases hzero : sb.sNzones = 0
          · omega
          · have hzmax := (hcovers.zmap (sb.sNzones - 1)
              (by change _ < sb.sNzones; omega)).lt_of_filled (by omega)
            omega
        · rintro ⟨_, _, hsizes⟩
          have hsizes := hsizes hfull.1 hfull.2
          have hheld : ∀ b, 2 ≤ b → b < 2 + i + z →
              bufferCount u.fs dev b ≠ 0 := fun b hlo hhi => by
            rw [hcount, if_pos ⟨rfl, hlo, hhi⟩]
            omega
          have hcovers : Covers u.fs { sb with
              sImap := filled dev 0 i 2 fun _ => none, sZmap := filled dev 0 z (2 + i) fun _ =>
                none } := by
            refine ⟨fun j hj => .of_filled (by omega) ?_ fun b hlo hhi => hheld b hlo (by omega),
              fun j hj => .of_filled (by omega) ?_ fun b hlo hhi => hheld b (by omega) hhi⟩
            · have hj : j ≤ sb.sNinodes := hj
              omega
            · have hj : j < sb.sNzones := hj
              omega
          exact ⟨hcovers, fun fs hkept => hcovers.countable hkept⟩
    · have hgave : GaveUp s.fs k (readIntoSlot dev k s) := by
        rw [hslot]
        exact readBitmaps_short hroom hstart hsb hi hz hI hZ hfull
      exact iff_of_true (hgave.ok hfree hread) ⟨hI, hZ, fun e e' => absurd ⟨e, e'⟩ hfull⟩

/-- On a device that is not in the table yet, `read_super` does what is asked of it
exactly when, should there be a free slot and a magic number, the sizes fit. -/
theorem read_super_ok_iff (hdev : dev ≠ 0) (hnew : ∀ k, (s.fs.super k).sDev ≠ dev)
    (hroom : ∀ b, bufferCount s.fs dev b < 255) :
    ReadSuperOk dev s ↔ ∀ k, findSuper 0 s.fs = some k → s.sLock k = false →
    available s.fs dev 0 1 = true →
      (content s.fs dev 1).short 8 = SUPER_MAGIC → SizesFit s.fs dev := by
  have habsent : findSuper dev s.fs = none := by
    refine List.find?_eq_none.mpr fun k _ => ?_
    simpa using hnew k
  cases hfree : findSuper 0 s.fs with
  | none =>
    have hread : readSuper dev s = .ok (none, s) := by
      simp only [readSuper, if_neg hdev, habsent, hfree]
    refine iff_of_true ?_ fun k hk => by cases hk
    rw [ReadSuperOk, hread]
    refine ⟨fun k hk => ?_, fun d b => rfl⟩
    rw [hfree] at hk
    cases hk
  | some k =>
    have hread : readSuper dev s = readIntoSlot dev k s := by
      simp only [readSuper, if_neg hdev, habsent, hfree]
    have hsome : ∀ P : Prop, (∀ k', some k = some k' → s.sLock k' = false → P) ↔
      (s.sLock k = false → P) :=
      fun P => ⟨fun h => h k rfl, fun h k' hk' => Option.some.inj hk' ▸ h⟩
    rw [hsome]
    cases hlock : s.sLock k with
    | true =>
      refine iff_of_true ?_ fun e => by cases e
      rw [ReadSuperOk, hread, readIntoSlot, if_pos hlock]
      rfl
    | false =>
      cases ha : available s.fs dev 0 1 with
      | false =>
        exact iff_of_true ((readIntoSlot_unread hroom hlock ha).ok hfree hread) fun _ e => by
          cases e
      | true =>
        by_cases hmagic : (content s.fs dev 1).short 8 = SUPER_MAGIC
        · rw [readIntoSlot_ok_iff hfree hread hroom hlock ha hmagic]
          exact ⟨fun h _ _ _ => h, fun h => h rfl rfl hmagic⟩
        · refine iff_of_true ?_ fun _ _ e => absurd e hmagic
          obtain ⟨t, hstart, -, -, -, -, hslot⟩ := readIntoSlot_read hroom hlock ha
          rw [if_pos hmagic] at hslot
          refine GaveUp.ok hfree hread
            ⟨(giveUp k t).2, hslot, by simp [giveUp, Mounts.setSuper, Mounts.setLock],
            by simp [giveUp, Mounts.setLock], fun d b => ?_⟩
          change bufferCount t.fs d b = _
          rw [hstart.count, if_neg fun e => by omega, Nat.add_zero]

section SmallDisk

/-- A device with 32 inodes and 16 zones that claims `imap` and `zmap` bitmap blocks. -/
def claiming (imap zmap : Byte) (_dev block : Nat) : Block := fun j =>
  if block = 1 then
    match j.val with
    | 0 => 32
    | 2 => 16
    | 4 => imap
    | 6 => zmap
    | 16 => 0x7F
    | 17 => 0x13
    | _ => 0
  else 0

def mountsOf (imap zmap : Byte) : Mounts :=
  ⟨{ smallFs with disk := claiming imap zmap, super := fun _ => { smallSuper with sDev := 0 } },
    fun _ => false⟩

/-- Nine blocks of the inode bitmap: the ninth pointer is stored behind `s_imap`. -/
theorem read_super_overruns :
    (∀ k, ((mountsOf 9 1).fs.super k).sDev ≠ 1) ∧ ¬ ReadSuperOk 1 (mountsOf 9 1) := by
  have hwild : (match readSuper 1 (mountsOf 9 1) with
    | .ok _ => true
    | .error e => decide (e = .asleep)) = false := by
    decide +kernel
  refine ⟨fun k => by decide +revert, fun h => ?_⟩
  rw [ReadSuperOk] at h
  cases hread : readSuper 1 (mountsOf 9 1) with
  | ok r =>
    rw [hread] at hwild
    cases hwild
  | error e =>
    rw [hread] at h hwild
    have h : e = .asleep := h
    simp [h] at hwild

theorem read_super_ok_small : ReadSuperOk 1 (mountsOf 1 1) := by
  have hroom : ∀ b, bufferCount (mountsOf 1 1).fs 1 b < 255 := fun _ => (by decide : 0 < 255)
  exact (read_super_ok_iff (by decide) (fun k => by decide +revert) hroom).mpr fun _ _ _ _ _ => by
    decide +kernel

end SmallDisk

end Hios.Fs
