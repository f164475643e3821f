import Hios.Fs.BadBlocks

/-! `file_read` against the bytes of the file: block after block of the zone tree, with
holes, up to the first block that cannot be read. -/
namespace Hios.Fs
open Hios.Outcome
variable {fs fs' fs₀ : FileSystem} {i : InodeIx} {filp : Fin NR_FILE} {pos left chars q k n z : Nat}
  {out : List Byte}

def fileByte (i : InodeIx) (fs : FileSystem) (p : Nat) : Byte :=
  let z := zoneAt i fs (p / BLOCK_SIZE)
  if z = 0 then 0 else content fs (fs.inode i).iDev z (Fin.ofNat 1024 (p % BLOCK_SIZE))

def fileBytes (i : InodeIx) (fs : FileSystem) (pos n : Nat) : List Byte :=
  (List.range n).map fun j => fileByte i fs (pos + j)

/-- The last read of `fs'` was that of the block at `pos`, and the driver has failed it. -/
structure StoppedAt (i : InodeIx) (fs fs' : FileSystem) (pos : Nat) : Prop where
  zone : zoneAt i fs (pos / BLOCK_SIZE) ≠ 0
  cold : cached fs (fs.inode i).iDev (zoneAt i fs (pos / BLOCK_SIZE)) = false
  failed : fs.readable (fs'.reads - 1) (fs.inode i).iDev (zoneAt i fs (pos / BLOCK_SIZE)) = false

/-- The indirect blocks can be read, and no buffer of the device is at the limit of its count. -/
structure IndirectRead (i : InodeIx) (fs : FileSystem) : Prop where
  indirect : ∀ z, IndirectBlock i fs z → z ≠ 0 → Readable fs (fs.inode i).iDev z
  counts : ∀ z, bufferCount fs (fs.inode i).iDev z < 255

structure BlockFails (i : InodeIx) (fs : FileSystem) (q : Nat) : Prop where
  mapped : q < MAPPABLE * BLOCK_SIZE
  zone : zoneAt i fs (q / BLOCK_SIZE) ≠ 0
  fails : Fails fs (fs.inode i).iDev (zoneAt i fs (q / BLOCK_SIZE))

theorem Still.zoneAt (h : Still fs fs') (i : InodeIx) (n : Nat) :
    zoneAt i fs' n = zoneAt i fs n := by
  simp only [Fs.zoneAt, h.only.inode, h.content]

theorem Still.indirectRead (h : Still fs fs') (hm : IndirectRead i fs) : IndirectRead i fs' := by
  refine ⟨fun z hz hne => ?_, fun z => ?_⟩
  · rw [h.only.inode]
    refine h.readable (hm.indirect z ?_ hne)
    simpa only [IndirectBlock, h.only.inode, h.content] using hz
  · rw [h.only.inode, h.counts]
    exact hm.counts z

theorem fileBytes_append (i : InodeIx) (fs : FileSystem) (pos m n : Nat) :
    fileBytes i fs pos m ++ fileBytes i fs (pos + m) n = fileBytes i fs pos (m + n) := by
  simp only [fileBytes, List.range_add, List.map_append, List.map_map, Function.comp_def,
    Nat.add_assoc]

theorem fileByte_in_block (hj : n < chars) (hfit : chars ≤ BLOCK_SIZE - pos % BLOCK_SIZE) :
    fileByte i fs (pos + n) = if zoneAt i fs (pos / BLOCK_SIZE) = 0 then 0
      else content fs (fs.inode i).iDev (zoneAt i fs (pos / BLOCK_SIZE))
        (Fin.ofNat 1024 (pos % BLOCK_SIZE + n)) := by
  simp only [BLOCK_SIZE] at hfit
  have hdiv : (pos + n) / BLOCK_SIZE = pos / BLOCK_SIZE := by
    simp only [BLOCK_SIZE]
    omega
  have hmod : (pos + n) % BLOCK_SIZE = pos % BLOCK_SIZE + n := by
    simp only [BLOCK_SIZE]
    omega
  simp only [fileByte, hdiv, hmod]

theorem fileBytes_hole (hz : zoneAt i fs (pos / BLOCK_SIZE) = 0)
    (hfit : chars ≤ BLOCK_SIZE - pos % BLOCK_SIZE) :
    List.replicate chars 0 = fileBytes i fs pos chars := by
  refine List.ext_getElem (by simp [fileBytes]) fun j hj _ => ?_
  rw [List.length_replicate] at hj
  simp only [List.getElem_replicate, fileBytes, List.getElem_map, List.getElem_range]
  rw [fileByte_in_block hj hfit, if_pos hz]

theorem fileBytes_block (hz : zoneAt i fs (pos / BLOCK_SIZE) ≠ 0)
    (hfit : chars ≤ BLOCK_SIZE - pos % BLOCK_SIZE) :
    (content fs (fs.inode i).iDev (zoneAt i fs (pos / BLOCK_SIZE))).bytes (pos % BLOCK_SIZE) chars =
      fileBytes i fs pos chars := by
  refine List.map_congr_left fun j hj => ?_
  rw [fileByte_in_block (List.mem_range.mp hj) hfit, if_neg hz]

theorem bytes_then (i : InodeIx) (fs : FileSystem) (out : List Byte) (pos chars k : Nat) :
    (out ++ fileBytes i fs pos chars) ++ fileBytes i fs (pos + chars) k = out ++ fileBytes i fs pos
      (chars + k) := by
  rw [List.append_assoc, fileBytes_append]

theorem bmap_zone (h : Passed fs₀ fs) (hn : n < MAPPABLE)
    (hcounts : ∀ z, bufferCount fs₀ (fs₀.inode i).iDev z < 255) :
    ∃ z fs', bmap i n fs = .ok (z, fs') ∧ Passed fs₀ fs' ∧
    (IndirectRead i fs₀ → z = zoneAt i fs₀ n) := by
  have hcounts' : ∀ z, bufferCount fs (fs.inode i).iDev z < 255 := fun z => by
    rw [h.still.only.inode, h.still.counts]
    exact hcounts z
  obtain ⟨z, fs', hbmap, hpassed⟩ := bmap_passed hn hcounts'
  refine ⟨z, fs', hbmap, h.trans hpassed, fun hm => ?_⟩
  obtain ⟨fs'', heq, -⟩ := bmap_eq hn (h.still.indirectRead hm).indirect fun z _ _ => hcounts' z
  exact (Prod.mk.inj (Except.ok.inj (hbmap.symm.trans heq))).1.trans (h.still.zoneAt i n)

theorem bread_stops (h : Passed fs₀ fs) (ha : available fs (fs₀.inode i).iDev 0 z = false)
    (hcounts : ∀ z, bufferCount fs₀ (fs₀.inode i).iDev z < 255) (hz : z ≠ 0) :
    ∃ fs', bread (fs₀.inode i).iDev z fs = .ok (none, fs') ∧ Passed fs₀ fs' ∧
      (z = zoneAt i fs₀ (pos / BLOCK_SIZE) → StoppedAt i fs₀ fs' pos) := by
  have hcount : bufferCount fs (fs₀.inode i).iDev z < 255 := by
    rw [h.still.counts]
    exact hcounts z
  obtain ⟨fs', hbread, hpassed⟩ := bread_lost ha hcount
  have hreads : fs'.reads = fs.reads + 1 := by
    have hboth := (bread_unavailable ha).symm.trans hbread
    split at hboth
    · cases hboth
    · rw [← (Prod.mk.inj (Except.ok.inj hboth)).2]
      rfl
  obtain ⟨hcold, hfailed⟩ : cached fs (fs₀.inode i).iDev z = false ∧
      fs.readable (fs.reads + 0) (fs₀.inode i).iDev z = false := Bool.or_eq_false_iff.mp ha
  refine ⟨fs', hbread, h.trans hpassed, fun hzone => ?_⟩
  subst hzone
  refine ⟨hz, Bool.eq_false_iff.mpr fun hc => ?_, ?_⟩
  · rw [h.still.cached _ _ hc] at hcold
    cases hcold
  · have hsame : fs.readable = fs₀.readable := by rw [h.still.only]
    rwa [hreads, Nat.add_sub_cancel, ← hsame]

/-- What the loop has read from `pos` on: all that was left, or up to a block that the driver has
failed to read. -/
structure BytesRead (i : InodeIx) (fs : FileSystem) (out : List Byte) (pos left : Nat)
  (r : List Byte × Nat × FileSystem)
    (k : Nat) : Prop where
  bytes : r.1 = out ++ fileBytes i fs pos k
  stopped : k < left → StoppedAt i fs r.2.2 (pos + k) ∧ (k ≠ 0 → (pos + k) % BLOCK_SIZE = 0)
  cut : ∀ q, pos ≤ q → BlockFails i fs q → pos + k ≤ q

/-- The loop has stored `k` bytes: those of the file, where the indirect blocks can be read. -/
structure Delivered (i : InodeIx) (fs : FileSystem) (out : List Byte) (pos left : Nat)
  (r : List Byte × Nat × FileSystem)
    (k : Nat) : Prop where
  length : r.1.length = out.length + k
  position : r.2.1 = pos + k
  still : Still fs r.2.2
  le : k ≤ left
  mapped : k ≠ 0 → pos + k ≤ MAPPABLE * BLOCK_SIZE
  reached : k < left → pos + k < MAPPABLE * BLOCK_SIZE
  read : IndirectRead i fs → BytesRead i fs out pos left r k

/-- The loop comes to blocks that cannot be mapped, and to no bad block before them. -/
def RunsOver (i : InodeIx) (fs : FileSystem) (pos left : Nat) : Prop :=
  MAPPABLE * BLOCK_SIZE < pos + left ∧ (IndirectRead i fs → ∀ q, pos ≤ q → ¬ BlockFails i fs q)

theorem Delivered.none (h : Still fs fs') (hreach : 0 < left → pos < MAPPABLE * BLOCK_SIZE)
    (hstop : IndirectRead i fs → 0 < left → StoppedAt i fs fs' pos) :
    Delivered i fs out pos left (out, pos, fs') 0 :=
  ⟨rfl, rfl, h, Nat.zero_le _, fun hk => absurd rfl hk, hreach, fun hm =>
    ⟨by simp [fileBytes], fun hk => ⟨hstop hm hk, fun hk => absurd rfl hk⟩, fun _ hq _ => hq⟩⟩

structure Piece (i : InodeIx) (fs : FileSystem) (pos chars : Nat) (piece : List Byte) : Prop where
  bytes : piece = fileBytes i fs pos chars
  cut : ∀ q, pos ≤ q → BlockFails i fs q → pos + chars ≤ q

theorem Delivered.behind {piece : List Byte} {r : List Byte × Nat × FileSystem}
    (hlen : piece.length = chars) (hpiece : IndirectRead i fs → Piece i fs pos chars piece)
    (hle : chars ≤ left) (hmapped : pos + chars ≤ MAPPABLE * BLOCK_SIZE)
    (haligned : chars < left → (pos + chars) % BLOCK_SIZE = 0)
    (h : Delivered i fs (out ++ piece) (pos + chars) (left - chars) r k) :
    Delivered i fs out pos left r (chars + k) := by
  have hrlen := h.length
  have hpos := h.position
  have hk := h.le
  rw [List.length_append, hlen] at hrlen
  refine ⟨by omega, by omega, h.still, by omega, fun _ => ?_, fun hlt => ?_,
    fun hm => ⟨?_, fun hlt => ?_, fun q hq hbad => ?_⟩⟩
  · by_cases hk0 : k = 0
    · rw [hk0]
      exact hmapped
    · have := h.mapped hk0
      omega
  · rw [← Nat.add_assoc]
    exact h.reached (by omega)
  · rw [(h.read hm).bytes, (hpiece hm).bytes, bytes_then]
  · obtain ⟨hstopped, hal⟩ := (h.read hm).stopped (by omega)
    rw [Nat.add_assoc] at hstopped hal
    refine ⟨hstopped, fun _ => ?_⟩
    by_cases hk0 : k = 0
    · rw [hk0]
      exact haligned (by omega)
    · exact hal hk0
  · rw [← Nat.add_assoc]
    exact (h.read hm).cut q ((hpiece hm).cut q hq hbad) hbad

theorem cut_of_good (hfit : chars ≤ BLOCK_SIZE - pos % BLOCK_SIZE) (hgood : ¬ BlockFails i fs pos)
    (hq : pos ≤ q) (hbad : BlockFails i fs q) : pos + chars ≤ q := by
  by_cases hin : pos + chars ≤ q
  · exact hin
  have hsame : q / BLOCK_SIZE = pos / BLOCK_SIZE := by
    simp only [BLOCK_SIZE] at hfit ⊢
    omega
  obtain ⟨hmapped, hzone, hfails⟩ := hbad
  rw [hsame] at hzone hfails
  exact absurd ⟨Nat.lt_of_le_of_lt hq hmapped, hzone, hfails⟩ hgood

/-- The loop delivers the bytes of the file, unless it comes to blocks that cannot be mapped. -/
theorem fileReadLoop_bytes (hcounts : ∀ z, bufferCount fs₀ (fs₀.inode i).iDev z < 255)
    (h : Passed fs₀ fs) (fuel : Nat) (hfuel : left ≤ fuel) :
    Ends (fun e => e = .blockTooBig ∧ RunsOver i fs₀ pos left)
      (fun r => ∃ k, Delivered i fs₀ out pos left r k)
      (fileReadLoop i fuel left pos out fs) := by
  induction fuel generalizing left pos out fs with
  | zero =>
    exact ⟨0, .none h.still (fun hleft => absurd hleft (by omega)) fun _ hleft =>
      absurd hleft (by omega)⟩
  | succ fuel ih =>
    unfold fileReadLoop
    by_cases hleft : left = 0
    · rw [if_pos hleft]
      exact ⟨0, .none h.still (fun hpos => absurd hpos (by omega)) fun _ hpos =>
        absurd hpos (by omega)⟩
    rw [if_neg hleft]
    by_cases hbig : MAPPABLE ≤ pos / BLOCK_SIZE
    · rw [bmap_big i hbig]
      have hover : MAPPABLE * BLOCK_SIZE ≤ pos := by
        simp only [MAPPABLE, BLOCK_SIZE] at hbig ⊢
        omega
      exact ⟨rfl, by omega, fun _ q hq hbad => absurd hbad.mapped (by omega)⟩
    obtain ⟨z, fs₁, hbmap, h₁, hzone⟩ := bmap_zone h (Nat.lt_of_not_le hbig) hcounts
    have hchars : min (BLOCK_SIZE - pos % BLOCK_SIZE) left ≤ BLOCK_SIZE - pos % BLOCK_SIZE :=
      Nat.min_le_left ..
    have hpos : 0 < min (BLOCK_SIZE - pos % BLOCK_SIZE) left := by
      simp only [BLOCK_SIZE]
      omega
    have hle : min (BLOCK_SIZE - pos % BLOCK_SIZE) left ≤ left := Nat.min_le_right ..
    have haligned : min (BLOCK_SIZE - pos % BLOCK_SIZE) left < left →
        (pos + min (BLOCK_SIZE - pos % BLOCK_SIZE) left) % BLOCK_SIZE = 0 := by
      simp only [BLOCK_SIZE]
      omega
    rw [hbmap]
    simp only [bind, Except.bind]
    generalize min (BLOCK_SIZE - pos % BLOCK_SIZE) left = chars at hchars hpos hle haligned ⊢
    have hmapped : pos + chars ≤ MAPPABLE * BLOCK_SIZE := by
      simp only [MAPPABLE, BLOCK_SIZE] at hbig hchars ⊢
      omega
    -- What the rest of the loop does, behind this turn's bytes.
    have hrest : ∀ {u : FileSystem} {piece : List Byte}, Passed fs₀ u → piece.length = chars →
        (IndirectRead i fs₀ → Piece i fs₀ pos chars piece) →
        Ends (fun e => e = .blockTooBig ∧ RunsOver i fs₀ pos left)
          (fun r => ∃ k, Delivered i fs₀ out pos left r k)
          (fileReadLoop i fuel (left - chars) (pos + chars) (out ++ piece) u) := by
      intro u piece hu hlen hpiece
      refine ((ih hu (by omega)).mono fun r hr => ?_).weaken fun _ hover => ?_
      · obtain ⟨k, hk⟩ := hr
        exact ⟨chars + k, hk.behind hlen hpiece hle hmapped haligned⟩
      · obtain ⟨herror, hbig, hnone⟩ := hover
        exact ⟨herror, by omega, fun hm q hq hbad => hnone hm q ((hpiece hm).cut q hq hbad) hbad⟩
    have hdev : (fs₁.inode i).iDev = (fs₀.inode i).iDev := by rw [h₁.still.only.inode]
    by_cases hz : z = 0
    · rw [if_pos hz]
      refine hrest h₁ List.length_replicate fun hm => ?_
      have hhole : zoneAt i fs₀ (pos / BLOCK_SIZE) = 0 := (hzone hm).symm.trans hz
      exact ⟨fileBytes_hole hhole hchars, fun q => cut_of_good hchars fun hbad => hbad.zone hhole⟩
    rw [if_neg hz, hdev]
    have hcount : bufferCount fs₁ (fs₀.inode i).iDev z < 255 := by
      rw [h₁.still.counts]
      exact hcounts z
    cases ha : available fs₁ (fs₀.inode i).iDev 0 z with
    | true =>
      obtain ⟨fs₂, fs₃, hbread, hrel, h₃⟩ := bread_passed ha hcount
      simp only [hbread, hrel]
      refine hrest (h₁.trans h₃) (by simp [Block.bytes]) fun hm => ?_
      obtain rfl := hzone hm
      refine ⟨?_, fun q => cut_of_good hchars fun hbad => ?_⟩
      · rw [h₁.still.content]
        exact fileBytes_block hz hchars
      · rw [(h₁.fails _ _ hbad.fails).unavailable] at ha
        cases ha
    | false =>
      obtain ⟨fs₂, hbread, h₂, hstop⟩ := bread_stops h₁ ha hcounts hz
      simp only [hbread]
      exact ⟨0, .none h₂.still (fun _ => by omega) fun hm _ => hstop (hzone hm)⟩

structure FileAnswer (i : InodeIx) (filp : Fin NR_FILE) (fs : FileSystem) (count k : Nat)
  (out : List Byte)
    (r : Int × List Byte × FileSystem) : Prop where
  result : r.1 = if k = 0 then -ERROR else k
  bytes : r.2.1 = out
  state : ∃ fs₁, Delivered i fs [] (fs.file filp).fPos count (out, (fs.file filp).fPos + k, fs₁) k ∧
    r.2.2 = fs₁.setFile filp { fs.file filp with fPos := (fs.file filp).fPos + k }

theorem fileRead_ends {count : Int} (hcounts : ∀ z, bufferCount fs (fs.inode i).iDev z < 255)
    (hcount : 0 < count) :
    Ends (fun e => e = .blockTooBig ∧ RunsOver i fs (fs.file filp).fPos count.toNat)
      (fun r => ∃ k out, FileAnswer i filp fs count.toNat k out r) (fileRead i filp count fs) := by
  unfold fileRead
  rw [if_neg (show ¬ count ≤ 0 by omega)]
  refine (@fileReadLoop_bytes fs fs i _ _ [] hcounts (.refl fs) count.toNat
    (Nat.le_refl _)).bind fun r ⟨k, hk⟩ => ?_
  obtain ⟨out, pos, fs₁⟩ := r
  obtain rfl : pos = (fs.file filp).fPos + k := hk.position
  have hlen : out.length = k := by simpa using hk.length
  have hfile : fs₁.file filp = fs.file filp := by
    have hstill : Still fs fs₁ := hk.still
    rw [hstill.only]
  refine ⟨k, out, ?_, rfl, fs₁, hk, ?_⟩
  · show (if out.length = 0 then -ERROR else (out.length : Int)) = _
    rw [hlen]
  · show fs₁.setFile filp { fs₁.file filp with fPos := _ } = _
    rw [hfile]

/-- `file_read` stores the bytes of the file from `f_pos` on, all that are asked for or as far
as the blocks can be read, and moves `f_pos` behind them. -/
theorem fileRead_bytes {count : Int} (hm : IndirectRead i fs) (hcount : 0 < count)
    (hfit : (fs.file filp).fPos + count.toNat ≤ MAPPABLE * BLOCK_SIZE) :
    ∃ (k : Nat) (fs₁ : FileSystem), Still fs fs₁ ∧
      fileRead i filp count fs =
        .ok (if k = 0 then -ERROR else k, fileBytes i fs (fs.file filp).fPos k,
        fs₁.setFile filp { fs.file filp with fPos := (fs.file filp).fPos + k }) ∧
      k ≤ count.toNat ∧
      (k < count.toNat → StoppedAt i fs fs₁ ((fs.file filp).fPos + k) ∧
        (k ≠ 0 → ((fs.file filp).fPos + k) % BLOCK_SIZE = 0)) := by
  have hret : Returns _ (fileRead i filp count fs) :=
    (fileRead_ends hm.counts hcount).weaken fun _ hover => absurd hover.2.1 (Nat.not_lt_of_le hfit)
  obtain ⟨⟨_, bytes, _⟩, hread, k, _, rfl, rfl, fs₁, hk, rfl⟩ := hret.exists_ok
  obtain rfl : bytes = fileBytes i fs (fs.file filp).fPos k := (hk.read hm).bytes
  exact ⟨k, fs₁, hk.still, hread, hk.le, (hk.read hm).stopped⟩

/-- A file of two blocks, open at offset 1000, whose second block the driver never reads. -/
def halfReadable : FileSystem :=
  { bigState (((DInode.zero.setMode 0o100644).setZone 0 3).setZone 1 4) with
    disk := fun _ block j => BitVec.ofNat 8 (block + j.val)
    readable := fun _ _ block => block != 4
    file := fun _ => ⟨0, 0, 1, .entry 0, 1000⟩ }

/-- The read of 1500 bytes ends after the 24 bytes that the first block has left. -/
theorem fileRead_halfReadable :
    ∃ (k : Nat) (fs₁ : FileSystem), Still halfReadable fs₁ ∧
      fileRead 0 ⟨0, by decide⟩ 1500 halfReadable =
        .ok (if k = 0 then -ERROR else k, fileBytes 0 halfReadable 1000 k,
        fs₁.setFile ⟨0, by decide⟩ { halfReadable.file ⟨0, by decide⟩ with fPos := 1000 + k }) ∧
      k ≤ 1500 ∧ (k < 1500 → StoppedAt 0 halfReadable fs₁ (1000 + k) ∧
        (k ≠ 0 → (1000 + k) % BLOCK_SIZE = 0)) := by
  have hm : IndirectRead 0 halfReadable := by
    refine ⟨fun z hz hne => ?_, fun z => Nat.zero_lt_succ _⟩
    refine absurd ?_ hne
    cases hz with
    | inl h => exact h
    | inr h =>
      cases h with
      | inl h => exact h
      | inr h => exact absurd rfl h.1
  exact fileRead_bytes hm (by decide) (by decide)

end Hios.Fs
