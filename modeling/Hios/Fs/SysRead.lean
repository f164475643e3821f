import Hios.Fs.FileRead

/-! `sys_read` against what it is asked for: it puts the size of the file in the place of
`count`, so that it keeps to `count` where that is no less than what is left of the file. -/
namespace Hios.Fs
open Hios.Outcome
variable {fs fs' : FileSystem} {m : DInode} {i : InodeIx} {filp : Fin NR_FILE}
  {fd pos size count k p : Nat}
  {out : List Byte} {r : Int × List Byte × FileSystem}

def wanted (size pos count : Nat) : Nat := min count (size - pos)

def BlockReads (i : InodeIx) (fs : FileSystem) (p : Nat) : Prop :=
  zoneAt i fs (p / BLOCK_SIZE) = 0 ∨ Readable fs (fs.inode i).iDev (zoneAt i fs (p / BLOCK_SIZE))

def AllRead (i : InodeIx) (fs : FileSystem) (pos n : Nat) : Prop :=
  IndirectRead i fs ∧ ∀ p, pos ≤ p → p < pos + n → p < MAPPABLE * BLOCK_SIZE → BlockReads i fs p

/-- No more than `count` bytes are stored, the position moves behind them, and the result is
their number. -/
structure AnswersRight (i : InodeIx) (filp : Fin NR_FILE) (size count : Nat) (fs : FileSystem)
    (r : Int × List Byte × FileSystem) : Prop where
  atMost : r.2.1.length ≤ count
  advance : (r.2.2.file filp).fPos = (fs.file filp).fPos + r.2.1.length
  returned : r.1 = r.2.1.length ∨ r.2.1 = [] ∧ r.1 = -ERROR
  nothing : wanted size (fs.file filp).fPos count = 0 → r.1 = 0
  all : 0 < wanted size (fs.file filp).fPos count →
    AllRead i fs (fs.file filp).fPos (wanted size (fs.file filp).fPos count) →
      r.1 = wanted size (fs.file filp).fPos count

abbrev ReadRight (i : InodeIx) (filp : Fin NR_FILE) (fd size count : Nat) (fs : FileSystem) :
    Prop :=
  Returns (AnswersRight i filp size count fs) (sysRead fd count fs)

def TakenNegative (size pos : Nat) : Prop := 2 ^ 31 ≤ size - pos ∨ 2 ^ 32 ≤ size + pos

/-- There is nothing left, or no more than `count`, or the code takes a large rest for none. -/
def ReadSafe (size pos count : Nat) : Prop :=
  size ≤ pos ∨ size - pos ≤ count ∧ size ≤ MAPPABLE * BLOCK_SIZE ∨ count = 0 ∧
    TakenNegative size pos

def CutShort (i : InodeIx) (fs : FileSystem) (size pos count : Nat) : Prop :=
  ∃ q, pos ≤ q ∧ BlockFails i fs q ∧
    (q < pos + wanted size pos count ∨ q = pos + wanted size pos count ∧ 0 < count ∧
      ¬ TakenNegative size pos)

theorem readCount_left (hlt : size < 2 ^ 32) (hpos : pos < 2 ^ 31) (hleft : pos < size)
    (hneg : ¬ TakenNegative size pos) :
    readCount size pos = ((size - pos : Nat) : Int) := by
  simp only [TakenNegative, not_or, Nat.not_le] at hneg
  unfold readCount toInt32
  split
  · rw [if_pos (by omega)]
    omega
  · rw [if_pos (by omega)]
    omega

theorem readCount_none (hlt : size < 2 ^ 32) (hpos : pos < 2 ^ 31)
    (hno : size ≤ pos ∨ TakenNegative size pos) :
    readCount size pos ≤ 0 := by
  simp only [TakenNegative] at hno
  unfold readCount toInt32
  split
  · split
    · omega
    · omega
  · split
    · omega
    · omega

theorem sysRead_none (hmode : S_ISREG m.iMode ∨ S_ISDIR m.iMode) (h : OpenAt m pos fd filp i fs)
    (hpos : pos < 2 ^ 31) (hno : m.iSize ≤ pos ∨ TakenNegative m.iSize pos) :
    sysRead fd count fs = .ok (0, [], fs) :=
  (sysRead_open hmode h (Int.natCast_nonneg count)).trans
    (if_pos (readCount_none (iSize_lt m) hpos hno))

theorem sysRead_left (hmode : S_ISREG m.iMode ∨ S_ISDIR m.iMode) (h : OpenAt m pos fd filp i fs)
    (hpos : pos < 2 ^ 31) (hleft : pos < m.iSize) (hneg : ¬ TakenNegative m.iSize pos)
    (hcounts : ∀ z, bufferCount fs (fs.inode i).iDev z < 255) :
    Ends (fun e => e = .blockTooBig ∧ RunsOver i fs pos (m.iSize - pos))
      (fun r => ∃ k out, FileAnswer i filp fs (m.iSize - pos) k out r)
      (sysRead fd count fs) := by
  have hcount := readCount_left (iSize_lt m) hpos hleft hneg
  have hsome : ¬ ((m.iSize - pos : Nat) : Int) ≤ 0 := by omega
  rw [sysRead_open hmode h (Int.natCast_nonneg count), hcount, if_neg hsome]
  have hends := @fileRead_ends fs i filp ((m.iSize - pos : Nat) : Int) hcounts (by omega)
  rwa [h.position, Int.toNat_natCast] at hends

theorem answersRight_none (hpos : (fs.file filp).fPos = pos) :
    AnswersRight i filp size count fs (0, [], fs) ↔
      (0 < wanted size pos count → ¬ AllRead i fs pos (wanted size pos count)) := by
  subst hpos
  constructor
  · intro h hsome hall
    have := h.all hsome hall
    simp only at this
    omega
  · intro h
    exact ⟨Nat.zero_le _, rfl, .inl rfl, fun _ => rfl, fun hsome hall => absurd hall (h hsome)⟩

/-- A transfer that comes to an end before the last byte stops at a block that can fail. -/
theorem FileAnswer.not_reads (h : FileAnswer i filp fs count k out r) (hm : IndirectRead i fs)
    (hk : k < count) :
    (fs.file filp).fPos + k < MAPPABLE * BLOCK_SIZE ∧
    ¬ BlockReads i fs ((fs.file filp).fPos + k) := by
  obtain ⟨fs₁, hdelivered, -⟩ := h.state
  have hstop := ((hdelivered.read hm).stopped hk).1
  refine ⟨hdelivered.reached hk, fun hreads => ?_⟩
  cases hreads with
  | inl hz => exact hstop.zone hz
  | inr hr =>
    cases hr with
    | inl hc =>
      rw [hstop.cold] at hc
      cases hc
    | inr hr =>
      have hfailed := hstop.failed
      rw [hr] at hfailed
      cases hfailed

/-- `file_read` of what is left: right as soon as it stores no more than is wanted. -/
theorem FileAnswer.right (h : FileAnswer i filp fs (size - pos) k out r)
    (hpos : (fs.file filp).fPos = pos) (hsome : 0 < wanted size pos count)
    (hk : k ≤ wanted size pos count) : AnswersRight i filp size count fs r := by
  subst hpos
  have hle : wanted size (fs.file filp).fPos count ≤ count := Nat.min_le_left ..
  have hle' : wanted size (fs.file filp).fPos count ≤ size - (fs.file filp).fPos :=
    Nat.min_le_right ..
  obtain ⟨fs₁, hdelivered, hstate⟩ := h.state
  have hlen : r.2.1.length = k := by
    rw [h.bytes]
    simpa using hdelivered.length
  have hresult := h.result
  refine ⟨by omega, ?_, ?_, fun hzero => absurd hzero (by omega), fun _ hall => ?_⟩
  · rw [hstate, hlen]
    simp [FileSystem.setFile]
  · by_cases hk0 : k = 0
    · rw [if_pos hk0] at hresult
      exact .inr ⟨List.length_eq_zero_iff.mp (hlen.trans hk0), hresult⟩
    · rw [if_neg hk0] at hresult
      exact .inl (hresult.trans (by rw [hlen]))
  · by_cases hlt : k < wanted size (fs.file filp).fPos count
    · obtain ⟨hmapped, hno⟩ := h.not_reads hall.1 (by omega)
      exact absurd (hall.2 _ (by omega) (by omega) hmapped) hno
    · have hall : k = wanted size (fs.file filp).fPos count := by omega
      rw [if_neg (by omega), hall] at hresult
      exact hresult

/-- What is left is no more than `count`, or a bad block ends the transfer in time. -/
theorem readRight_of_safe (hmode : S_ISREG m.iMode ∨ S_ISDIR m.iMode)
    (h : OpenAt m pos fd filp i fs) (hpos : pos < 2 ^ 31)
    (hcounts : ∀ z, bufferCount fs (fs.inode i).iDev z < 255) (hsafe : ReadSafe m.iSize pos count) :
    ReadRight i filp fd m.iSize count fs := by
  by_cases hno : m.iSize ≤ pos ∨ TakenNegative m.iSize pos
  · have hzero : wanted m.iSize pos count = 0 := by
      simp only [ReadSafe, TakenNegative, MAPPABLE, BLOCK_SIZE] at hsafe hno
      unfold wanted
      omega
    rw [ReadRight, sysRead_none hmode h hpos hno]
    exact (answersRight_none h.position).mpr fun hsome => absurd hsome (by omega)
  obtain ⟨hleft, hneg⟩ := not_or.mp hno
  have hfits : m.iSize - pos ≤ count ∧ m.iSize ≤ MAPPABLE * BLOCK_SIZE := by
    cases hsafe with
    | inl hle => exact absurd hle hleft
    | inr hsafe =>
      cases hsafe with
      | inl hfits => exact hfits
      | inr hzero => exact absurd hzero.2 hneg
  have hwanted : wanted m.iSize pos count = m.iSize - pos := Nat.min_eq_right hfits.1
  refine ((sysRead_left hmode h hpos (by omega) hneg hcounts).mono fun r hr => ?_).weaken fun
    _ hover => ?_
  · obtain ⟨k, out, hanswer⟩ := hr
    obtain ⟨fs₁, hdelivered, -⟩ := hanswer.state
    have hk := hdelivered.le
    exact hanswer.right h.position (by omega) (by omega)
  · have hbig := hover.2.1
    omega

theorem readRight_of_cut (hmode : S_ISREG m.iMode ∨ S_ISDIR m.iMode)
    (h : OpenAt m pos fd filp i fs) (hpos : pos < 2 ^ 31) (hm : IndirectRead i fs)
    (hcut : CutShort i fs m.iSize pos count) : ReadRight i filp fd m.iSize count fs := by
  obtain ⟨q, hq, hbad, hintime⟩ := hcut
  have hnot : ¬ BlockReads i fs q := fun hreads => by
    cases hreads with
    | inl hz => exact hbad.zone hz
    | inr hr => exact hbad.fails.not_readable hr
  by_cases hno : m.iSize ≤ pos ∨ TakenNegative m.iSize pos
  · rw [ReadRight, sysRead_none hmode h hpos hno]
    refine (answersRight_none h.position).mpr fun hsome hall => hnot (hall.2 q hq ?_ hbad.mapped)
    cases hintime with
    | inl hlt => exact hlt
    | inr hend =>
      cases hno with
      | inl hle =>
        unfold wanted at hsome
        omega
      | inr hneg => exact absurd hneg hend.2.2
  obtain ⟨hleft, hneg⟩ := not_or.mp hno
  have hsome : 0 < wanted m.iSize pos count := by
    unfold wanted at hintime ⊢
    omega
  refine ((sysRead_left hmode h hpos (by omega) hneg hm.counts).mono fun r hr => ?_).weaken fun
    _ hover => ?_
  · obtain ⟨k, out, hanswer⟩ := hr
    obtain ⟨fs₁, hdelivered, -⟩ := hanswer.state
    rw [h.position] at hdelivered
    have hkq := (hdelivered.read hm).cut q hq hbad
    exact hanswer.right h.position hsome (by omega)
  · exact hover.2.2 hm q hq hbad

/-- A right answer: the rest was no larger than `count`, or was cut short. -/
theorem safe_of_readRight (hmode : S_ISREG m.iMode ∨ S_ISDIR m.iMode)
    (h : OpenAt m pos fd filp i fs) (hpos : pos < 2 ^ 31) (hm : IndirectRead i fs)
    (hsteady : ∀ p, pos ≤ p → p ≤ pos + wanted m.iSize pos count → p < MAPPABLE * BLOCK_SIZE →
      BlockReads i fs p ∨ BlockFails i fs p)
    (hright : ReadRight i filp fd m.iSize count fs) :
    ReadSafe m.iSize pos count ∨ CutShort i fs m.iSize pos count := by
  by_cases hno : m.iSize ≤ pos ∨ TakenNegative m.iSize pos
  · rw [ReadRight, sysRead_none hmode h hpos hno] at hright
    have hno' := (answersRight_none h.position).mp hright
    by_cases hle : m.iSize ≤ pos
    · exact .inl (.inl hle)
    by_cases hzero : count = 0
    · exact .inl (.inr (.inr ⟨hzero, hno.resolve_left hle⟩))
    refine .inr (Classical.byContradiction fun hcut => hno' (by unfold wanted; omega)
      ⟨hm, fun p hp hlt hmapped => ?_⟩)
    exact (hsteady p hp (Nat.le_of_lt hlt) hmapped).resolve_right fun hbad =>
      hcut ⟨p, hp, hbad, .inl hlt⟩
  obtain ⟨hleft, hneg⟩ := not_or.mp hno
  obtain ⟨r, hread, hanswers⟩ := hright.exists_ok
  have hends : Ends _ _ (sysRead fd count fs) := sysRead_left hmode h hpos (by omega) hneg hm.counts
  rw [hread] at hends
  obtain ⟨k, out, hanswer⟩ := hends
  have hlen : k ≤ count := by
    have hmost := hanswers.atMost
    obtain ⟨fs₁, hdelivered, -⟩ := hanswer.state
    have hk := hdelivered.length
    rw [hanswer.bytes] at hmost
    simp only [List.length_nil] at hk
    omega
  -- The transfer has come to an end before the last byte, at a bad block.
  have hstopped : k < m.iSize - pos → CutShort i fs m.iSize pos count := fun hlt => by
    obtain ⟨hmapped, hnot⟩ := hanswer.not_reads hm hlt
    rw [h.position] at hmapped hnot
    have hwithin : k ≤ wanted m.iSize pos count := by
      unfold wanted
      omega
    have hbad := (hsteady (pos + k) (by omega) (by omega) hmapped).resolve_left hnot
    refine ⟨pos + k, by omega, hbad, ?_⟩
    by_cases hbefore : k < wanted m.iSize pos count
    · exact .inl (by omega)
    refine .inr ⟨by omega, Nat.pos_of_ne_zero fun hzero => ?_, hneg⟩
    have hresult := hanswer.result
    have hk0 : k = 0 := by omega
    rw [hk0, if_pos rfl, hanswers.nothing (by unfold wanted; omega)] at hresult
    exact absurd hresult (by decide)
  by_cases hlt : k < m.iSize - pos
  · exact .inr (hstopped hlt)
  · obtain ⟨fs₁, hdelivered, -⟩ := hanswer.state
    have hk := hdelivered.le
    have hmapped := hdelivered.mapped (by omega)
    rw [h.position] at hmapped
    left
    unfold ReadSafe
    omega

/-- `sys_read` keeps to `count` where `count` is no less than what is left of the file, and
elsewhere only if a bad block ends the transfer in time. -/
theorem sysRead_right_iff (hmode : S_ISREG m.iMode ∨ S_ISDIR m.iMode)
    (h : OpenAt m pos fd filp i fs) (hpos : pos < 2 ^ 31)
    (hcounts : ∀ z, bufferCount fs (fs.inode i).iDev z < 255) :
    (ReadSafe m.iSize pos count → ReadRight i filp fd m.iSize count fs) ∧
      (IndirectRead i fs →
        (∀ p, pos ≤ p → p ≤ pos + wanted m.iSize pos count → p < MAPPABLE * BLOCK_SIZE →
          BlockReads i fs p ∨ BlockFails i fs p) →
        (ReadRight i filp fd m.iSize count fs ↔ ReadSafe m.iSize pos count ∨
          CutShort i fs m.iSize pos count)) := by
  refine ⟨readRight_of_safe hmode h hpos hcounts, fun hm hsteady => ⟨?_, fun hcond => ?_⟩⟩
  · exact safe_of_readRight hmode h hpos hm hsteady
  · cases hcond with
    | inl hsafe => exact readRight_of_safe hmode h hpos hcounts hsafe
    | inr hcut => exact readRight_of_cut hmode h hpos hm hcut

def fiveBytes : FileSystem :=
  { bigState (((DInode.zero.setMode 0o100644).setSize 5).setZone 0 3) with
    disk := fun _ block j => BitVec.ofNat 8 (block + j.val)
    file := fun _ => ⟨0, 0, 1, .entry 0, 0⟩ }

theorem fiveBytes_open : OpenAt (fiveBytes.inode 0).d 0 0 ⟨0, by decide⟩ 0 fiveBytes :=
  ⟨⟨by decide, rfl⟩, rfl, rfl, rfl⟩

/-- A buffer of eight bytes takes the file; one of two does not, and no bad block helps it. -/
theorem sysRead_right_iff_five :
    ReadRight 0 ⟨0, by decide⟩ 0 5 8 fiveBytes ∧ ¬ ReadRight 0 ⟨0, by decide⟩ 0 5 2 fiveBytes := by
  have hcounts : ∀ z, bufferCount fiveBytes (fiveBytes.inode 0).iDev z < 255 :=
    fun _ => Nat.zero_lt_succ _
  have hm : IndirectRead 0 fiveBytes := by
    refine ⟨fun z hz hne => absurd ?_ hne, hcounts⟩
    obtain h | h | h := hz
    · exact h
    · exact h
    · exact absurd rfl h.1
  obtain ⟨hsafe, -⟩ := @sysRead_right_iff fiveBytes _ _ _ _ _ 8 (.inl (by decide)) fiveBytes_open
    (by decide) hcounts
  obtain ⟨-, hiff⟩ := @sysRead_right_iff fiveBytes _ _ _ _ _ 2 (.inl (by decide)) fiveBytes_open
    (by decide) hcounts
  refine ⟨hsafe (.inr (.inl ⟨by decide, by decide⟩)), fun hright => ?_⟩
  obtain hsafe | ⟨q, -, hbad, -⟩ :=
    (hiff hm fun _ _ _ _ => .inl (.inr (.inr fun _ => rfl))).mp hright
  · unfold ReadSafe TakenNegative at hsafe
    have hsize : (fiveBytes.inode 0).d.iSize = 5 := by decide
    omega
  · have hfails : true = false := hbad.fails.2 0
    cases hfails

theorem sysRead_stores_five :
    ¬ ReadRight 0 ⟨0, by decide⟩ 0 5 2 fiveBytes ∧
      (sysRead 0 2 fiveBytes).toOption.map (fun r => (r.1, r.2.1)) = some (5, [3, 4, 5, 6, 7]) := by
  have hread : (sysRead 0 2 fiveBytes).toOption.map (fun r => (r.1, r.2.1)) =
    some (5, [3, 4, 5, 6, 7]) := by decide
  refine ⟨fun hright => ?_, hread⟩
  obtain ⟨r, heq, hanswers⟩ : ∃ r, sysRead 0 2 fiveBytes = .ok r ∧
    AnswersRight 0 ⟨0, by decide⟩ 5 2 fiveBytes r :=
    hright.exists_ok
  have hmost := hanswers.atMost
  rw [heq] at hread
  obtain ⟨-, hbytes⟩ := Prod.mk.inj (Option.some.inj hread)
  rw [hbytes] at hmost
  exact absurd hmost (by decide)

end Hios.Fs
