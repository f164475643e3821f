import Hios.Fs.FileRead
import Hios.Fs.InodeHolds

/-! The sizes from disk that `sys_read` and `find_entry` cope with. A call of `sys_read`
stores no more than the user's segment takes, so that only one behind another gets far. -/
namespace Hios.Fs
open Hios.Outcome
variable {m : DInode} {fs fs' : FileSystem} {i : InodeIx} {filp : Fin NR_FILE}
  {fuel left pos buf room fd t x : Nat}
  {out : List Byte} {count : Int}

theorem fileReadLoop_grows (i : InodeIx) (fuel left pos : Nat) (out : List Byte) (fs : FileSystem) :
    IfReturns (fun r => out.length ≤ r.1.length) (fileReadLoop i fuel left pos out fs) := by
  induction fuel generalizing left pos out fs with
  | zero => exact Nat.le_refl _
  | succ fuel ih =>
    unfold fileReadLoop
    split
    · exact Nat.le_refl _
    have hnext : ∀ piece fs, IfReturns (fun r => out.length ≤ r.1.length)
        (fileReadLoop i fuel (left - min (BLOCK_SIZE - pos % BLOCK_SIZE) left)
          (pos + min (BLOCK_SIZE - pos % BLOCK_SIZE) left) (out ++ piece) fs) := fun piece fs =>
      (ih _ _ _ fs).mono fun r hr => by
        rw [List.length_append] at hr
        omega
    refine ifReturns_iff.mpr fun r hr => ?_
    obtain ⟨⟨nr, fs₁⟩, -, hr⟩ := bind_eq_ok.mp hr
    by_cases hnr : nr = 0
    · simp only [hnr, if_true] at hr
      exact (hnext _ _).of_ok hr
    · simp only [hnr, if_false] at hr
      obtain ⟨⟨data, fs₂⟩, -, hr⟩ := bind_eq_ok.mp hr
      cases data with
      | none =>
        obtain rfl := Except.ok.inj hr
        exact Nat.le_refl _
      | some data =>
        obtain ⟨fs₃, -, hr⟩ := bind_eq_ok.mp hr
        exact (hnext _ _).of_ok hr

/-- The store that traps: more bytes than there is room for, of blocks that can be mapped. -/
structure Traps (room : Nat) (pos : Nat) (out : List Byte)
  (x : Except Panic (List Byte × Nat × FileSystem)) : Prop where
  length : IfReturns (fun r => room < r.1.length) x
  mapped : room < out.length + (MAPPABLE * BLOCK_SIZE - pos)

/-- With its stores, `file_read` does what it does without them, unless one traps. -/
theorem fileReadLoopTo_eq (room : Nat) (i : InodeIx) (fuel left pos : Nat) (out : List Byte)
    (fs : FileSystem) :
    fileReadLoopTo room i fuel left pos out fs = fileReadLoop i fuel left pos out fs ∨
      fileReadLoopTo room i fuel left pos out fs = .error .generalProtection ∧
        Traps room pos out (fileReadLoop i fuel left pos out fs) := by
  induction fuel generalizing left pos out fs with
  | zero => exact .inl rfl
  | succ fuel ih =>
    unfold fileReadLoopTo fileReadLoop
    by_cases hleft : left = 0
    · rw [if_pos hleft, if_pos hleft]
      exact .inl rfl
    rw [if_neg hleft, if_neg hleft]
    by_cases hbig : MAPPABLE ≤ pos / BLOCK_SIZE
    · rw [bmap_big i hbig]
      exact .inl rfl
    have hchars : min (BLOCK_SIZE - pos % BLOCK_SIZE) left ≤ MAPPABLE * BLOCK_SIZE - pos := by
      simp only [MAPPABLE, BLOCK_SIZE] at hbig ⊢
      omega
    generalize min (BLOCK_SIZE - pos % BLOCK_SIZE) left = chars at hchars ⊢
    have htrap : room < out.length + chars → ∀ (piece : List Byte) (fs : FileSystem),
      piece.length = chars →
        IfReturns (fun r => room < r.1.length)
          (fileReadLoop i fuel (left - chars) (pos + chars) (out ++ piece) fs) := by
      intro hroom piece fs hlen
      refine (fileReadLoop_grows ..).mono fun r hr => ?_
      rw [List.length_append, hlen] at hr
      omega
    have hgo : ∀ (piece : List Byte) (fs : FileSystem), piece.length = chars →
        fileReadLoopTo room i fuel (left - chars) (pos + chars) (out ++ piece) fs =
            fileReadLoop i fuel (left - chars) (pos + chars) (out ++ piece) fs ∨
          fileReadLoopTo room i fuel (left - chars) (pos + chars) (out ++ piece) fs =
            .error .generalProtection ∧
            Traps room pos out (fileReadLoop i fuel (left - chars) (pos + chars)
              (out ++ piece) fs) := by
      intro piece fs hlen
      refine (ih (left - chars) (pos + chars) (out ++ piece) fs).imp_right fun htraps => ?_
      obtain ⟨herror, hlength, hmapped⟩ := htraps
      rw [List.length_append, hlen] at hmapped
      exact ⟨herror, hlength, by omega⟩
    cases bmap i (pos / BLOCK_SIZE) fs with
    | error e => exact .inl rfl
    | ok r =>
      obtain ⟨nr, fs₁⟩ := r
      simp only [bind, Except.bind]
      by_cases hnr : nr = 0
      · rw [if_pos hnr, if_pos hnr]
        by_cases hroom : room < out.length + chars
        · rw [if_pos hroom]
          exact .inr ⟨rfl, htrap hroom _ fs₁ List.length_replicate, by omega⟩
        · rw [if_neg hroom]
          exact hgo _ fs₁ List.length_replicate
      rw [if_neg hnr, if_neg hnr]
      cases bread (fs₁.inode i).iDev nr fs₁ with
      | error e => exact .inl rfl
      | ok r =>
        obtain ⟨data, fs₂⟩ := r
        cases data with
        | none => exact .inl rfl
        | some data =>
          have hlen : (data.bytes (pos % BLOCK_SIZE) chars).length = chars := by simp [Block.bytes]
          cases hrel : brelse (fs₁.inode i).iDev nr fs₂ with
          | error e =>
            by_cases hroom : room < out.length + chars
            · exact .inr ⟨if_pos hroom, by simp only [hrel]; trivial, by omega⟩
            · simp only [if_neg hroom, hrel, true_or]
          | ok fs₃ =>
            by_cases hroom : room < out.length + chars
            · exact .inr ⟨if_pos hroom, by simpa only [hrel] using htrap hroom _ fs₃ hlen, by omega⟩
            · simp only [if_neg hroom, hrel]
              exact hgo _ fs₃ hlen

theorem fileReadTo_eq (buf : Nat) (i : InodeIx) (filp : Fin NR_FILE) (count : Int)
    (fs : FileSystem) :
    fileReadTo buf i filp count fs = fileRead i filp count fs ∨
      fileReadTo buf i filp count fs = .error .generalProtection ∧
        IfReturns (fun r => SEGMENT_SIZE - buf < r.2.1.length) (fileRead i filp count fs) ∧
        SEGMENT_SIZE - buf < MAPPABLE * BLOCK_SIZE - (fs.file filp).fPos := by
  unfold fileReadTo fileRead
  by_cases hcount : count ≤ 0
  · rw [if_pos hcount, if_pos hcount]
    exact .inl rfl
  rw [if_neg hcount, if_neg hcount]
  obtain heq | ⟨herror, hlength, hmapped⟩ :=
    fileReadLoopTo_eq (SEGMENT_SIZE - buf) i count.toNat count.toNat (fs.file filp).fPos [] fs
  · rw [heq]
    exact .inl rfl
  · rw [herror]
    exact .inr ⟨rfl, hlength.bind fun r hr => hr, by simpa using hmapped⟩

theorem fileReadTo_ok {r : Int × List Byte × FileSystem}
    (h : fileReadTo buf i filp count fs = .ok r) :
    fileRead i filp count fs = .ok r := by
  obtain heq | ⟨herror, -⟩ := fileReadTo_eq buf i filp count fs
  · exact heq ▸ h
  · rw [herror] at h
    cases h

theorem fileReadTo_of_fits {r : Int × List Byte × FileSystem} (h : fileRead i filp count fs = .ok r)
    (hfits : r.2.1.length ≤ SEGMENT_SIZE - buf) : fileReadTo buf i filp count fs = .ok r := by
  obtain heq | ⟨-, hlength, -⟩ := fileReadTo_eq buf i filp count fs
  · exact heq.trans h
  · exact absurd (hlength.of_ok h) (Nat.not_lt_of_le hfits)

/-- The positions `sys_read` comes to from an open file's first one. Between its calls
the rest of the system may be in any state. -/
inductive Reached (m : DInode) : Nat → Prop where
  | opened : Reached m 0
  | read {pos buf fd : Nat} {filp : Fin NR_FILE} {i : InodeIx} {count r : Int} {out : List Byte}
    {fs fs' : FileSystem}
      (hpos : Reached m pos) (hopen : OpenAt m pos fd filp i fs)
        (hread : sysReadTo buf fd count fs = .ok (r, out, fs')) :
      Reached m (fs'.file filp).fPos

theorem sysReadTo_cases {r : Int} (hmode : S_ISREG m.iMode ∨ S_ISDIR m.iMode)
    (h : OpenAt m pos fd filp i fs) (hread : sysReadTo buf fd count fs = .ok (r, out, fs')) :
    fs' = fs ∨ 0 < readCount m.iSize pos ∧ fileReadTo buf i filp (readCount m.iSize pos) fs =
      .ok (r, out, fs') := by
  by_cases hcount : 0 ≤ count
  · rw [sysReadTo, sysReadWith_open hmode h hcount] at hread
    by_cases hnone : readCount m.iSize pos ≤ 0
    · rw [if_pos hnone] at hread
      exact .inl (Prod.mk.inj (Prod.mk.inj (Except.ok.inj hread)).2).2.symm
    · rw [if_neg hnone] at hread
      exact .inr ⟨by omega, hread⟩
  · rw [sysReadTo, sysReadWith_negative hcount] at hread
    exact .inl (Prod.mk.inj (Prod.mk.inj (Except.ok.inj hread)).2).2.symm

/-- Of a size below 2^31 no position lies behind the end; of a larger one nothing is read. -/
theorem Reached.bound (hmode : S_ISREG m.iMode ∨ S_ISDIR m.iMode) (h : Reached m pos) :
    if m.iSize < 2 ^ 31 then pos ≤ m.iSize else pos = 0 := by
  induction h with
  | opened => split <;> simp
  | @read pos buf fd filp i count r out fs fs' hpos hopen hread ih =>
    obtain rfl | ⟨hsome, hread⟩ := sysReadTo_cases hmode hopen hread
    · exact hopen.position ▸ ih
    by_cases hsize : m.iSize < 2 ^ 31
    · rw [if_pos hsize] at ih ⊢
      rw [readCount_eq hsize ih] at hread
      have hle := fileRead_pos (fileReadTo_ok hread) hopen.position
      omega
    · rw [if_neg hsize] at ih
      have hneg := readCount_neg (Nat.le_of_not_lt hsize) (iSize_lt m)
      rw [ih] at hsome
      omega

section NoDoublyIndirect

theorem bmap_hole {n : Nat} (h8 : (fs.inode i).d.iZone 8 = 0) (hlo : 7 + 512 ≤ n)
    (hhi : n < MAPPABLE) :
    bmap i n fs = .ok (0, fs) := by
  unfold bmap
  dsimp only
  rw [if_neg (show ¬ 7 + 512 + 512 * 512 ≤ n from Nat.not_le_of_lt hhi),
    dif_neg (show ¬ n < 7 by omega),
    if_neg (show ¬ n - 7 < 512 by omega), if_pos h8]

/-- The loop stops at one of the first blocks, or traps among the holes behind them. -/
theorem fileReadLoopTo_stops (hroom : room ≤ SEGMENT_SIZE) (h8 : (fs.inode i).d.iZone 8 = 0)
    (hfuel : left ≤ fuel) (hpos : pos ≤ (7 + 512) * BLOCK_SIZE + out.length)
    (hout : out.length ≤ room) (hend : MAPPABLE * BLOCK_SIZE < pos + left) :
    Ends (· ≠ .blockTooBig) (fun r => r.2.1 ≤ (7 + 512) * BLOCK_SIZE)
      (fileReadLoopTo room i fuel left pos out fs) := by
  simp only [SEGMENT_SIZE, BLOCK_SIZE, MAPPABLE] at hroom hpos hend
  induction fuel generalizing left pos out fs with
  | zero => omega
  | succ fuel ih =>
    have hleft : left ≠ 0 := by omega
    have hmapped : pos / BLOCK_SIZE < MAPPABLE := by
      simp only [BLOCK_SIZE, MAPPABLE]
      omega
    unfold fileReadLoopTo
    rw [if_neg hleft]
    have hchars : min (BLOCK_SIZE - pos % BLOCK_SIZE) left ≤ left := Nat.min_le_right ..
    have hsome : 0 < min (BLOCK_SIZE - pos % BLOCK_SIZE) left := by
      simp only [BLOCK_SIZE]
      omega
    generalize min (BLOCK_SIZE - pos % BLOCK_SIZE) left = chars at hchars hsome ⊢
    have hnext : ∀ (piece : List Byte) (fs' : FileSystem), fs'.inode = fs.inode →
      piece.length = chars →
        ¬ room < out.length + chars →
          Ends (· ≠ .blockTooBig) (fun r => r.2.1 ≤ (7 + 512) * BLOCK_SIZE)
          (fileReadLoopTo room i fuel (left - chars) (pos + chars) (out ++ piece) fs') := by
      intro piece fs' hinode hlen hfits
      have happend : (out ++ piece).length = out.length + chars := by rw [List.length_append, hlen]
      exact ih (hinode ▸ h8) (by omega) (by omega) (by omega) (by omega)
    have hbounded := bmap_bounded i hmapped fs
    cases hmap : bmap i (pos / BLOCK_SIZE) fs with
    | error e => exact fun he => hbounded (he ▸ hmap)
    | ok r =>
      obtain ⟨nr, fs₁⟩ := r
      have h₁ : OnlyBuffers fs fs₁ := (bmap_only i _ fs).of_ok hmap
      simp only [bind, Except.bind]
      by_cases hnr : nr = 0
      · rw [if_pos hnr]
        by_cases htrap : room < out.length + chars
        · rw [if_pos htrap]
          exact fun h => by cases h
        · rw [if_neg htrap]
          exact hnext _ fs₁ h₁.inode List.length_replicate htrap
      · rw [if_neg hnr]
        have hlow : pos / BLOCK_SIZE < 7 + 512 := by
          by_contra hhigh
          rw [bmap_hole h8 (by omega) hmapped] at hmap
          exact hnr (Prod.mk.inj (Except.ok.inj hmap)).1.symm
        have hbread := bread_bounded (fs₁.inode i).iDev nr fs₁
        cases hread : bread (fs₁.inode i).iDev nr fs₁ with
        | error e => exact fun he => hbread (he ▸ hread)
        | ok r =>
          obtain ⟨data, fs₂⟩ := r
          cases data with
          | none =>
            simp only [BLOCK_SIZE] at hlow
            show pos ≤ (7 + 512) * BLOCK_SIZE
            simp only [BLOCK_SIZE]
            omega
          | some data =>
            have h₂ : OnlyBuffers fs fs₂ := h₁.trans ((bread_only _ _ fs₁).of_ok hread)
            by_cases htrap : room < out.length + chars
            · simp only [if_pos htrap]
              exact fun h => by cases h
            · simp only [if_neg htrap]
              have hbrelse := brelse_bounded (fs₁.inode i).iDev nr fs₂
              cases hrel : brelse (fs₁.inode i).iDev nr fs₂ with
              | error e => exact fun he => hbrelse (he ▸ hrel)
              | ok fs₃ =>
                have h₃ : OnlyBuffers fs fs₃ := h₂.trans ((brelse_only _ _ fs₂).of_ok hrel)
                exact hnext _ fs₃ h₃.inode (by simp [Block.bytes]) htrap

theorem fileReadTo_stops (h8 : (fs.inode i).d.iZone 8 = 0)
    (hpos : (fs.file filp).fPos ≤ (7 + 512) * BLOCK_SIZE)
    (hend : MAPPABLE * BLOCK_SIZE < (fs.file filp).fPos + count.toNat) :
    Ends (· ≠ .blockTooBig) (fun r => (r.2.2.file filp).fPos ≤ (7 + 512) * BLOCK_SIZE)
      (fileReadTo buf i filp count fs) := by
  unfold fileReadTo
  have hcount : ¬ count ≤ 0 := by
    simp only [MAPPABLE, BLOCK_SIZE] at hpos hend
    omega
  rw [if_neg hcount]
  refine (fileReadLoopTo_stops (Nat.sub_le ..) h8 (Nat.le_refl _) (by simpa using hpos)
    (Nat.zero_le _) hend).bind
    fun r hr => ?_
  show ((r.2.2.setFile filp _).file filp).fPos ≤ _
  simpa [FileSystem.setFile] using hr

/-- Without a doubly indirect block no call gets behind the indirect block. -/
theorem Reached.low (hmode : S_ISREG m.iMode ∨ S_ISDIR m.iMode) (h8 : m.iZone 8 = 0)
    (hbig : MAPPABLE * BLOCK_SIZE < m.iSize) (hsize : m.iSize < 2 ^ 31) (h : Reached m pos) :
    pos ≤ (7 + 512) * BLOCK_SIZE := by
  induction h with
  | opened => exact Nat.zero_le _
  | @read pos buf fd filp i count r out fs fs' hpos hopen hread ih =>
    obtain rfl | ⟨hsome, hread⟩ := sysReadTo_cases hmode hopen hread
    · exact hopen.position ▸ ih
    have hbound := hpos.bound hmode
    rw [if_pos hsize] at hbound
    have hcount := readCount_eq hsize hbound
    have hstops := @fileReadTo_stops fs i filp buf (readCount m.iSize pos) (hopen.disk ▸ h8)
      (hopen.position ▸ ih)
      (by rw [hopen.position]; omega)
    rw [hread] at hstops
    exact hstops

end NoDoublyIndirect

section DoublyIndirect

def listing (f : Nat → Nat) : Block :=
  fun j => if j.val % 2 = 0 then BitVec.ofNat 8 (f (j.val / 2)) else 0

theorem listing_short {f : Nat → Nat} {k : Nat} (hk : k < 512) (hf : f k < 256) :
    (listing f).short k = f k := by
  have h₀ : (Fin.ofNat 1024 (2 * k)).val = 2 * k := Nat.mod_eq_of_lt (by omega)
  have h₁ : (Fin.ofNat 1024 (2 * k + 1)).val = 2 * k + 1 := Nat.mod_eq_of_lt (by omega)
  have heven : 2 * k % 2 = 0 := by omega
  have hodd : ¬ (2 * k + 1) % 2 = 0 := by omega
  have hhalf : 2 * k / 2 = k := by omega
  simp only [Block.short, listing, h₀, h₁, heven, hodd, hhalf, if_true, if_false,
    BitVec.toNat_ofNat]
  exact Nat.mod_eq_of_lt hf

/-- Three blocks for the file with the fields `m`: an indirect block and two blocks of data. -/
structure Spare (m : DInode) (a b c : Nat) : Prop where
  ne : a ≠ b ∧ a ≠ c ∧ b ≠ c
  pos : a ≠ 0 ∧ b ≠ 0 ∧ c ≠ 0
  lt : a < 256 ∧ b < 256 ∧ c < 256
  free : ∀ k, m.iZone k ≠ a ∧ m.iZone k ≠ b ∧ m.iZone k ≠ c

/-- The doubly indirect block lists `a` everywhere, and `a` lists `b` and `c` in turn. -/
def listsDisk (m : DInode) (a b c : Nat) (block : Nat) : Block :=
  if block = m.iZone 8 then listing fun _ => a
  else if block = a then listing fun k => if k % 2 = 0 then b else c
  else fun _ => 0

def failingAt (m : DInode) (a b c pos x : Nat) : FileSystem :=
  { bigState m with
    disk := fun _ => listsDisk m a b c
    readable := fun _ _ block => block != x
    file := fun _ => ⟨0, 0, 1, .entry 0, pos⟩ }

variable {a b c n : Nat}

theorem failingAt_open (m : DInode) (a b c pos x : Nat) :
    OpenAt m pos 0 ⟨0, by decide⟩ 0 (failingAt m a b c pos x) :=
  ⟨⟨by decide, rfl⟩, rfl, rfl, rfl⟩

theorem content_failingAt (d block : Nat) :
    content (failingAt m a b c pos x) d block = listsDisk m a b c block :=
  rfl

theorem failingAt_indirect (h : Spare m a b c) (hx : x = b ∨ x = c ∨ x = 0) :
    IndirectRead 0 (failingAt m a b c pos x) := by
  refine ⟨fun z hz hne => .inr fun _ => ?_, fun z => Nat.zero_lt_succ _⟩
  show (z != x) = true
  rw [bne_iff_ne]
  have hzx : z ≠ b ∧ z ≠ c := by
    obtain rfl | rfl | ⟨-, k, hk, rfl⟩ := hz
    · exact (h.free 7).2
    · exact (h.free 8).2
    · have ha : ((content (failingAt m a b c pos x) ((failingAt m a b c pos x).inode 0).iDev
          (((failingAt m a b c pos x).inode 0).d.iZone 8)).short k) = a := by
        rw [content_failingAt]
        exact (congrArg (Block.short · k) (if_pos rfl)).trans (listing_short hk h.lt.1)
      rw [ha]
      exact ⟨h.ne.1, h.ne.2.1⟩
  obtain rfl | rfl | rfl := hx
  · exact hzx.1
  · exact hzx.2
  · exact hne

theorem Reached.advance (hmode : S_ISREG m.iMode ∨ S_ISDIR m.iMode) (h : Reached m pos)
    (hs : Spare m a b c) (hx : x = b ∨ x = c) (hsize : m.iSize < 2 ^ 31)
    (ht : t * BLOCK_SIZE < m.iSize) (hmapped : t < MAPPABLE) (hpos : pos ≤ t * BLOCK_SIZE)
    (hroom : t * BLOCK_SIZE - pos ≤ SEGMENT_SIZE)
    (hzone : zoneAt 0 (failingAt m a b c pos x) t = x)
    (hbefore : ∀ n < t, pos / BLOCK_SIZE ≤ n → zoneAt 0 (failingAt m a b c pos x) n ≠ x) :
    Reached m (t * BLOCK_SIZE) := by
  have hx₀ : x ≠ 0 := hx.elim (fun h => h ▸ hs.pos.2.1) fun h => h ▸ hs.pos.2.2
  have hm : IndirectRead 0 (failingAt m a b c pos x) := failingAt_indirect hs (hx.imp_right .inl)
  have hcount := readCount_eq hsize (show pos ≤ m.iSize by omega)
  have hdiv : t * BLOCK_SIZE / BLOCK_SIZE = t := Nat.mul_div_cancel t (by decide)
  have hbad : BlockFails 0 (failingAt m a b c pos x) (t * BLOCK_SIZE) := by
    refine ⟨Nat.mul_lt_mul_of_pos_right hmapped (by decide), ?_, ?_⟩
    · rw [hdiv, hzone]
      exact hx₀
    · rw [hdiv, hzone]
      exact ⟨rfl, fun _ => by simp [failingAt]⟩
  have hends := @fileRead_ends (failingAt m a b c pos x) 0 ⟨0, by decide⟩ (readCount m.iSize pos)
    hm.counts (by omega)
  have hret : Returns _
    (fileRead 0 ⟨0, by decide⟩ (readCount m.iSize pos) (failingAt m a b c pos x)) :=
    hends.weaken fun _ hover => hover.2.2 hm (t * BLOCK_SIZE) hpos hbad
  obtain ⟨⟨r, bytes, fs'⟩, hread, k, out, -, rfl, fs₁, hk, hfs'⟩ := hret.exists_ok
  obtain rfl : fs' = _ := hfs'
  have hfile : (failingAt m a b c pos x).file ⟨0, by decide⟩ = ⟨0, 0, 1, .entry 0, pos⟩ := rfl
  have hkcut : pos + k ≤ t * BLOCK_SIZE := (hk.read hm).cut (t * BLOCK_SIZE) hpos hbad
  have hstopped : StoppedAt 0 (failingAt m a b c pos x) fs₁ (pos + k) :=
    ((hk.read hm).stopped (by rw [hcount]; omega)).1
  have hat : zoneAt 0 (failingAt m a b c pos x) ((pos + k) / BLOCK_SIZE) = x := by
    have hfailed : (zoneAt 0 (failingAt m a b c pos x) ((pos + k) / BLOCK_SIZE) != x) = false :=
      hstopped.failed
    simpa using hfailed
  have hkt : pos + k = t * BLOCK_SIZE := by
    by_contra hne
    refine hbefore ((pos + k) / BLOCK_SIZE) ?_ (Nat.div_le_div_right (Nat.le_add_right ..)) hat
    exact (Nat.div_lt_iff_lt_mul (by decide)).mpr (by omega)
  have hlen : bytes.length = k := by simpa using hk.length
  have hto := fileReadTo_of_fits hread (show bytes.length ≤ SEGMENT_SIZE - 0 by omega)
  have hsys : sysReadTo 0 0 0 (failingAt m a b c pos x) = _ :=
    (sysReadWith_open hmode (failingAt_open m a b c pos x) (Int.le_refl 0)).trans
      (if_neg (by omega))
  have hreached := h.read (failingAt_open m a b c pos x) (hsys.trans hto)
  rw [← hkt]
  simpa [FileSystem.setFile, hfile] using hreached

end DoublyIndirect

end Hios.Fs
