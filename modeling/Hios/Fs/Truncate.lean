import Hios.Fs.ZoneTree
import Hios.Fs.Balance

/-! `truncate` frees exactly the zones that the file maps and its indirect blocks. -/
namespace Hios.Fs
open Hios.Outcome
variable {fs₀ fs fs' : FileSystem} {i : InodeIx} {sb : SuperBlock} {dev z : Nat}
  {freed held todo : List Nat}

def zoneNr (sb : SuperBlock) (z : Nat) : Nat := z + 1 - sb.sFirstdatazone

def ZoneUsed (fs : FileSystem) (sb : SuperBlock) (z : Nat) : Prop :=
  ∃ d b bh, sb.sZmap (Fin.ofNat 8 (zoneNr sb z / 8192)) = some (d, b) ∧ fs.buffer d b = some bh ∧
    setBit (zoneNr sb z % 8192) bh.data = true

/-- A mounted device: the bitmaps are held, and no two pointers name one buffer. -/
structure Mounted (fs : FileSystem) (dev : Nat) (sb : SuperBlock) : Prop where
  super : getSuper dev fs = some sb
  fits : sb.sNzones < 65536
  held : ∀ k d b, sb.sZmap k = some (d, b) → bufferCount fs d b ≠ 0
  apart : ∀ k k' p, sb.sZmap k = some p → sb.sZmap k' = some p → k = k'

/-- A zone that may be freed: in the data area, used, readable, and held by nobody. -/
structure Freeable (fs : FileSystem) (dev : Nat) (sb : SuperBlock) (z : Nat) : Prop where
  first : sb.sFirstdatazone ≤ z
  last : z < sb.sNzones
  used : ZoneUsed fs sb z
  readable : Readable fs dev z
  unheld : bufferCount fs dev z = 0

/-- Between `fs₀` and `fs` the zones `freed` have been freed, and the indirect blocks
`held` are held. -/
structure Cut (dev : Nat) (sb : SuperBlock) (fs₀ fs : FileSystem) (freed held : List Nat) :
  Prop where
  readable : fs.readable = fs₀.readable
  super : fs.super = fs₀.super
  count : ∀ d b, bufferCount fs d b = bufferCount fs₀ d b + if d = dev ∧ b ∈ held then 1 else 0
  freeable : ∀ b ∈ freed ++ held, Freeable fs₀ dev sb b
  gone : ∀ b ∈ freed, cached fs dev b = false
  content : ∀ b, bufferCount fs₀ dev b = 0 → b ∉ freed → content fs dev b = content fs₀ dev b
  kept : ∀ b, bufferCount fs₀ dev b = 0 → b ∉ freed → cached fs₀ dev b = true →
    cached fs dev b = true
  data : ∀ b ∈ held, b ∉ freed ∧ cached fs dev b = true
  bits : ∀ k d b bh₀, sb.sZmap k = some (d, b) → fs₀.buffer d b = some bh₀ →
    ∃ bh, fs.buffer d b = some bh ∧ ∀ n < 8192,
      setBit n bh.data = true ↔ setBit n bh₀.data = true ∧
        ∀ z ∈ freed, zoneNr sb z ≠ 8192 * k.val + n

theorem Cut.refl (dev : Nat) (sb : SuperBlock) (fs : FileSystem) : Cut dev sb fs fs [] [] where
  readable := rfl
  super := rfl
  count := by simp
  freeable := by simp
  gone := by simp
  content := by simp
  kept := by simp
  data := by simp
  bits k d b bh₀ _ hb := ⟨bh₀, hb, by simp⟩

theorem zoneNr_inj {z' : Nat} (h : sb.sFirstdatazone ≤ z) (h' : sb.sFirstdatazone ≤ z') :
    zoneNr sb z = zoneNr sb z' ↔ z = z' := by
  unfold zoneNr
  omega

theorem Cut.getSuper (h : Cut dev sb fs₀ fs freed held) (d : Nat) :
    getSuper d fs = getSuper d fs₀ := by
  unfold Fs.getSuper
  rw [h.super]

def dropped (bh : Buffer) : Buffer := { bh with dirt := false, uptodate := false, count := 0 }

/-- `free_block` of a block that nobody holds clears its bit and drops its buffer. -/
theorem freeBlock_eq {d b : Nat} {zmap : Buffer} (hsb : getSuper dev fs = some sb)
    (hfirst : sb.sFirstdatazone ≤ z) (hlast : z < sb.sNzones) (hcount : bufferCount fs dev z = 0)
    (hmap : sb.sZmap (Fin.ofNat 8 (zoneNr sb z / 8192)) = some (d, b)) (hne : ¬ (d = dev ∧ b = z))
    (hb : fs.buffer d b = some zmap) (hused : setBit (zoneNr sb z % 8192) zmap.data = true) :
    freeBlock dev z fs = .ok ((fs.setBuffer dev z ((fs.buffer dev z).map dropped)).setBuffer d b
      (some { zmap with data := (clearBit (zoneNr sb z % 8192) zmap.data).2, dirt := true })) := by
  have hbit : (clearBit (zoneNr sb z % 8192) zmap.data).1 = true := hused
  have hany : ((fs.buffer dev z).map fun bh : Buffer =>
    { bh with count := (bh.count + 1) % 256 }).any
      (·.count ≠ 1) = false := by
    cases hz : fs.buffer dev z with
    | none => rfl
    | some bh =>
      rw [bufferCount_of_some hz] at hcount
      simp [hcount]
  have hdrop : (((fs.buffer dev z).map fun bh : Buffer =>
    { bh with count := (bh.count + 1) % 256 }).map
      fun bh => { bh with dirt := false, uptodate := false, count := bh.count - 1 }) =
        (fs.buffer dev z).map dropped := by
    cases hz : fs.buffer dev z with
    | none => rfl
    | some bh =>
      rw [bufferCount_of_some hz] at hcount
      simp [hcount, dropped]
  unfold zoneNr at hmap hbit
  simp only [freeBlock, hsb, if_neg (show ¬ (z < sb.sFirstdatazone ∨ sb.sNzones ≤ z) by omega),
    hany, hdrop,
    Bool.false_eq_true, if_false, hmap, setBuffer_setBuffer, modify]
  simp only [setBuffer_buffer, if_neg hne, hb, hbit, Bool.true_eq_false, if_false]
  rfl

theorem zoneNr_eq (hm : Mounted fs₀ dev sb) (hlast : z < sb.sNzones) :
    8192 * (Fin.ofNat 8 (zoneNr sb z / 8192)).val + zoneNr sb z % 8192 = zoneNr sb z := by
  have hfits := hm.fits
  have hlt : zoneNr sb z / 8192 < 8 := by
    unfold zoneNr
    omega
  simp only [Fin.ofNat, Nat.mod_eq_of_lt hlt]
  omega

theorem Cut.used (hm : Mounted fs₀ dev sb) (h : Cut dev sb fs₀ fs freed held)
    (hz : Freeable fs₀ dev sb z) (hnf : z ∉ freed) :
    ∃ d b zmap, sb.sZmap (Fin.ofNat 8 (zoneNr sb z / 8192)) = some (d, b) ∧
    fs.buffer d b = some zmap ∧
      setBit (zoneNr sb z % 8192) zmap.data = true ∧ bufferCount fs₀ d b ≠ 0 := by
  obtain ⟨d, b, bh₀, hmap, hb₀, hset⟩ := hz.used
  obtain ⟨bh, hb, hbits⟩ := h.bits _ d b bh₀ hmap hb₀
  refine ⟨d, b, bh, hmap, hb, (hbits _ (Nat.mod_lt _ (by decide))).mpr ⟨hset, fun y hy e => hnf ?_⟩,
    hm.held _ d b hmap⟩
  rw [zoneNr_eq hm hz.last,
    zoneNr_inj (h.freeable y (List.mem_append_left _ hy)).first hz.first] at e
  exact e ▸ hy

theorem bufferCount_drop (hcount : bufferCount fs dev z = 0) (d b : Nat) :
    bufferCount (fs.setBuffer dev z ((fs.buffer dev z).map dropped)) d b = bufferCount fs d b := by
  simp only [bufferCount, setBuffer_buffer]
  by_cases e : d = dev ∧ b = z
  · rw [if_pos e, e.1, e.2]
    refine Eq.trans ?_ hcount.symm
    cases fs.buffer dev z with
    | none => rfl
    | some bh => rfl
  · rw [if_neg e]

theorem buffer_freed {d b : Nat} {bh : Buffer} {d' b' : Nat} (h : ¬ (d' = d ∧ b' = b))
    (h' : ¬ (d' = dev ∧ b' = z)) :
    ((fs.setBuffer dev z ((fs.buffer dev z).map dropped)).setBuffer d b (some bh)).buffer d' b' =
      fs.buffer d' b' := by
  rw [setBuffer_buffer, if_neg h, setBuffer_buffer, if_neg h']

theorem Cut.freeBlock (hm : Mounted fs₀ dev sb) (h : Cut dev sb fs₀ fs freed held)
    (hz : Freeable fs₀ dev sb z) (hnf : z ∉ freed) (hnh : z ∉ held) :
    ∃ fs', freeBlock dev z fs = .ok fs' ∧ Cut dev sb fs₀ fs' (freed ++ [z]) held ∧
    fs'.inode = fs.inode := by
  obtain ⟨d, b, zmap, hmap, hb, hset, hheld⟩ := h.used hm hz hnf
  have hcount : bufferCount fs dev z = 0 := by
    rw [h.count, hz.unheld]
    simp [hnh]
  have hne : ¬ (d = dev ∧ b = z) := fun e => hheld (e.1 ▸ e.2 ▸ hz.unheld)
  have hfree := freeBlock_eq ((h.getSuper dev).trans hm.super) hz.first hz.last hcount
    hmap hne hb hset
  -- the bitmap's buffer is held, so it is none of the tree's blocks
  have hother : ∀ y, bufferCount fs₀ dev y = 0 → ¬ (dev = d ∧ y = b) :=
    fun y hy e => hheld (e.1 ▸ e.2 ▸ hy)
  have hsame : ∀ y, ¬ (dev = d ∧ y = b) → y ≠ z →
    ((fs.setBuffer dev z ((fs.buffer dev z).map dropped)).setBuffer d b
      (some { zmap with data := (clearBit (zoneNr sb z % 8192) zmap.data).2, dirt := true })).buffer
        dev y =
        fs.buffer dev y := fun y hy hyz => buffer_freed hy fun e => hyz e.2
  refine ⟨_, hfree, ?_, rfl⟩
  generalize hfs' : (fs.setBuffer dev z ((fs.buffer dev z).map dropped)).setBuffer d b
      (some { zmap with data := (clearBit (zoneNr sb z % 8192) zmap.data).2, dirt := true }) =
        fs' at hsame ⊢
  have hdisk : fs'.disk = fs.disk := by
    rw [← hfs']
    rfl
  refine ⟨?_, ?_, fun d' b' => ?_, fun y hy => ?_, fun y hy => ?_, fun y hy hny => ?_,
    fun y hy hny hc => ?_,
    fun y hy => ?_, fun k d' b' bh₀ hk hb₀ => ?_⟩
  · rw [← h.readable, ← hfs']
    rfl
  · rw [← h.super, ← hfs']
    rfl
  · rw [← hfs', bufferCount_setBuffer, bufferCount_drop hcount]
    split
    · rename_i e
      rw [← h.count, e.1, e.2, bufferCount_of_some hb]
    · exact h.count d' b'
  · by_cases hyz : y = z
    · exact hyz ▸ hz
    · exact h.freeable y (by simpa [hyz] using hy)
  · by_cases hyz : y = z
    · rw [hyz, cached, ← hfs', setBuffer_buffer, if_neg (hother z hz.unheld), setBuffer_buffer,
        if_pos ⟨rfl, rfl⟩]
      cases fs.buffer dev z with
      | none => rfl
      | some bh => rfl
    · have hyf : y ∈ freed := by simpa [hyz] using hy
      rw [cached, hsame y (hother y (h.freeable y (List.mem_append_left _ hyf)).unheld) hyz]
      exact h.gone y hyf
  · obtain ⟨hyf, hyz⟩ : y ∉ freed ∧ y ≠ z := by simpa using hny
    rw [← h.content y hy hyf]
    simp only [Fs.content, hsame y (hother y hy) hyz, hdisk]
  · obtain ⟨hyf, hyz⟩ : y ∉ freed ∧ y ≠ z := by simpa using hny
    rw [cached, hsame y (hother y hy) hyz]
    exact h.kept y hy hyf hc
  · have hyz : y ≠ z := fun e => hnh (e ▸ hy)
    obtain ⟨hyf, hc⟩ := h.data y hy
    refine ⟨by simp [hyf, hyz], ?_⟩
    rw [cached, hsame y (hother y (h.freeable y (List.mem_append_right _ hy)).unheld) hyz]
    exact hc
  · obtain ⟨bh, hbh, hbits⟩ := h.bits k d' b' bh₀ hk hb₀
    have hnr := zoneNr_eq hm hz.last
    have hmod : zoneNr sb z % 8192 < 8192 := Nat.mod_lt _ (by decide)
    by_cases e : d' = d ∧ b' = b
    · obtain ⟨rfl, rfl⟩ := e
      obtain rfl : zmap = bh := Option.some.inj (hb.symm.trans hbh)
      obtain rfl := hm.apart _ _ _ hmap hk
      refine ⟨_, by rw [← hfs', setBuffer_buffer, if_pos ⟨rfl, rfl⟩], fun n hn => ?_⟩
      have hiff : (zoneNr sb z ≠ 8192 * (Fin.ofNat 8 (zoneNr sb z / 8192)).val + n) ↔
        n ≠ zoneNr sb z % 8192 := by omega
      simp only [setBit_clearBit hmod hn, Bool.and_eq_true, decide_eq_true_eq, hbits n hn,
        List.forall_mem_append,
        List.forall_mem_singleton, hiff, and_assoc]
    · refine ⟨bh, ?_, fun n hn => ?_⟩
      · rw [← hfs', buffer_freed e fun e' => hm.held k d' b' hk (e'.1 ▸ e'.2 ▸ hz.unheld)]
        exact hbh
      · have hk' : zoneNr sb z ≠ 8192 * k.val + n := by
          intro heq
          have hkk : k = Fin.ofNat 8 (zoneNr sb z / 8192) := Fin.ext (by omega)
          rw [hkk, hmap] at hk
          exact e ⟨(Prod.mk.inj (Option.some.inj hk)).1.symm,
            (Prod.mk.inj (Option.some.inj hk)).2.symm⟩
        simp only [hbits n hn, List.forall_mem_append, List.forall_mem_singleton, ne_eq, hk',
          not_false_eq_true, and_true]

theorem Cut.setBuffer {bh : Buffer} {held' : List Nat} (hm : Mounted fs₀ dev sb)
    (h : Cut dev sb fs₀ fs freed held) (hz : Freeable fs₀ dev sb z) (hnf : z ∉ freed)
    (hdata : bh.data = Fs.content fs₀ dev z) (hup : bh.uptodate = true)
    (hcount : bh.count = if z ∈ held' then 1 else 0) (hheld : ∀ b, b ≠ z → (b ∈ held' ↔ b ∈ held)) :
    Cut dev sb fs₀ (fs.setBuffer dev z (some bh)) freed held' := by
  refine ⟨h.readable, h.super, fun d b => ?_, fun y hy => ?_, fun y hy => ?_, fun y hy hny => ?_,
    fun y hy hny hc => ?_,
    fun y hy => ?_, fun k d b bh₀ hk hb₀ => ?_⟩
  · rw [bufferCount_setBuffer]
    by_cases e : d = dev ∧ b = z
    · obtain ⟨rfl, rfl⟩ := e
      simp [hcount, hz.unheld]
    · rw [if_neg e, h.count]
      by_cases hd : d = dev
      · simp only [hd, true_and, hheld b fun hb => e ⟨hd, hb⟩]
      · simp [hd]
  · by_cases hyz : y = z
    · exact hyz ▸ hz
    · refine h.freeable y ?_
      rw [List.mem_append, hheld y hyz] at hy
      exact List.mem_append.mpr hy
  · rw [cached_setBuffer, if_neg fun e : dev = dev ∧ y = z => hnf (e.2 ▸ hy)]
    exact h.gone y hy
  · rw [content_setBuffer, if_pos hup]
    split
    · rename_i e
      rw [hdata, e.2]
    · exact h.content y hy hny
  · rw [cached_setBuffer]
    split
    · exact hup
    · exact h.kept y hy hny hc
  · rw [cached_setBuffer]
    by_cases hyz : y = z
    · rw [if_pos ⟨rfl, hyz⟩, hyz]
      exact ⟨hnf, hup⟩
    · rw [if_neg fun e : dev = dev ∧ y = z => hyz e.2]
      exact h.data y ((hheld y hyz).mp hy)
  · rw [setBuffer_buffer, if_neg fun e : d = dev ∧
      b = z => hm.held k d b hk (e.1 ▸ e.2 ▸ hz.unheld)]
    exact h.bits k d b bh₀ hk hb₀

theorem Cut.bread (hm : Mounted fs₀ dev sb) (h : Cut dev sb fs₀ fs freed held)
    (hz : Freeable fs₀ dev sb z) (hnf : z ∉ freed) (hnh : z ∉ held) :
    ∃ fs', bread dev z fs = .ok (some (Fs.content fs₀ dev z), fs') ∧
    Cut dev sb fs₀ fs' freed (z :: held) ∧
      fs'.inode = fs.inode := by
  have hav : available fs dev 0 z = true := by
    cases hz.readable with
    | inl hc => simp [available, h.kept z hz.unheld hnf hc]
    | inr hr => simp [available, h.readable, hr]
  obtain ⟨bh, hbread, hdata, hup, hcount, -⟩ := bread_available hav
  rw [h.content z hz.unheld hnf] at hdata hbread
  rw [h.count, hz.unheld] at hcount
  have h' : Cut dev sb fs₀ { fs with reads := fs.reads + 1 } freed held :=
    ⟨h.readable, h.super, h.count, h.freeable, h.gone, h.content, h.kept, h.data, h.bits⟩
  refine ⟨_, hbread, h'.setBuffer hm hz hnf hdata hup ?_ fun b hb => ?_, rfl⟩
  · simp [hcount, hnh]
  · simp [hb]

theorem Cut.look (h : Cut dev sb fs₀ fs freed held) (hz : z ∈ held) :
    ∃ bh, fs.buffer dev z = some bh ∧ bh.data = Fs.content fs₀ dev z ∧ bh.uptodate = true ∧
    bh.count = 1 := by
  obtain ⟨hnf, hc⟩ := h.data z hz
  have hun := (h.freeable z (List.mem_append_right _ hz)).unheld
  have hcount := h.count dev z
  cases hb : fs.buffer dev z with
  | none => simp [cached, hb] at hc
  | some bh =>
    have hup : bh.uptodate = true := by simpa [cached, hb] using hc
    refine ⟨bh, rfl, ?_, hup, ?_⟩
    · rw [← h.content z hun hnf, content_of_uptodate hb hup]
    · rw [bufferCount_of_some hb, hun] at hcount
      simpa [hz] using hcount

theorem Cut.brelse (hm : Mounted fs₀ dev sb) (h : Cut dev sb fs₀ fs freed (z :: held))
    (hnh : z ∉ held) :
    ∃ fs', brelse dev z fs = .ok fs' ∧ Cut dev sb fs₀ fs' freed held ∧ fs'.inode = fs.inode := by
  obtain ⟨bh, hb, hdata, hup, hcount⟩ := h.look List.mem_cons_self
  have hz := h.freeable z (by simp)
  refine ⟨_, brelse_eq_ok.mpr ⟨bh, hb, by omega, rfl⟩, ?_, rfl⟩
  refine h.setBuffer hm hz (h.data z List.mem_cons_self).1 hdata hup ?_ fun b hb => ?_
  · simp [hcount, hnh]
  · simp [hb]

def Frees (dev : Nat) (sb : SuperBlock) (fs₀ : FileSystem)
    (free : Nat → FileSystem → Except Panic FileSystem) (sub : Nat → List Nat) : Prop :=
  ∀ z fs freed held, Cut dev sb fs₀ fs freed held → (held ++ (freed ++ sub z)).Nodup →
    (∀ y ∈ sub z, Freeable fs₀ dev sb y) →
    ∃ fs', free z fs = .ok fs' ∧ Cut dev sb fs₀ fs' (freed ++ sub z) held ∧ fs'.inode = fs.inode

theorem not_mem_of_nodup (h : (held ++ (freed ++ [z])).Nodup) : z ∉ freed ∧ z ∉ held := by
  obtain ⟨-, h₁, h₂⟩ := List.nodup_append.mp h
  obtain ⟨-, -, h₁⟩ := List.nodup_append.mp h₁
  exact ⟨fun hz => h₁ z hz z (by simp) rfl, fun hz => h₂ z hz z (by simp) rfl⟩

theorem freeBlock_frees (hm : Mounted fs₀ dev sb) :
    Frees dev sb fs₀ (freeBlock dev) fun z => [z] := by
  intro z fs freed held h hnodup hfree
  obtain ⟨hnf, hnh⟩ := not_mem_of_nodup hnodup
  exact h.freeBlock hm (hfree z (by simp)) hnf hnh

theorem entriesOf_flatMap (sub : Nat → List Nat) (fs : FileSystem) (dev block : Nat) :
    (entriesOf fs dev block).flatMap sub = (List.range 512).flatMap fun k =>
      if (Fs.content fs dev block).short k = 0 then []
        else sub ((Fs.content fs dev block).short k) := by
  unfold entriesOf
  generalize List.range 512 = l
  induction l with
  | nil => rfl
  | cons k l ih =>
    by_cases hk : (Fs.content fs dev block).short k = 0
    · simpa [hk] using ih
    · simpa [hk] using ih

theorem Frees.loop {free : Nat → FileSystem → Except Panic FileSystem} {sub : Nat → List Nat}
    {block : Nat} (hfrees : Frees dev sb fs₀ free sub) (l : List Nat)
    (h : Cut dev sb fs₀ fs freed held) (hblock : block ∈ held) {under : Nat → List Nat}
    (hunder : under = fun k => if (Fs.content fs₀ dev block).short k = 0 then []
      else sub ((Fs.content fs₀ dev block).short k))
    (hnodup : (held ++ (freed ++ l.flatMap under)).Nodup)
    (hfree : ∀ y ∈ l.flatMap under, Freeable fs₀ dev sb y) :
    ∃ fs', l.foldlM (freeEntry free dev block) fs = .ok fs' ∧
    Cut dev sb fs₀ fs' (freed ++ l.flatMap under) held ∧
      fs'.inode = fs.inode := by
  induction l generalizing fs freed with
  | nil => exact ⟨fs, rfl, by simpa using h, rfl⟩
  | cons k l ih =>
    obtain ⟨bh, hb, hdata, -⟩ := h.look hblock
    rw [List.flatMap_cons] at hnodup hfree
    -- one entry, and the others behind it
    have hturn : ∃ fs₁, freeEntry free dev block fs k = .ok fs₁ ∧
      Cut dev sb fs₀ fs₁ (freed ++ under k) held ∧
        fs₁.inode = fs.inode := by
      simp only [freeEntry, hb, hdata]
      by_cases hk : (Fs.content fs₀ dev block).short k = 0
      · rw [if_neg (not_not.mpr hk), hunder]
        exact ⟨fs, rfl, by simpa [hk] using h, rfl⟩
      · have huk : under k = sub ((Fs.content fs₀ dev block).short k) := by
          rw [hunder]
          exact if_neg hk
        rw [if_pos hk, huk]
        refine hfrees _ fs freed held h ?_ fun y hy => hfree y (List.mem_append_left _ (huk ▸ hy))
        rw [huk, ← List.append_assoc, ← List.append_assoc] at hnodup
        rw [← List.append_assoc]
        exact (List.nodup_append.mp hnodup).1
    obtain ⟨fs₁, heq, h₁, hinode⟩ := hturn
    rw [← List.append_assoc freed] at hnodup
    obtain ⟨fs₂, heq₂, h₂, hinode₂⟩ := ih h₁ hnodup fun y hy => hfree y (List.mem_append_right _ hy)
    refine ⟨fs₂, ?_, ?_, hinode₂.trans hinode⟩
    · rw [List.foldlM_cons, heq]
      exact heq₂
    · rwa [List.flatMap_cons, ← List.append_assoc]

theorem Frees.indirect {free : Nat → FileSystem → Except Panic FileSystem} {sub : Nat → List Nat}
    (hm : Mounted fs₀ dev sb) (hfrees : Frees dev sb fs₀ free sub) :
    Frees dev sb fs₀ (freeIndirect free dev) (treeOf sub fs₀ dev) := by
  intro block fs freed held h hnodup hfree
  by_cases h0 : block = 0
  · refine ⟨fs, if_pos h0, ?_, rfl⟩
    simpa [treeOf, h0] using h
  · simp only [treeOf, if_neg h0, entriesOf_flatMap] at hnodup hfree ⊢
    generalize hunder : (fun k => if (Fs.content fs₀ dev block).short k = 0 then [] else
      sub ((Fs.content fs₀ dev block).short k)) = under at hnodup hfree ⊢
    generalize hE : (List.range 512).flatMap under = entries at hnodup hfree ⊢
    have hblock : Freeable fs₀ dev sb block := hfree block (by simp)
    rw [← List.append_assoc freed] at hnodup
    obtain ⟨hnf, hnh⟩ := not_mem_of_nodup hnodup
    obtain ⟨fs₁, hbread, h₁, hinode₁⟩ :=
      h.bread hm hblock (fun hb => hnf (List.mem_append_left _ hb)) hnh
    have hnodup₁ : (block :: held ++ (freed ++ entries)).Nodup := by
      rw [← List.append_assoc held] at hnodup
      exact (List.perm_append_singleton block _).nodup_iff.mp hnodup
    subst hE
    obtain ⟨fs₂, hloop, h₂, hinode₂⟩ :=
      hfrees.loop (List.range 512) h₁ List.mem_cons_self hunder.symm hnodup₁
      fun y hy => hfree y (List.mem_append_left _ hy)
    obtain ⟨fs₃, hrel, h₃, hinode₃⟩ := h₂.brelse hm hnh
    obtain ⟨fs₄, hlast, h₄, hinode₄⟩ := h₃.freeBlock hm hblock hnf hnh
    rw [List.append_assoc] at h₄
    refine ⟨fs₄, ?_, h₄, hinode₄.trans (hinode₃.trans (hinode₂.trans hinode₁))⟩
    simp only [freeIndirect, if_neg h0, freeEntries_eq, bind_eq_ok]
    refine ⟨_, hbread, ?_⟩
    simp only [bind_eq_ok]
    exact ⟨fs₂, hloop, fs₃, hrel, hlast⟩

theorem freeInd_frees (hm : Mounted fs₀ dev sb) :
    Frees dev sb fs₀ (freeInd dev) (indZones fs₀ dev) :=
  (freeBlock_frees hm).indirect hm

theorem freeDind_frees (hm : Mounted fs₀ dev sb) :
    Frees dev sb fs₀ (freeDind dev) (dindZones fs₀ dev) :=
  (freeInd_frees hm).indirect hm

theorem Cut.setInode (h : Cut dev sb fs₀ fs freed held) (i : InodeIx) (m : MInode) :
    Cut dev sb fs₀ (fs.setInode i m) freed held :=
  ⟨h.readable, h.super, h.count, h.freeable, h.gone, h.content, h.kept, h.data, h.bits⟩

/-- The loop over the direct blocks: the slots of `l` are freed and cleared. -/
theorem Cut.direct (hm : Mounted fs₀ dev sb) (l : List (Fin 9)) (hl : l.Nodup)
    (h : Cut dev sb fs₀ fs freed []) (hdev : (fs.inode i).iDev = dev)
    (hnodup : (freed ++ (l.map (fs.inode i).d.iZone).filter (· ≠ 0)).Nodup)
    (hfree : ∀ z ∈ (l.map (fs.inode i).d.iZone).filter (· ≠ 0), Freeable fs₀ dev sb z) :
    ∃ fs', l.foldlM (freeZone i) fs = .ok fs' ∧
      Cut dev sb fs₀ fs' (freed ++ (l.map (fs.inode i).d.iZone).filter (· ≠ 0)) [] ∧
      (fs'.inode i).iDev = dev ∧
      ∀ k, (fs'.inode i).d.iZone k = if k ∈ l then 0 else (fs.inode i).d.iZone k := by
  induction l generalizing fs freed with
  | nil => exact ⟨fs, rfl, by simpa using h, hdev, by simp⟩
  | cons k l ih =>
    obtain ⟨hk, hl⟩ := List.nodup_cons.mp hl
    rw [List.foldlM_cons]
    by_cases hz : (fs.inode i).d.iZone k = 0
    · simp only [List.map_cons, List.filter_cons, hz, ne_eq, not_true_eq_false, decide_false,
        Bool.false_eq_true,
        if_false] at hnodup hfree ⊢
      obtain ⟨fs', heq, hcut, hdev', hzone⟩ := ih hl h hdev hnodup hfree
      refine ⟨fs', ?_, hcut, hdev', fun k' => ?_⟩
      · rw [freeZone, if_pos hz]
        exact heq
      · rw [hzone k']
        by_cases hk' : k' = k
        · simp [hk', hz]
        · simp [hk']
    · simp only [List.map_cons, List.filter_cons, hz, ne_eq, not_false_eq_true, decide_true,
        if_true] at hnodup hfree ⊢
      rw [List.append_cons] at hnodup ⊢
      have hone := (List.nodup_append.mp hnodup).1
      obtain ⟨fs₁, heq, h₁, hinode⟩ :=
        h.freeBlock hm (hfree _ List.mem_cons_self)
          (not_mem_of_nodup (show ([] ++ (freed ++ _)).Nodup from hone)).1
        List.not_mem_nil
      generalize hfs₂ : fs₁.setInode i { fs₁.inode i with d := (fs₁.inode i).d.setZone k 0 } = fs₂
      have hin : fs₂.inode i = { fs.inode i with d := (fs.inode i).d.setZone k 0 } := by
        rw [← hfs₂, setInode_inode, hinode]
      have hzone₂ : ∀ k', (fs₂.inode i).d.iZone k' = if k' = k then 0
          else (fs.inode i).d.iZone k' := fun k' => by
        rw [hin]
        exact iZone_setZone _ k k' (by decide)
      have hmap : l.map (fs₂.inode i).d.iZone = l.map (fs.inode i).d.iZone :=
        List.map_congr_left fun k' hk' => by rw [hzone₂, if_neg fun e : k' = k => hk (e ▸ hk')]
      have h₂ := h₁.setInode i { fs₁.inode i with d := (fs₁.inode i).d.setZone k 0 }
      rw [hfs₂] at h₂
      obtain ⟨fs', heq', hcut, hdev', hzone⟩ :=
        ih hl h₂ (by rw [hin]; exact hdev) (by rw [hmap]; exact hnodup)
        fun z hzl => hfree z (List.mem_cons_of_mem _ (hmap ▸ hzl))
      refine ⟨fs', ?_, hmap ▸ hcut, hdev', fun k' => ?_⟩
      · rw [freeZone, if_neg hz, hdev, heq]
        change (l.foldlM (freeZone i) (fs₁.setInode i _)) = _
        rw [hfs₂]
        exact heq'
      · rw [hzone k', hzone₂ k']
        by_cases hk' : k' = k
        · simp [hk']
        · simp [hk']

theorem truncate_cut (hmode : S_ISREG (fs₀.inode i).d.iMode ∨ S_ISDIR (fs₀.inode i).d.iMode)
    (hm : Mounted fs₀ (fs₀.inode i).iDev sb) (hnodup : (zonesOf i fs₀).Nodup)
    (hfree : ∀ z ∈ zonesOf i fs₀, Freeable fs₀ (fs₀.inode i).iDev sb z) :
    ∃ fs', truncate i fs₀ = .ok fs' ∧ Cut (fs₀.inode i).iDev sb fs₀ fs' (zonesOf i fs₀) [] ∧
      (∀ k, (fs'.inode i).d.iZone k = 0) ∧ (fs'.inode i).d.iSize = 0 ∧
      (fs'.inode i).iDirt = true := by
  have hthree : zonesOf i fs₀ = directZones (fs₀.inode i).d ++ indZones fs₀ (fs₀.inode i).iDev
    ((fs₀.inode i).d.iZone 7) ++
    dindZones fs₀ (fs₀.inode i).iDev ((fs₀.inode i).d.iZone 8) := rfl
  rw [hthree] at hnodup
  obtain ⟨hnodup₂, -⟩ := List.nodup_append.mp hnodup
  obtain ⟨hnodup₁, -⟩ := List.nodup_append.mp hnodup₂
  have hsub : ∀ {z}, z ∈ directZones (fs₀.inode i).d ∨
    z ∈ indZones fs₀ (fs₀.inode i).iDev ((fs₀.inode i).d.iZone 7) ∨
      z ∈ dindZones fs₀ (fs₀.inode i).iDev ((fs₀.inode i).d.iZone 8) →
        Freeable fs₀ (fs₀.inode i).iDev sb z := by
    intro z hz
    refine hfree z ?_
    rw [hthree, List.mem_append, List.mem_append]
    exact or_assoc.mpr hz
  obtain ⟨fs₁, heq₁, h₁, hdev₁, hzone₁⟩ :=
    (Cut.refl (fs₀.inode i).iDev sb fs₀).direct (i := i) hm [0, 1, 2, 3, 4, 5, 6]
    (by decide) rfl hnodup₁ fun z hz => hsub (.inl hz)
  have h7 : (fs₁.inode i).d.iZone 7 = (fs₀.inode i).d.iZone 7 := hzone₁ 7
  have h8 : (fs₁.inode i).d.iZone 8 = (fs₀.inode i).d.iZone 8 := hzone₁ 8
  obtain ⟨fs₂, heq₂, h₂, hinode₂⟩ := freeInd_frees hm _ _ _ _ h₁ hnodup₂ fun z hz =>
    hsub (.inr (.inl hz))
  obtain ⟨fs₃, heq₃, h₃, hinode₃⟩ := freeDind_frees hm _ _ _ _ h₂ hnodup fun z hz =>
    hsub (.inr (.inr hz))
  have hinode : fs₃.inode = fs₁.inode := hinode₃.trans hinode₂
  refine ⟨fs₃.setInode i { fs₃.inode i with
    d := (((fs₃.inode i).d.setZone 8 0).setZone 7 0).setSize 0
    iDirt := true }, ?_, h₃.setInode i _, fun k => ?_, ?_, ?_⟩
  · rw [truncate, if_neg (not_not.mpr hmode)]
    simp only [bind_eq_ok]
    refine ⟨fs₁, heq₁, fs₂, ?_, fs₃, ?_, rfl⟩
    · rw [hdev₁, h7]
      exact heq₂
    · rw [hinode₂, hdev₁, h8]
      exact heq₃
  · rw [setInode_inode, hinode]
    change ((((fs₁.inode i).d.setZone 8 0).setZone 7 0).setSize 0).iZone k = 0
    rw [iZone_setSize, iZone_setZone _ _ _ (by decide), iZone_setZone _ _ _ (by decide), hzone₁ k]
    split
    · rfl
    · split
      · rfl
      · exact if_pos ((mem_direct k).mpr (by omega))
  · rw [setInode_inode]
    exact iSize_setSize _
  · rw [setInode_inode]

def Mapped (i : InodeIx) (fs : FileSystem) (z : Nat) : Prop :=
  z ≠ 0 ∧ ((∃ n < 7 + 512 + 512 * 512, ∃ fs', bmap i n fs = .ok (z, fs')) ∨ IndirectBlock i fs z)

/-- What `truncate` leaves: `fs'` has the file's blocks freed, and nothing else. -/
structure Truncated (i : InodeIx) (sb : SuperBlock) (fs fs' : FileSystem) : Prop where
  bits : ∀ k d b bh, sb.sZmap k = some (d, b) → fs.buffer d b = some bh →
    ∃ bh', fs'.buffer d b = some bh' ∧ ∀ n < 8192,
      setBit n bh'.data = true ↔ setBit n bh.data = true ∧ ¬ ∃ z, Mapped i fs z ∧
        zoneNr sb z = 8192 * k.val + n
  gone : ∀ z, Mapped i fs z → cached fs' (fs.inode i).iDev z = false
  counts : SameCounts fs fs'
  zones : ∀ k, (fs'.inode i).d.iZone k = 0
  size : (fs'.inode i).d.iSize = 0
  dirt : (fs'.inode i).iDirt = true

theorem mem_zonesOf_iff_mapped (hfree : ∀ z ∈ zonesOf i fs, Freeable fs (fs.inode i).iDev sb z) :
    z ∈ zonesOf i fs ↔ Mapped i fs z := by
  have hind : ∀ z, IndirectBlock i fs z → z ≠ 0 → Freeable fs (fs.inode i).iDev sb z :=
    fun z hz hne => hfree z (mem_zonesOf.mpr ⟨hne, .inr hz⟩)
  rw [mem_zonesOf, Mapped]
  refine and_congr .rfl (or_congr (exists_congr fun n => and_congr_right fun hn => ?_) .rfl)
  obtain ⟨fs₁, heq, -⟩ := bmap_eq hn (fun z hz hne => (hind z hz hne).readable) fun z hz hne => by
    rw [(hind z hz hne).unheld]
    decide
  refine ⟨fun hz => ⟨fs₁, hz ▸ heq⟩, fun ⟨fs₂, heq₂⟩ => ?_⟩
  exact (Prod.mk.inj (Except.ok.inj (heq.symm.trans heq₂))).1

/-- `truncate` frees exactly the blocks that the file maps. -/
theorem truncate_frees_mapped (hmode : S_ISREG (fs.inode i).d.iMode ∨ S_ISDIR (fs.inode i).d.iMode)
    (hm : Mounted fs (fs.inode i).iDev sb) (hnodup : (zonesOf i fs).Nodup)
    (hfree : ∀ z ∈ zonesOf i fs, Freeable fs (fs.inode i).iDev sb z) :
    ∃ fs', truncate i fs = .ok fs' ∧ Truncated i sb fs fs' := by
  obtain ⟨fs', heq, hcut, hzones, hsize, hdirt⟩ := truncate_cut hmode hm hnodup hfree
  refine ⟨fs', heq, fun k d b bh hk hb => ?_, fun z hz => ?_, fun d b => ?_, hzones, hsize, hdirt⟩
  · obtain ⟨bh', hb', hbits⟩ := hcut.bits k d b bh hk hb
    refine ⟨bh', hb', fun n hn => (hbits n hn).trans (and_congr .rfl ?_)⟩
    simp only [mem_zonesOf_iff_mapped hfree, not_exists, not_and, ne_eq]
  · exact hcut.gone z ((mem_zonesOf_iff_mapped hfree).mpr hz)
  · rw [hcut.count]
    simp

section Example

/-- A file of zones 6, 8 and 11: 8 is named in 7, and 11 in 10, which is named in 9. -/
def indirectFs : FileSystem :=
  let file := (((DInode.zero.setMode 0o100644).setZone 0 6).setZone 7 7).setZone 8 9
  { smallFs with
    disk := fun dev block j =>
      if dev = 1 then
        if block = 7 ∧ j = 0 then 8 else if block = 9 ∧ j = 0 then 10 else if block = 10 ∧
          j = 2 then 11 else 0
      else 0
    buffer := fun dev block => if dev = 1 ∧ block = 3 then some ⟨fun _ => 255, true, false, 1⟩
      else none
    super := fun k => if k = 0 then { smallSuper with sZmap := fun k => if k = 0 then some (1, 3)
      else none } else
      { smallSuper with sDev := 0 }
    inode := fun i => if i = 0 then ⟨file, 1, 2, 1, false, false, false, false⟩ else .zero }

theorem zonesOf_indirectFs : zonesOf 0 indirectFs = [6, 8, 7, 11, 10, 9] := by decide +kernel

theorem truncate_frees_mapped_small :
    ∃ fs', truncate 0 indirectFs = .ok fs' ∧ Truncated 0 (indirectFs.super 0) indirectFs fs' := by
  have hmap : ∀ {k p}, (indirectFs.super 0).sZmap k = some p → k = 0 ∧ p = (1, 3) := by
    intro k p h
    obtain ⟨hk, hp⟩ := Option.ite_none_right_eq_some.mp h
    exact ⟨hk, (Option.some.inj hp).symm⟩
  refine truncate_frees_mapped (by decide)
    ⟨?_, by decide, fun k d b hk => ?_, fun k k' p hk hk' => ?_⟩
    (zonesOf_indirectFs ▸ by decide) fun z hz => ?_
  · rfl
  · obtain ⟨rfl, rfl⟩ := Prod.mk.inj (hmap hk).2
    decide
  · exact (hmap hk).1.trans (hmap hk').1.symm
  · rw [zonesOf_indirectFs] at hz
    have hused : ∀ z ∈ [6, 8, 7, 11, 10, 9], ZoneUsed indirectFs (indirectFs.super 0) z := by
      intro z hz
      refine ⟨1, 3, ⟨fun _ => 255, true, false, 1⟩, ?_, rfl, ?_⟩
      · revert z
        decide
      · revert z
        decide
    have hrange : ∀ z ∈ [6, 8, 7, 11, 10, 9], 5 ≤ z ∧ z < 16 ∧ bufferCount indirectFs 1 z = 0 := by
      decide
    obtain ⟨hfirst, hlast, hcount⟩ := hrange z hz
    exact ⟨hfirst, hlast, hused z hz, .inr fun _ => rfl, hcount⟩

end Example

end Hios.Fs
