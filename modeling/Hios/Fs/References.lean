import Hios.Fs.Buffers
import Hios.Fs.ReadWrite

/-! Whether a call of the file system gives back the buffers it takes. -/
namespace Hios.Fs
open Hios.Outcome
variable {dev block : Nat} {i dir : InodeIx} {fs fs' fs'' : FileSystem}

def SameCounts (fs fs' : FileSystem) : Prop := ∀ d b, bufferCount fs' d b = bufferCount fs d b

def OneMore (dev block : Nat) (fs fs' : FileSystem) : Prop :=
  ∀ d b, bufferCount fs' d b = if d = dev ∧ b = block then (bufferCount fs d b + 1) % 256
    else bufferCount fs d b

theorem SameCounts.refl (fs : FileSystem) : SameCounts fs fs := fun _ _ => rfl

theorem SameCounts.trans (h : SameCounts fs fs') (h' : SameCounts fs' fs'') : SameCounts fs fs'' :=
  fun d b => (h' d b).trans (h d b)

theorem SameCounts.fit (h : SameCounts fs fs') (hfit : CountsFit fs) : CountsFit fs' :=
  fun d b => h d b ▸ hfit d b

theorem OneMore.fit (h : OneMore dev block fs fs') (hfit : CountsFit fs) : CountsFit fs' :=
  fun d b => by
  rw [h d b]
  split
  · exact Nat.mod_lt _ (by decide)
  · exact hfit d b

theorem SameCounts.oneMore (h : SameCounts fs fs') (h' : OneMore dev block fs' fs'') :
    OneMore dev block fs fs'' :=
  fun d b => by rw [h' d b, h d b]

theorem OneMore.same (h : OneMore dev block fs fs') (h' : SameCounts fs' fs'') :
    OneMore dev block fs fs'' :=
  fun d b => by rw [h' d b, h d b]

theorem sameCounts_setBuffer {bh bh' : Buffer} (h : fs.buffer dev block = some bh)
    (hcount : bh'.count = bh.count) :
    SameCounts fs (fs.setBuffer dev block (some bh')) := fun d b => by
  rw [bufferCount_setBuffer]
  split
  · rename_i e
    rw [e.1, e.2, bufferCount_of_some h, hcount]
  · rfl

/-- A failing `bread` changes no count, another one holds the block once more. -/
theorem bread_counts (dev block : Nat) (hfit : CountsFit fs) :
    IfReturns (fun r => match r.1 with
      | none => SameCounts fs r.2
      | some _ => OneMore dev block fs r.2) (bread dev block fs) := by
  cases ha : available fs dev 0 block with
  | true =>
    obtain ⟨bh, hbread, -, -, hcount, -⟩ := bread_available ha
    rw [hbread]
    intro d b
    refine (bufferCount_setBuffer _ dev block bh d b).trans ?_
    split
    · rename_i e
      rw [e.1, e.2, hcount]
    · rfl
  | false =>
    rw [bread_unavailable ha]
    split
    · trivial
    · intro d b
      refine (bufferCount_setBuffer _ dev block _ d b).trans ?_
      split
      · rename_i e
        have hlt := hfit dev block
        rw [e.1, e.2]
        change (bufferCount fs dev block + 1) % 256 - 1 = _
        omega
      · rfl

theorem OneMore.brelse (h : OneMore dev block fs fs') (hfit : CountsFit fs) :
    IfReturns (SameCounts fs) (brelse dev block fs') := by
  cases hrel : Fs.brelse dev block fs' with
  | error e => trivial
  | ok fs₁ =>
    obtain ⟨bh, hb, hne, rfl⟩ := brelse_eq_ok.mp hrel
    intro d b
    rw [bufferCount_setBuffer]
    split
    · rename_i e
      have hlt := hfit dev block
      have hcount := h dev block
      rw [if_pos ⟨rfl, rfl⟩, bufferCount_of_some hb] at hcount
      rw [e.1, e.2]
      change bh.count - 1 = _
      omega
    · rename_i e
      rw [h d b, if_neg e]

theorem modify_counts (dev block : Nat) (f : Block → Block) (fs : FileSystem) :
    IfReturns (SameCounts fs) (modify dev block f fs) := by
  unfold modify
  split
  · trivial
  · rename_i bh hb
    exact sameCounts_setBuffer hb rfl

theorem flush_counts (dev : Nat) (fs : FileSystem) : SameCounts fs (flush dev fs) := fun d b => by
  simp only [bufferCount, flush]
  cases h : fs.buffer d b with
  | none => rfl
  | some bh =>
    by_cases hd : d = dev
    · simp [hd]
    · simp [hd]

theorem lockInode_counts (i : InodeIx) (fs : FileSystem) :
    IfReturns (SameCounts fs) (lockInode i fs) := by
  simp only [lockInode, waitOnInode]
  split
  · trivial
  · exact .refl fs

theorem OneMore.bind {α : Type} {R : α → Prop} {f : FileSystem → Except Panic α}
    (h : OneMore dev block fs fs') (hfit : CountsFit fs)
    (hf : ∀ fs'', SameCounts fs fs'' → IfReturns R (f fs'')) :
    IfReturns R (Fs.brelse dev block fs' >>= f) := (h.brelse hfit).bind hf

theorem readInode_counts (i : InodeIx) (hfit : CountsFit fs) :
    IfReturns (SameCounts fs) (readInode i fs) := by
  refine (lockInode_counts i fs).bind fun fs₁ h₁ => ?_
  have hfit₁ := h₁.fit hfit
  dsimp only
  split
  · trivial
  · rename_i sb hsb
    split
    · trivial
    · refine (bread_counts _ _ hfit₁).bind fun r hr => ?_
      obtain ⟨data, fs₂⟩ := r
      cases data with
      | none => trivial
      | some data =>
        refine OneMore.bind (R := SameCounts fs) ?_ hfit₁ fun fs₃ h₃ => ?_
        · exact hr
        · exact h₁.trans h₃

theorem writeInode_counts (i : InodeIx) (hfit : CountsFit fs) :
    IfReturns (SameCounts fs) (writeInode i fs) := by
  refine (lockInode_counts i fs).bind fun fs₁ h₁ => ?_
  have hfit₁ := h₁.fit hfit
  dsimp only
  split
  · exact h₁
  · split
    · trivial
    · split
      · trivial
      · refine (bread_counts _ _ hfit₁).bind fun r hr => ?_
        obtain ⟨data, fs₂⟩ := r
        cases data with
        | none => trivial
        | some data =>
          refine (modify_counts _ _ _ fs₂).bind fun fs₃ h₃ => ?_
          refine OneMore.bind (R := SameCounts fs) ?_ hfit₁ fun fs₄ h₄ => ?_
          · exact OneMore.same hr h₃
          · exact h₁.trans h₄

theorem syncInodes_counts (hfit : CountsFit fs) : IfReturns (SameCounts fs) (syncInodes fs) := by
  refine Ends.foldlM (I := SameCounts fs) (.refl fs) fun fs₁ i _ h₁ => ?_
  simp only [waitOnInode]
  split
  · trivial
  · change IfReturns (SameCounts fs) (if _ then _ else _)
    split
    · exact (writeInode_counts i (h₁.fit hfit)).mono fun _ h₂ => h₁.trans h₂
    · exact h₁

theorem syncDev_counts (dev : Nat) (hfit : CountsFit fs) :
    IfReturns (SameCounts fs) (syncDev dev fs) := by
  have h₁ := flush_counts dev fs
  refine (syncInodes_counts (h₁.fit hfit)).bind fun fs₂ h₂ => ?_
  exact (h₁.trans h₂).trans (flush_counts dev fs₂)

theorem freeInode_counts (i : InodeIx) (fs : FileSystem) :
    IfReturns (SameCounts fs) (freeInode i fs) := by
  simp only [freeInode]
  split
  · exact .refl fs
  · split
    · trivial
    · split
      · trivial
      · split
        · trivial
        · split
          · trivial
          · split
            · trivial
            · exact (modify_counts _ _ _ fs).bind fun fs₁ h₁ => h₁

theorem getEmptyInode_counts (hfit : CountsFit fs) :
    IfReturns (fun r => SameCounts fs r.2) (getEmptyInode fs) := by
  simp only [getEmptyInode]
  split
  · trivial
  · rename_i i hi
    simp only [waitOnInode]
    split
    · trivial
    · change IfReturns _ (if _ then _ else _)
      split
      · have hfit₁ : CountsFit
          { fs with lastInode := (scanInodes fs NR_INODE fs.lastInode none).1 } := hfit
        refine (writeInode_counts i hfit₁).bind fun fs₁ h₁ => ?_
        split
        · trivial
        · exact h₁
      · change IfReturns _ (if _ then _ else _)
        split
        · trivial
        · exact .refl fs

theorem bmap_counts (i : InodeIx) (n : Nat) (hfit : CountsFit fs) :
    IfReturns (fun r => SameCounts fs r.2) (bmap i n fs) := by
  simp only [bmap]
  split
  · trivial
  · split
    · exact .refl fs
    · split
      · split
        · exact .refl fs
        · refine (bread_counts _ _ hfit).bind fun r hr => ?_
          obtain ⟨data, fs₁⟩ := r
          cases data with
          | none => exact hr
          | some data => exact OneMore.bind hr hfit fun fs₂ h₂ => h₂
      · split
        · exact .refl fs
        · refine (bread_counts _ _ hfit).bind fun r hr => ?_
          obtain ⟨data, fs₁⟩ := r
          cases data with
          | none => exact hr
          | some data =>
            refine OneMore.bind (R := fun r : Nat × FileSystem => SameCounts fs r.2) hr hfit fun
              fs₂ h₂ => ?_
            have hfit₂ := h₂.fit hfit
            split
            · exact h₂
            · refine (bread_counts _ _ hfit₂).bind fun r hr => ?_
              obtain ⟨data, fs₃⟩ := r
              cases data with
              | none => exact h₂.trans hr
              | some data =>
                exact OneMore.bind (R := fun r : Nat × FileSystem => SameCounts fs r.2) hr hfit₂ fun
                  fs₄ h₄ => h₂.trans h₄

def Holding (bh : Option (BufferName × Block)) (fs fs' : FileSystem) : Prop :=
  match bh with
  | none => SameCounts fs fs'
  | some (bh, _) => OneMore bh.1 bh.2 fs fs'

theorem Holding.brelseDir {bh : Option (BufferName × Block)} (h : Holding bh fs fs')
    (hfit : CountsFit fs) :
    IfReturns (SameCounts fs) (brelseDir bh fs') := by
  cases bh with
  | none => exact h
  | some bh => exact OneMore.brelse h hfit

theorem readDirBlock_counts (dir : InodeIx) (k : Nat) (hfit : CountsFit fs) :
    IfReturns (fun r => Holding r.1 fs r.2) (readDirBlock dir k fs) := by
  refine (bmap_counts dir k hfit).bind fun r h₁ => ?_
  dsimp only
  split
  · exact h₁
  · refine (bread_counts _ _ (h₁.fit hfit)).bind fun r hr => ?_
    obtain ⟨data, fs₂⟩ := r
    cases data with
    | none => exact h₁.trans hr
    | some data => exact h₁.oneMore hr

def HandsOut (fs : FileSystem) (de : Option DirEntry) (fs' : FileSystem) : Prop :=
  match de with
  | none => SameCounts fs fs'
  | some de => OneMore de.bh.1 de.bh.2 fs fs'

theorem findLoop_counts {fs₀ : FileSystem} (dir : InodeIx) (name : List Byte)
    (entries fuel n de : Nat) {bh : Option (BufferName × Block)} (hfit : CountsFit fs₀)
    (h : Holding bh fs₀ fs) :
    IfReturns (fun r => HandsOut fs₀ r.1 r.2) (findLoop dir name entries fuel n de bh fs) := by
  induction fuel generalizing n de bh fs with
  | zero => exact (h.brelseDir hfit).bind fun fs₁ h₁ => h₁
  | succ fuel ih =>
    simp only [findLoop]
    split
    · exact (h.brelseDir hfit).bind fun fs₁ h₁ => h₁
    · have hturn : ∀ (bh : Option (BufferName × Block)) (de : Nat) (fs₁ : FileSystem),
        Holding bh fs₀ fs₁ →
          IfReturns (fun r => HandsOut fs₀ r.1 r.2) (match bh with
            | none => findLoop dir name entries fuel (n + DIR_ENTRIES_PER_BLOCK) de none fs₁
            | some (bh, data) =>
              if matchEntry name data (Fin.ofNat 64 de) then
                pure (some ⟨bh, Fin.ofNat 64 de, data.dirInode (Fin.ofNat 64 de)⟩, fs₁)
              else findLoop dir name entries fuel (n + 1) (de + 1) (some (bh, data)) fs₁) := by
        intro bh de fs₁ hr
        cases bh with
        | none => exact ih _ _ hr
        | some bh =>
          dsimp only
          split
          · exact hr
          · exact ih _ _ hr
      split
      · exact hturn bh de fs h
      · refine (h.brelseDir hfit).bind fun fs₁ h₁ => ?_
        refine (readDirBlock_counts dir _ (h₁.fit hfit)).bind fun r hr => ?_
        obtain ⟨bh, fs₂⟩ := r
        cases bh with
        | none => exact hturn none 0 fs₂ (h₁.trans hr)
        | some bh => exact hturn (some bh) 0 fs₂ (h₁.oneMore hr)

theorem fileReadLoop_counts (i : InodeIx) (fuel left pos : Nat) (out : List Byte)
    (hfit : CountsFit fs) :
    IfReturns (fun r => SameCounts fs r.2.2) (fileReadLoop i fuel left pos out fs) := by
  induction fuel generalizing left pos out fs with
  | zero => exact .refl fs
  | succ fuel ih =>
    simp only [fileReadLoop]
    split
    · exact .refl fs
    · refine (bmap_counts i _ hfit).bind fun r h₁ => ?_
      have hfit₁ := h₁.fit hfit
      split
      · exact (ih _ _ _ hfit₁).mono fun _ h₂ => h₁.trans h₂
      · refine (bread_counts _ _ hfit₁).bind fun r hr => ?_
        obtain ⟨data, fs₂⟩ := r
        cases data with
        | none => exact h₁.trans hr
        | some data =>
          refine OneMore.bind (R := fun r : List Byte × Nat × FileSystem => SameCounts fs r.2.2) hr
            hfit₁ fun fs₃ h₃ => ?_
          exact (ih _ _ _ (h₃.fit hfit₁)).mono fun _ h₄ => (h₁.trans h₃).trans h₄

theorem fileRead_counts (i : InodeIx) (filp : Fin NR_FILE) (count : Int) (hfit : CountsFit fs) :
    IfReturns (fun r => SameCounts fs r.2.2) (fileRead i filp count fs) := by
  unfold fileRead
  split
  · exact .refl fs
  · exact (fileReadLoop_counts i _ _ _ _ hfit).bind fun r h₁ => h₁

def Readable (fs : FileSystem) (dev block : Nat) : Prop :=
  cached fs dev block = true ∨ ∀ n, fs.readable n dev block = true

def DirtyHolds (fs : FileSystem) : Prop :=
  ∀ d b bh, fs.buffer d b = some bh → bh.dirt = true → bh.uptodate = true

theorem dirtyHolds_setBuffer {bh : Buffer} (h : DirtyHolds fs)
    (hup : bh.dirt = true → bh.uptodate = true) :
    DirtyHolds (fs.setBuffer dev block (some bh)) := by
  intro d b bh' hb hd
  rw [setBuffer_buffer] at hb
  split at hb
  · obtain rfl := Option.some.inj hb
    exact hup hd
  · exact h d b bh' hb hd

structure Still (fs fs' : FileSystem) : Prop where
  only : OnlyBuffers fs fs'
  counts : SameCounts fs fs'
  content : ∀ d b, content fs' d b = content fs d b
  cached : ∀ d b, cached fs d b = true → cached fs' d b = true
  dirty : DirtyHolds fs → DirtyHolds fs'

structure Taken (dev block : Nat) (fs fs' : FileSystem) : Prop where
  only : OnlyBuffers fs fs'
  counts : OneMore dev block fs fs'
  content : ∀ d b, content fs' d b = content fs d b
  cached : ∀ d b, cached fs d b = true → cached fs' d b = true
  dirty : DirtyHolds fs → DirtyHolds fs'
  data : ∃ bh, fs'.buffer dev block = some bh ∧ bh.data = Fs.content fs dev block ∧
    bh.uptodate = true

theorem Still.refl (fs : FileSystem) : Still fs fs :=
  ⟨.refl fs, .refl fs, fun _ _ => rfl, fun _ _ => id, id⟩

theorem Still.trans (h : Still fs fs') (h' : Still fs' fs'') : Still fs fs'' :=
  ⟨h.only.trans h'.only, h.counts.trans h'.counts,
    fun d b => (h'.content d b).trans (h.content d b),
    fun d b hc => h'.cached d b (h.cached d b hc), fun hd => h'.dirty (h.dirty hd)⟩

theorem Still.readable (h : Still fs fs') (hr : Readable fs dev block) :
    Readable fs' dev block := by
  cases hr with
  | inl hc => exact .inl (h.cached _ _ hc)
  | inr hr => exact .inr fun n => by rw [h.only]; exact hr n

theorem content_of_uptodate {bh : Buffer} (h : fs.buffer dev block = some bh)
    (hup : bh.uptodate = true) :
    content fs dev block = bh.data := by
  simp [content, h, hup]

theorem content_setBuffer (fs : FileSystem) (dev block : Nat) (bh : Buffer) (d b : Nat) :
    content (fs.setBuffer dev block (some bh)) d b =
      if d = dev ∧ b = block then (if bh.uptodate then bh.data else fs.disk d b)
        else content fs d b := by
  simp only [content, setBuffer_buffer]
  by_cases h : d = dev ∧ b = block
  · simp only [if_pos h]
    rfl
  · simp only [if_neg h]
    rfl

theorem cached_setBuffer (fs : FileSystem) (dev block : Nat) (bh : Buffer) (d b : Nat) :
    cached (fs.setBuffer dev block (some bh)) d b = if d = dev ∧ b = block then bh.uptodate
      else cached fs d b := by
  simp only [cached, setBuffer_buffer]
  split
  · rfl
  · rfl

theorem available_of_readable (hr : Readable fs dev block) : available fs dev 0 block = true := by
  cases hr with
  | inl hc => simp [available, hc]
  | inr hr => simp [available, hr]

theorem bread_taken (ha : available fs dev 0 block = true) :
    ∃ fs', bread dev block fs = .ok (some (content fs dev block), fs') ∧
    Taken dev block fs fs' := by
  obtain ⟨bh, hbread, hdata, hup, hcount, -⟩ := bread_available ha
  refine ⟨_, hbread, rfl, fun d b => ?_, fun d b => ?_, fun d b hc => ?_,
    fun hd => dirtyHolds_setBuffer (show DirtyHolds { fs with reads := fs.reads + 1 } from hd) fun
      _ => hup, bh, ?_, hdata, hup⟩
  · refine (bufferCount_setBuffer _ dev block bh d b).trans ?_
    split
    · rename_i e
      rw [e.1, e.2, hcount]
    · rfl
  · refine (content_setBuffer _ dev block bh d b).trans ?_
    rw [if_pos hup]
    split
    · rename_i e
      rw [e.1, e.2, hdata]
    · rfl
  · refine (cached_setBuffer _ dev block bh d b).trans ?_
    split
    · exact hup
    · exact hc
  · rw [setBuffer_buffer, if_pos ⟨rfl, rfl⟩]

theorem Taken.brelse (h : Taken dev block fs fs') (hcount : bufferCount fs dev block < 255) :
    ∃ fs'', brelse dev block fs' = .ok fs'' ∧ Still fs fs'' := by
  obtain ⟨bh, hb, hdata, hup⟩ := h.data
  have hself := h.counts dev block
  rw [if_pos ⟨rfl, rfl⟩, bufferCount_of_some hb] at hself
  refine ⟨_, brelse_eq_ok.mpr ⟨bh, hb, by omega, rfl⟩, h.only.trans (onlyBuffers_setBuffer ..),
    fun d b => ?_, fun d b => ?_, fun d b hc => ?_,
      fun hd => dirtyHolds_setBuffer (h.dirty hd) fun _ => hup⟩
  · rw [bufferCount_setBuffer]
    split
    · rename_i e
      rw [e.1, e.2]
      change bh.count - 1 = _
      omega
    · rename_i e
      rw [h.counts d b, if_neg e]
  · rw [content_setBuffer]
    split
    · rename_i e
      rw [e.1, e.2, ← hdata]
    · exact h.content d b
  · rw [cached_setBuffer]
    split
    · exact hup
    · exact h.cached d b hc

end Hios.Fs
