import Hios.Fs.Transparency

/-! The functions over buffers of `Hios.Fs.InodeTable`, which keep a buffer for every block and
neither lists nor requests, answer as those of the block cache do. -/
namespace Hios.Fs
open Hios.BlkDrv Hios.Run

/-- The file system with the blocks whose buffers are held. -/
structure BlockUse where
  fs : FileSystem
  held : List (Nat × Nat)

def blockStep (s : BlockUse) : CacheCall Block → Option (Option Block × BlockUse)
  | .bread dev block => do
    let (data, fs) ← (bread dev block s.fs).toOption
    let data ← data
    return (some data, ⟨fs, (dev, block) :: s.held⟩)
  | .getblk dev block =>
    some (none, ⟨s.fs.setBuffer dev block (some (getblk dev block s.fs)), (dev, block) :: s.held⟩)
  | .modify i f => do
    let h ← s.held[i]?
    let fs ← (modify h.1 h.2 f s.fs).toOption
    return (none, ⟨fs, s.held⟩)
  | .brelse i => do
    let h ← s.held[i]?
    let fs ← (brelse h.1 h.2 s.fs).toOption
    return (none, ⟨fs, s.held.eraseIdx i⟩)
  | .syncDev dev => do
    let fs ← (syncDev dev s.fs).toOption
    return (none, ⟨fs, s.held⟩)

/-- The buffers hold the blocks of the flat store, each as often as it is held. The driver reads
every block, and no inode is to be written. -/
structure Mirrors (s : BlockUse) (u : FlatUse Block) : Prop where
  content : ∀ d b, content s.fs d b = u.store d b
  held : s.held = u.held.map fun h => (h.dev, h.block)
  counts : ∀ d b, bufferCount s.fs d b = u.refs d b
  read : ∀ h ∈ u.held, h.read = true → cached s.fs h.dev h.block = true
  dirty : DirtyHolds s.fs
  readable : ∀ n d b, s.fs.readable n d b = true
  idle : ∀ i, (s.fs.inode i).iLock = false ∧ (s.fs.inode i).iDirt = false

namespace Mirrors
variable {s : BlockUse} {u : FlatUse Block} {dev block : Nat} {fs : FileSystem}

theorem refs_cons (u : FlatUse Block) (h : Hold) (d b : Nat) :
    FlatUse.refs { u with held := h :: u.held } d b =
    u.refs d b + if d = h.dev ∧ b = h.block then 1 else 0 := by
  simp only [FlatUse.refs, List.countP_cons, decide_eq_true_eq]
  by_cases hdb : d = h.dev ∧ b = h.block
  · simp [hdb]
  · have hno : ¬ (h.dev = d ∧ h.block = b) := fun e => hdb ⟨e.1.symm, e.2.symm⟩
    simp [hdb, hno]

/-- One more reference to a block, whose bytes and whose neighbours stay. -/
theorem hold (h : Mirrors s u) (read : Bool) (honly : OnlyBuffers s.fs fs)
    (hcontent : ∀ d b, Fs.content fs d b = Fs.content s.fs d b) (hone : OneMore dev block s.fs fs)
    (hcached : ∀ d b, cached s.fs d b = true → cached fs d b = true)
    (hread : read = true → cached fs dev block = true) (hdirty : DirtyHolds fs)
    (hrefs : u.refs dev block < 255) :
    Mirrors ⟨fs, (dev, block) :: s.held⟩ { u with held := ⟨dev, block, read⟩ :: u.held } := by
  refine ⟨fun d b => (hcontent d b).trans (h.content d b),
    by simp [h.held], fun d b => ?_, fun x hx hr => ?_, hdirty,
    fun n d b => by rw [honly]; exact h.readable n d b,
    fun i => by rw [honly.inode]; exact h.idle i⟩
  · rw [hone d b, refs_cons, h.counts]
    by_cases hdb : d = dev ∧ b = block
    · rw [if_pos hdb, if_pos hdb, hdb.1, hdb.2, Nat.mod_eq_of_lt (by omega)]
    · rw [if_neg hdb, if_neg hdb, Nat.add_zero]
  · cases hx with
    | head => exact hread hr
    | tail _ hx => exact hcached _ _ (h.read x hx hr)

theorem bread (h : Mirrors s u) (hrefs : u.refs dev block < 255) :
    ∃ fs, Fs.bread dev block s.fs = .ok (some (u.store dev block), fs) ∧
      Mirrors ⟨fs, (dev, block) :: s.held⟩ { u with held := ⟨dev, block, true⟩ :: u.held } := by
  obtain ⟨fs, hbread, ht⟩ :=
    bread_taken (available_of_readable (.inr fun n => h.readable n dev block))
  obtain ⟨bh, hbh, hdata, hup⟩ := ht.data
  refine ⟨fs, h.content dev block ▸ hbread, h.hold true ht.only ht.content ht.counts ht.cached
    (fun _ => ?_)
    (ht.dirty h.dirty) hrefs⟩
  simp [cached, hbh, hup]

theorem getblk (h : Mirrors s u) (hrefs : u.refs dev block < 255) :
    Mirrors ⟨s.fs.setBuffer dev block (some (Fs.getblk dev block s.fs)), (dev, block) :: s.held⟩
      { u with held := ⟨dev, block, false⟩ :: u.held } := by
  have hup := getblk_uptodate s.fs dev block
  refine h.hold false (onlyBuffers_setBuffer ..) (fun d b => ?_) (fun d b => ?_)
    (fun d b hc => ?_) nofun
    (dirtyHolds_setBuffer h.dirty fun hd => ?_) hrefs
  · rw [content_setBuffer, hup]
    by_cases hdb : d = dev ∧ b = block
    · rw [if_pos hdb, hdb.1, hdb.2]
      cases hc : cached s.fs dev block with
      | true => exact getblk_data hc
      | false => exact (content_of_not_cached hc).symm
    · rw [if_neg hdb]
  · rw [bufferCount_setBuffer, getblk_count]
    by_cases hdb : d = dev ∧ b = block
    · rw [if_pos hdb, if_pos hdb, hdb.1, hdb.2]
    · rw [if_neg hdb, if_neg hdb]
  · rw [cached_setBuffer, hup]
    split
    · rename_i hdb
      rwa [hdb.1, hdb.2] at hc
    · exact hc
  · cases hb : s.fs.buffer dev block with
    | none => simp [Fs.getblk, hb] at hd
    | some bh =>
      simpa [Fs.getblk, hb] using h.dirty dev block bh hb (by simpa [Fs.getblk, hb] using hd)

theorem modify {i : Nat} {m : Hold} (h : Mirrors s u)
  (hm : u.held[i]? = some m) (hread : m.read = true)
    (f : Block → Block) : ∃ fs, Fs.modify m.dev m.block f s.fs = .ok fs ∧
      Mirrors ⟨fs, s.held⟩ { u with
        store := BlockCache.overwrite u.store m.dev m.block (f (u.store m.dev m.block)) } := by
  have hcached := h.read m (List.mem_of_getElem? hm) hread
  cases hb : s.fs.buffer m.dev m.block with
  | none => simp [cached, hb] at hcached
  | some bh =>
    have hup : bh.uptodate = true := by simpa [cached, hb] using hcached
    have hdata : bh.data = u.store m.dev m.block := by rw [← h.content, content_of_uptodate hb hup]
    refine ⟨s.fs.setBuffer m.dev m.block (some { bh with data := f bh.data, dirt := true }),
      by simp only [Fs.modify, hb], fun d b => ?_, h.held, fun d b => ?_, fun x hx hr => ?_,
      dirtyHolds_setBuffer h.dirty fun _ => hup, h.readable, h.idle⟩
    · rw [content_setBuffer, if_pos hup, hdata, h.content]
      rfl
    · have hcount := h.counts d b
      rw [bufferCount_setBuffer]
      split
      · rename_i hdb
        rw [hdb.1, hdb.2, bufferCount_of_some hb] at hcount
        rw [hdb.1, hdb.2]
        exact hcount
      · exact hcount
    · rw [cached_setBuffer]
      split
      · exact hup
      · exact h.read x hx hr

theorem refs_eraseIdx {i : Nat} {m : Hold} (hm : u.held[i]? = some m) (d b : Nat) : u.refs d b =
    FlatUse.refs { u with held := u.held.eraseIdx i } d b + if d = m.dev ∧ b = m.block then 1
      else 0 := by
  obtain ⟨store, held⟩ := u
  simp only [FlatUse.refs] at hm ⊢
  induction held generalizing i with
  | nil => simp at hm
  | cons x held ih =>
    cases i with
    | zero =>
      obtain rfl : x = m := by simpa using hm
      exact refs_cons ⟨store, held⟩ x d b
    | succ i =>
      rw [List.eraseIdx_cons_succ, List.countP_cons, List.countP_cons, ih (by simpa using hm)]
      omega

theorem brelse {i : Nat} {m : Hold} (h : Mirrors s u) (hm : u.held[i]? = some m) :
    ∃ fs, Fs.brelse m.dev m.block s.fs = .ok fs ∧
      Mirrors ⟨fs, s.held.eraseIdx i⟩ { u with held := u.held.eraseIdx i } := by
  have hrefs := refs_eraseIdx hm
  have hcount := h.counts m.dev m.block
  rw [hrefs, if_pos ⟨rfl, rfl⟩] at hcount
  cases hb : s.fs.buffer m.dev m.block with
  | none => simp [bufferCount, hb] at hcount
  | some bh =>
    rw [bufferCount_of_some hb] at hcount
    refine ⟨_, brelse_eq_ok.mpr ⟨bh, hb, by omega, rfl⟩, fun d b => ?_, ?_, fun d b => ?_,
      fun x hx hr => ?_,
      dirtyHolds_setBuffer h.dirty fun hd => h.dirty _ _ bh hb hd, h.readable, h.idle⟩
    · rw [content_setBuffer, ← h.content]
      split
      · rename_i hdb
        rw [hdb.1, hdb.2]
        simp only [Fs.content, hb]
      · rfl
    · simp [h.held, List.eraseIdx_map]
    · have hold := h.counts d b
      rw [hrefs d b] at hold
      rw [bufferCount_setBuffer]
      by_cases hdb : d = m.dev ∧ b = m.block
      · rw [if_pos hdb, hdb.1, hdb.2, hcount]
        rfl
      · rw [if_neg hdb]
        rwa [if_neg hdb] at hold
    · rw [cached_setBuffer]
      have hr := h.read x (List.mem_of_mem_eraseIdx hx) hr
      split
      · rename_i hdb
        simpa [cached, hdb.1, hdb.2, hb] using hr
      · exact hr

theorem flush (h : Mirrors s u) (dev : Nat) : Mirrors ⟨Fs.flush dev s.fs, s.held⟩ u := by
  refine ⟨fun d b => (content_flush h.dirty dev d b).trans (h.content d b), h.held,
    fun d b => (flush_counts dev s.fs d b).trans (h.counts d b), fun x hx hr => ?_,
      fun d b bh hb hd => ?_, h.readable, h.idle⟩
  · have hc := h.read x hx hr
    cases hb : s.fs.buffer x.dev x.block with
    | none => simp [cached, hb] at hc
    | some bh =>
      have hup : bh.uptodate = true := by simpa [cached, hb] using hc
      by_cases hdev : x.dev = dev
      · rw [← hdev]
        simp [cached, Fs.flush, hb, hup]
      · simp [cached, Fs.flush, hb, hdev, hup]
  · obtain ⟨old, hold, rfl⟩ :=
      Option.map_eq_some_iff.mp (show (s.fs.buffer d b).map _ = some bh from hb)
    by_cases hdev : d = dev
    · simp [hdev] at hd
    · rw [if_neg hdev] at hd ⊢
      exact h.dirty d b old hold hd

/-- Without an inode to write, `sync_inodes` looks at each entry and goes on. -/
theorem syncInodes_idle (hidle : ∀ i, (fs.inode i).iLock = false ∧ (fs.inode i).iDirt = false) :
    syncInodes fs = .ok fs := by
  have hturn (l : List InodeIx) : l.foldlM (fun fs i => do
      waitOnInode i fs
      if (fs.inode i).iDirt ∧ (fs.inode i).iPipe = false then writeInode i fs else return fs) fs =
        .ok fs := by
    induction l with
    | nil => rfl
    | cons i l ih =>
      obtain ⟨hlock, hdirt⟩ := hidle i
      rw [List.foldlM_cons, waitOnInode, if_neg (by simp [hlock]), if_neg (by simp [hdirt])]
      exact ih
  exact hturn _

theorem syncDev (h : Mirrors s u) (dev : Nat) :
    ∃ fs, Fs.syncDev dev s.fs = .ok fs ∧ Mirrors ⟨fs, s.held⟩ u := by
  refine ⟨_, ?_, (h.flush dev).flush dev⟩
  rw [Fs.syncDev, syncInodes_idle (h.flush dev).idle]
  rfl

/-- Every call that the flat store answers is answered so by the buffers. -/
theorem step {requestFn : Nat → Bool} {size : Nat} {a : CacheCall Block} {e : Option Block}
    {u' : FlatUse Block} (h : Mirrors s u) (hstep : flatStep requestFn size u a = some (e, u')) :
    ∃ t, blockStep s a = some (e, t) ∧ Mirrors t u' := by
  cases a with
  | bread dev block =>
    by_cases hmay : u.MayHold requestFn size dev block
    · simp only [flatStep, if_pos hmay, Option.some.injEq, Prod.mk.injEq] at hstep
      obtain ⟨rfl, rfl⟩ := hstep
      obtain ⟨fs, hbread, hfs⟩ := h.bread hmay.2.2.2
      exact ⟨_, by rw [blockStep, hbread]; rfl, hfs⟩
    · simp [flatStep, hmay] at hstep
  | getblk dev block =>
    by_cases hmay : u.MayHold requestFn size dev block
    · simp only [flatStep, if_pos hmay, Option.some.injEq, Prod.mk.injEq] at hstep
      obtain ⟨rfl, rfl⟩ := hstep
      exact ⟨_, rfl, h.getblk hmay.2.2.2⟩
    · simp [flatStep, hmay] at hstep
  | modify i f =>
    obtain ⟨m, hm, hstep⟩ := Option.bind_eq_some_iff.mp hstep
    cases hread : m.read with
    | false => simp [hread] at hstep
    | true =>
      rw [if_pos hread] at hstep
      obtain ⟨rfl, rfl⟩ := Prod.mk.inj (Option.some.inj hstep)
      obtain ⟨fs, hfs, hmirrors⟩ := h.modify hm hread f
      have hheld : s.held[i]? = some (m.dev, m.block) := by rw [h.held, List.getElem?_map, hm]; rfl
      refine ⟨_, ?_, hmirrors⟩
      simp only [blockStep, hheld, hfs, Option.bind_eq_bind, Option.bind_some]
      rfl
  | brelse i =>
    by_cases hi : i < u.held.length
    · simp only [flatStep, if_pos hi, Option.some.injEq, Prod.mk.injEq] at hstep
      obtain ⟨rfl, rfl⟩ := hstep
      have hm := List.getElem?_eq_getElem hi
      obtain ⟨fs, hfs, hmirrors⟩ := h.brelse hm
      have hheld : s.held[i]? = some (u.held[i].dev, u.held[i].block) := by
        rw [h.held, List.getElem?_map, hm]; rfl
      refine ⟨_, ?_, hmirrors⟩
      simp only [blockStep, hheld, hfs, Option.bind_eq_bind, Option.bind_some]
      rfl
    · simp [flatStep, hi] at hstep
  | syncDev dev =>
    simp only [flatStep, Option.some.injEq, Prod.mk.injEq] at hstep
    obtain ⟨rfl, rfl⟩ := hstep
    obtain ⟨fs, hfs, hmirrors⟩ := h.syncDev dev
    refine ⟨_, ?_, hmirrors⟩
    simp only [blockStep, hfs, Option.bind_eq_bind]
    rfl

end Mirrors

/-- Whatever the calls, the block cache over its disks and the buffers of the file system answer
alike when they begin empty and over the same disks. -/
theorem cache_levels_agree {β : Type} [DecidableEq β] (pace : Pace) {buffers : List β}
    (hnodup : buffers.Nodup) (bh : β → BufferHead β Block) (request : Slot → Request β)
    (requestFn : Nat → Bool) (disk : Int → Nat → Block) {fs : FileSystem}
    (hdisk : ∀ d b, fs.disk d b = disk d (2 * b)) (hempty : ∀ d b, fs.buffer d b = none)
    (hreadable : ∀ n d b, fs.readable n d b = true)
    (hidle : ∀ i, (fs.inode i).iLock = false ∧ (fs.inode i).iDirt = false)
    (calls : List (CacheCall Block)) {es : List Block} {u : FlatUse Block}
    (h : trace (flatStep requestFn buffers.length) ⟨fun d b => disk d (2 * b), []⟩ calls =
      some (es, u)) :
    (∃ t, trace (cacheStep pace) ⟨initCache buffers bh request requestFn disk, []⟩ calls =
      some (es, t)) ∧
      ∃ t, trace blockStep ⟨fs, []⟩ calls = some (es, t) := by
  have hcache : StandsFor requestFn buffers.length ⟨initCache buffers bh request requestFn disk, []⟩
      ⟨fun d b => disk d (2 * b), []⟩ :=
    ⟨sound_init hnodup bh request requestFn disk, rfl, rfl, .nil, fun _ _ => rfl,
      fun _ _ => by simp [FlatUse.refs]⟩
  have hblocks : Mirrors ⟨fs, []⟩ ⟨fun d b => disk d (2 * b), []⟩ :=
    ⟨fun d b => by simp [content, hempty, hdisk], rfl,
      fun d b => by simp [bufferCount, hempty, FlatUse.refs],
      fun x hx => absurd hx List.not_mem_nil, fun d b bh hb => absurd hb (by simp [hempty]),
        hreadable, hidle⟩
  have hcalls : ∀ (s : CacheUse β Block) (u : FlatUse Block) (a : CacheCall Block)
    (e : Option Block) (u' : FlatUse Block),
      StandsFor requestFn buffers.length s u →
        flatStep requestFn buffers.length u a = some (e, u') →
      ∃ t, cacheStep pace s a = some (e, t) ∧ StandsFor requestFn buffers.length t u' :=
    fun _ _ _ _ _ hs hst => hs.step pace hst
  have hanswers : ∀ (s : BlockUse) (u : FlatUse Block) (a : CacheCall Block) (e : Option Block)
    (u' : FlatUse Block),
      Mirrors s u → flatStep requestFn buffers.length u a = some (e, u') →
      ∃ t, blockStep s a = some (e, t) ∧ Mirrors t u' :=
    fun _ _ _ _ _ hs hst => hs.step hst
  obtain ⟨t, ht, -⟩ := trace_follows hcalls hcache h
  obtain ⟨t', ht', -⟩ := trace_follows hanswers hblocks h
  exact ⟨⟨t, ht⟩, t', ht'⟩

end Hios.Fs
