import Hios.Fs.BadBlocks

/-! `find_entry` against a directory whose blocks may be missing: which entry it finds,
and through which pointers it reads on the way. -/
namespace Hios.Fs
open Hios.Outcome
variable {fs fs' fs₁ : FileSystem} {dir : InodeIx} {name : List Byte}
  {entries fuel i de k n e : Nat}
  {bh : Option (BufferName × Block)}

def nextBlock (dir : InodeIx) (i de : Nat) (bh : Option (BufferName × Block)) (fs : FileSystem) :
    Except Panic (Option (BufferName × Block) × Nat × FileSystem) :=
  if bh.isSome ∧ de < DIR_ENTRIES_PER_BLOCK then .ok (bh, de, fs) else do
    let fs ← brelseDir bh fs
    let (bh, fs) ← readDirBlock dir (i / DIR_ENTRIES_PER_BLOCK) fs
    return (bh, 0, fs)

/-- The loop of `find_entry` with the buffer pointer that each turn reads `b_data` through. -/
def findReads (dir : InodeIx) (name : List Byte) (entries : Nat) :
    Nat → Nat → Nat → Option (BufferName × Block) → FileSystem →
      Except Panic (List (Option BufferName) × Option DirEntry × FileSystem)
  | 0, _, _, bh, fs => (brelseDir bh fs).map fun fs => ([], none, fs)
  | fuel + 1, i, de, bh, fs =>
    if entries ≤ i then (brelseDir bh fs).map fun fs => ([], none, fs) else
    nextBlock dir i de bh fs >>= fun (bh', de, fs) =>
      match bh' with
      | none =>
        (findReads dir name entries fuel (i + DIR_ENTRIES_PER_BLOCK) de none fs).map fun r =>
          (bh.map (·.1) :: r.1, r.2)
      | some (b, data) =>
        if matchEntry name data (Fin.ofNat 64 de) then
          .ok ([bh.map (·.1)], some ⟨b, Fin.ofNat 64 de, data.dirInode (Fin.ofNat 64 de)⟩, fs)
        else (findReads dir name entries fuel (i + 1) (de + 1) (some (b, data)) fs).map
          fun r => (bh.map (·.1) :: r.1, r.2)

/-- `find_entry` with these pointers. -/
def findEntryReads (dir : InodeIx) (name : List Byte) (fs : FileSystem) :
    Except Panic (List (Option BufferName) × Option DirEntry × InodeIx × FileSystem) :=
  let name := name.take NAME_LEN
  let entries := (fs.inode dir).d.iSize / 16
  if name = [] then .ok ([], none, dir, fs) else do
  let (name, dir, fs) ← dotDot dir name fs
  let block := (fs.inode dir).d.iZone 0
  if block = 0 then return ([], none, dir, fs) else
  match ← bread (fs.inode dir).iDev block fs with
  | (none, fs) => return ([], none, dir, fs)
  | (some data, fs) =>
    let dev := (fs.inode dir).iDev
    let (reads, de, fs) ← findReads dir name entries entries 0 0 (some ((dev, block), data)) fs
    return (reads, de, dir, fs)

/-- The tables once the blocks before block `k` have been read one after the other, and given back.
-/
def afterBlocks (dir : InodeIx) (fs : FileSystem) : Nat → FileSystem
  | 0 => fs
  | k + 1 =>
    match readDirBlock dir k (afterBlocks dir fs k) with
    | .error _ => afterBlocks dir fs k
    | .ok (bh, fs') =>
      match brelseDir bh fs' with
      | .error _ => fs'
      | .ok fs'' => fs''

/-- Block `k` of the directory when it is read behind the ones before it; `none` where it is
missing or cannot be read. -/
def dirBlock (dir : InodeIx) (fs : FileSystem) (k : Nat) : Option (BufferName × Block) :=
  match readDirBlock dir k (afterBlocks dir fs k) with
  | .error _ => none
  | .ok (bh, _) => bh

def Block.hasName (b : Block) (k : Fin 64) (name : List Byte) : Prop :=
  b.dirInode k ≠ 0 ∧ name <+: List.ofFn (b.dirName k) ∧
    (List.ofFn (b.dirName k))[name.length]?.getD 0 = 0

instance (b : Block) (k : Fin 64) (name : List Byte) : Decidable (b.hasName k name) :=
  inferInstanceAs (Decidable (_ ∧ _))

def EntryNamed (dir : InodeIx) (fs : FileSystem) (name : List Byte) (e : Nat) : Prop :=
  ∃ b ∈ dirBlock dir fs (e / 64), b.2.hasName (Fin.ofNat 64 e) name

instance (dir : InodeIx) (fs : FileSystem) (name : List Byte) (e : Nat) :
    Decidable (EntryNamed dir fs name e) :=
  inferInstanceAs (Decidable (∃ b ∈ _, _))

def firstNamed (dir : InodeIx) (fs : FileSystem) (name : List Byte) (n : Nat) : Option Nat :=
  (List.range n).find? fun e => EntryNamed dir fs name e

def dirEntryAt (dir : InodeIx) (fs : FileSystem) (e : Nat) : Option DirEntry :=
  (dirBlock dir fs (e / 64)).map fun b => ⟨b.1, Fin.ofNat 64 e, b.2.dirInode (Fin.ofNat 64 e)⟩

theorem map_bind {α β γ : Type} (x : Except Panic α) (f : α → Except Panic β) (g : β → γ) :
    (x >>= f).map g = x >>= fun a => (f a).map g := by
  cases x with
  | ok a => rfl
  | error p => rfl

theorem map_map {α β γ : Type} (x : Except Panic α) (f : α → β) (g : β → γ) :
    (x.map f).map g = x.map fun a => g (f a) := by
  cases x with
  | ok a => rfl
  | error p => rfl

theorem findLoop_turn (hi : i < entries) :
    findLoop dir name entries (fuel + 1) i de bh fs = nextBlock dir i de bh fs >>=
      fun (bh', de, fs) =>
      match bh' with
      | none => findLoop dir name entries fuel (i + DIR_ENTRIES_PER_BLOCK) de none fs
      | some (b, data) =>
        if matchEntry name data (Fin.ofNat 64 de) then
          .ok (some ⟨b, Fin.ofNat 64 de, data.dirInode (Fin.ofNat 64 de)⟩, fs)
        else findLoop dir name entries fuel (i + 1) (de + 1) (some (b, data)) fs := by
  rw [findLoop, if_neg (Nat.not_le.mpr hi)]
  unfold nextBlock
  by_cases hin : bh.isSome = true ∧ de < DIR_ENTRIES_PER_BLOCK
  · simp only [if_pos hin]
    rfl
  · simp only [if_neg hin]
    cases brelseDir bh fs with
    | error p => rfl
    | ok fs₁ =>
      change (readDirBlock dir (i / DIR_ENTRIES_PER_BLOCK) fs₁ >>= _) = readDirBlock dir
        (i / DIR_ENTRIES_PER_BLOCK) fs₁ >>= _ >>= _
      cases readDirBlock dir (i / DIR_ENTRIES_PER_BLOCK) fs₁ with
      | error p => rfl
      | ok r => rfl

theorem findLoop_end (hi : fuel = 0 ∨ entries ≤ i) :
    findLoop dir name entries fuel i de bh fs = (brelseDir bh fs).map fun fs => (none, fs) := by
  cases fuel with
  | zero => rfl
  | succ fuel =>
    rw [findLoop, if_pos (hi.resolve_left (Nat.succ_ne_zero fuel))]
    rfl

theorem findReads_eq (dir : InodeIx) (name : List Byte) (entries fuel i de : Nat)
    (bh : Option (BufferName × Block)) (fs : FileSystem) :
    (findReads dir name entries fuel i de bh fs).map (·.2) = findLoop dir name entries fuel i
      de bh fs := by
  induction fuel generalizing i de bh fs with
  | zero =>
    rw [findReads, map_map, findLoop_end (.inl rfl)]
  | succ fuel ih =>
    unfold findReads
    by_cases hend : entries ≤ i
    · rw [if_pos hend, map_map, findLoop_end (.inr hend)]
    rw [if_neg hend, map_bind, findLoop_turn (Nat.lt_of_not_le hend)]
    refine bind_congr fun r => ?_
    obtain ⟨bh', de', fs'⟩ := r
    cases bh' with
    | none => exact (map_map ..).trans (ih ..)
    | some b =>
      by_cases hm : matchEntry name b.2 (Fin.ofNat 64 de') = true
      · simp only [if_pos hm]
        rfl
      · simp only [if_neg hm]
        exact (map_map ..).trans (ih ..)

theorem findEntryReads_eq (dir : InodeIx) (name : List Byte) (fs : FileSystem) :
    (findEntryReads dir name fs).map (·.2) = findEntry dir name fs := by
  unfold findEntryReads findEntry
  simp only
  by_cases hname : name.take NAME_LEN = []
  · rw [if_pos hname, if_pos hname]
    rfl
  rw [if_neg hname, if_neg hname, map_bind]
  refine bind_congr fun r => ?_
  obtain ⟨name', dir', fs'⟩ := r
  by_cases hzone : (fs'.inode dir').d.iZone 0 = 0
  · simp only [if_pos hzone]
    rfl
  simp only [if_neg hzone]
  rw [map_bind]
  refine bind_congr fun r => ?_
  obtain ⟨data, fs''⟩ := r
  cases data with
  | none => rfl
  | some data =>
    simp only [map_bind]
    rw [← findReads_eq]
    cases findReads dir' name' ((fs.inode dir).d.iSize / 16) ((fs.inode dir).d.iSize / 16) 0 0
        (some (((fs''.inode dir').iDev, (fs'.inode dir').d.iZone 0), data)) fs'' with
    | error p => rfl
    | ok r => rfl

theorem readDirBlock_passed (hcounts : ∀ d b, bufferCount fs d b < 255) (dir : InodeIx)
    (hk : k < MAPPABLE) :
    ∃ bh fs' fs'', readDirBlock dir k fs = .ok (bh, fs') ∧ brelseDir bh fs' = .ok fs'' ∧
    Passed fs fs'' := by
  obtain ⟨z, fs₁, hbmap, h₁⟩ := @bmap_passed fs dir k hk fun z => hcounts _ z
  unfold readDirBlock
  rw [hbmap]
  change ∃ bh fs' fs'', (if z = 0 then _ else _) = _ ∧ _
  by_cases hz : z = 0
  · rw [if_pos hz]
    exact ⟨none, fs₁, fs₁, rfl, rfl, h₁⟩
  rw [if_neg hz]
  have hcount : bufferCount fs₁ (fs₁.inode dir).iDev z < 255 := by
    rw [h₁.still.counts]
    exact hcounts _ z
  cases ha : available fs₁ (fs₁.inode dir).iDev 0 z with
  | true =>
    obtain ⟨fs₂, fs₃, hbread, hrel, h₃⟩ := bread_passed ha hcount
    refine ⟨some (((fs₁.inode dir).iDev, z), content fs₁ (fs₁.inode dir).iDev z), fs₂, fs₃, ?_,
      hrel, h₁.trans h₃⟩
    rw [hbread]
    rfl
  | false =>
    obtain ⟨fs₂, hbread, h₂⟩ := bread_lost ha hcount
    refine ⟨none, fs₂, fs₂, ?_, rfl, h₁.trans h₂⟩
    rw [hbread]
    rfl

section Search
variable (hcounts : ∀ d b, bufferCount fs d b < 255)

include hcounts in
theorem afterBlocks_passed (dir : InodeIx) (hk : k ≤ MAPPABLE) :
    Passed fs (afterBlocks dir fs k) := by
  induction k with
  | zero => exact .refl fs
  | succ k ih =>
    have h := ih (Nat.le_of_succ_le hk)
    have hcounts' : ∀ d b, bufferCount (afterBlocks dir fs k) d b < 255 := fun d b => by
      rw [h.still.counts]
      exact hcounts d b
    obtain ⟨bh, fs', fs'', hread, hrel, hpassed⟩ := readDirBlock_passed hcounts' dir hk
    rw [afterBlocks, hread]
    simp only [hrel]
    exact h.trans hpassed

include hcounts in
theorem dirBlock_read (dir : InodeIx) (hk : k < MAPPABLE) :
    ∃ fs', readDirBlock dir k (afterBlocks dir fs k) = .ok (dirBlock dir fs k, fs') ∧
      brelseDir (dirBlock dir fs k) fs' = .ok (afterBlocks dir fs (k + 1)) := by
  have h := afterBlocks_passed hcounts dir (Nat.le_of_lt hk)
  have hcounts' : ∀ d b, bufferCount (afterBlocks dir fs k) d b < 255 := fun d b => by
    rw [h.still.counts]
    exact hcounts d b
  obtain ⟨bh, fs', fs'', hread, hrel, -⟩ := readDirBlock_passed hcounts' dir hk
  have hblock : dirBlock dir fs k = bh := by
    rw [dirBlock, hread]
  rw [hblock]
  refine ⟨fs', hread, ?_⟩
  rw [afterBlocks, hread]
  simp only [hrel]

theorem readDirBlock_big (dir : InodeIx) (hk : MAPPABLE ≤ k) (fs : FileSystem) :
    readDirBlock dir k fs = .error .blockTooBig := by
  unfold readDirBlock
  rw [bmap_big dir hk]
  rfl

theorem dirBlock_big (dir : InodeIx) (hk : MAPPABLE ≤ k) : dirBlock dir fs k = none := by
  rw [dirBlock, readDirBlock_big dir hk]

/-- Where the loop stands at entry `i`: in a block or at its end, or behind a missing one. -/
inductive Standing (dir : InodeIx) (fs : FileSystem) : Nat → Nat → Option (BufferName × Block) →
  FileSystem → Prop where
  | within {k de : Nat} {b : BufferName × Block} {fs' : FileSystem} (hde : de ≤ 64)
    (hk : k < MAPPABLE)
      (hblock : dirBlock dir fs k = some b)
        (hrel : brelseDir (some b) fs' = .ok (afterBlocks dir fs (k + 1))) :
      Standing dir fs (64 * k + de) de (some b) fs'
  | behind {k : Nat} (de : Nat) (hk : k ≤ MAPPABLE) : Standing dir fs (64 * k) de none
    (afterBlocks dir fs k)

/-- The loop comes to a missing block before the first entry with the name, and goes on behind it.
-/
def SkipsOn (dir : InodeIx) (fs : FileSystem) (name : List Byte) (n i : Nat) : Prop :=
  ∃ k, i ≤ 64 * k ∧ 64 * (k + 1) < n ∧ dirBlock dir fs k = none ∧ ∀ e, i ≤ e → e < 64 * k →
    ¬ EntryNamed dir fs name e

def RunsOff (dir : InodeIx) (fs : FileSystem) (name : List Byte) (n i : Nat) : Prop :=
  MAPPABLE * DIR_ENTRIES_PER_BLOCK < n ∧ ∀ e, i ≤ e → e < n → ¬ EntryNamed dir fs name e

structure LoopRight (dir : InodeIx) (fs : FileSystem) (name : List Byte) (n i : Nat)
  (bh : Option (BufferName × Block))
    (r : List (Option BufferName) × Option DirEntry × FileSystem) : Prop where
  entry : r.2.1 = ((List.range' i (n - i)).find? fun e => EntryNamed dir fs name e).bind
    (dirEntryAt dir fs)
  null : none ∈ r.1 ↔ i < n ∧ bh = none ∨ SkipsOn dir fs name n i
  stays : ¬ RunsOff dir fs name n i

theorem Standing.brelseDir {fs' : FileSystem} (h : Standing dir fs i de bh fs') :
    ∃ fs'', brelseDir bh fs' = .ok fs'' := by
  cases h with
  | within hde hk hblock hrel => exact ⟨_, hrel⟩
  | behind de hk => exact ⟨_, rfl⟩

theorem Standing.le {fs' : FileSystem} (h : Standing dir fs i de bh fs') :
    i ≤ MAPPABLE * DIR_ENTRIES_PER_BLOCK := by
  simp only [DIR_ENTRIES_PER_BLOCK]
  cases h with
  | within hde hk hblock hrel => omega
  | behind de hk => omega

theorem RunsOff.of_le {j : Nat} (h : RunsOff dir fs name n i) (hij : i ≤ j) :
    RunsOff dir fs name n j :=
  ⟨h.1, fun e he => h.2 e (Nat.le_trans hij he)⟩

theorem not_named (h : dirBlock dir fs (e / 64) = none) : ¬ EntryNamed dir fs name e := by
  rintro ⟨b, hb, _⟩
  rw [h] at hb
  cases hb

theorem SkipsOn.lt (h : SkipsOn dir fs name n i) : i < n := by
  obtain ⟨k, hik, hkn, -⟩ := h
  omega

theorem skipsOn_missing (hnone : dirBlock dir fs k = none) :
    SkipsOn dir fs name n (64 * k) ↔ 64 * (k + 1) < n ∨ SkipsOn dir fs name n (64 * (k + 1)) := by
  constructor
  · rintro ⟨k', hk', hn, hmiss, hno⟩
    by_cases hkk : k' = k
    · exact .inl (hkk ▸ hn)
    · exact .inr ⟨k', by omega, hn, hmiss, fun e he => hno e (by omega)⟩
  · intro h
    cases h with
    | inl h => exact ⟨k, Nat.le_refl _, h, hnone, fun e he hlt => absurd hlt (by omega)⟩
    | inr h =>
      obtain ⟨k', hk', hn, hmiss, hno⟩ := h
      refine ⟨k', by omega, hn, hmiss, fun e he hlt => ?_⟩
      by_cases hin : e < 64 * (k + 1)
      · exact not_named (by rwa [show e / 64 = k by omega])
      · exact hno e (by omega) hlt

theorem skipsOn_other (hblock : (dirBlock dir fs (i / 64)).isSome)
    (hno : ¬ EntryNamed dir fs name i) :
    SkipsOn dir fs name n i ↔ SkipsOn dir fs name n (i + 1) := by
  constructor
  · rintro ⟨k, hik, hn, hmiss, hnone⟩
    have hne : i ≠ 64 * k := fun he => by
      rw [show i / 64 = k by omega, hmiss] at hblock
      cases hblock
    exact ⟨k, by omega, hn, hmiss, fun e he => hnone e (by omega)⟩
  · rintro ⟨k, hik, hn, hmiss, hnone⟩
    refine ⟨k, by omega, hn, hmiss, fun e he hlt => ?_⟩
    by_cases hei : e = i
    · exact hei ▸ hno
    · exact hnone e (by omega) hlt

theorem find_missing (hnone : dirBlock dir fs k = none) (n : Nat) :
    ((List.range' (64 * k) (n - 64 * k)).find? fun e => EntryNamed dir fs name e) =
      (List.range' (64 * (k + 1)) (n - 64 * (k + 1))).find? fun e => EntryNamed dir fs name e := by
  have hnot : ∀ m ≤ 64,
      (List.range' (64 * k) m).find? (fun e => decide (EntryNamed dir fs name e)) =
        none := fun m hm => by
    refine List.find?_eq_none.mpr fun e he => ?_
    obtain ⟨hle, hlt⟩ := List.mem_range'_1.mp he
    exact fun h => not_named (by rwa [show e / 64 = k by omega]) (of_decide_eq_true h)
  by_cases hn : 64 * (k + 1) ≤ n
  · have hsplit : n - 64 * k = 64 + (n - 64 * (k + 1)) := by omega
    rw [hsplit, ← List.range'_append_1, List.find?_append, hnot 64 (Nat.le_refl _), Option.none_or]
    rfl
  · rw [hnot _ (by omega), show n - 64 * (k + 1) = 0 by omega]
    rfl

theorem nextBlock_next {fs' : FileSystem}
    (hout : ¬ (bh.isSome = true ∧ de < DIR_ENTRIES_PER_BLOCK)) (hrel : brelseDir bh fs = .ok fs') :
    nextBlock dir i de bh fs = (readDirBlock dir (i / DIR_ENTRIES_PER_BLOCK) fs').map fun r =>
      (r.1, 0, r.2) := by
  rw [nextBlock, if_neg hout, hrel]
  change (readDirBlock dir (i / DIR_ENTRIES_PER_BLOCK) fs' >>= _) = _
  cases readDirBlock dir (i / DIR_ENTRIES_PER_BLOCK) fs' with
  | error p => rfl
  | ok r => rfl

theorem findReads_ended {fs' : FileSystem} (hstand : Standing dir fs i de bh fs') (hi : n ≤ i) :
    Ends (fun _ => RunsOff dir fs name n i) (LoopRight dir fs name n i bh)
      ((brelseDir bh fs').map fun fs =>
        (([], none, fs) : List (Option BufferName) × Option DirEntry × FileSystem)) := by
  obtain ⟨fs'', hrel⟩ := hstand.brelseDir
  rw [hrel]
  refine ⟨?_, iff_of_false List.not_mem_nil fun h => ?_, fun hoff => ?_⟩
  · rw [show n - i = 0 by omega]
    rfl
  · cases h with
    | inl h => omega
    | inr h => exact absurd h.lt (by omega)
  · exact absurd hoff.1 (Nat.not_lt.mpr (Nat.le_trans hi hstand.le))

section Turn
variable {r : List (Option BufferName) × Option DirEntry × FileSystem} (hi : i < n)

include hi in
theorem head_null : (none : Option BufferName) = bh.map (·.1) ↔ i < n ∧ bh = none := by
  cases bh with
  | none => exact iff_of_true rfl ⟨hi, rfl⟩
  | some b => exact iff_of_false nofun nofun

include hi in
theorem LoopRight.found {e : DirEntry} (hthere : (dirBlock dir fs (i / 64)).isSome)
    (hm : EntryNamed dir fs name i) (he : dirEntryAt dir fs i = some e) (fs' : FileSystem) :
    LoopRight dir fs name n i bh ([bh.map (·.1)], some e, fs') := by
  refine ⟨?_, ?_, fun hoff => hoff.2 i (Nat.le_refl i) hi hm⟩
  · rw [show n - i = (n - (i + 1)) +
      1 by omega, List.range'_succ, List.find?_cons_of_pos (by simpa using hm),
      Option.bind_some, he]
  · rw [List.mem_singleton, head_null hi]
    refine ⟨.inl, fun h => h.resolve_right fun ⟨k', hk', _, hmiss, hno⟩ => ?_⟩
    by_cases hik : i = 64 * k'
    · rw [show i / 64 = k' by omega, hmiss] at hthere
      cases hthere
    · exact hno i (Nat.le_refl i) (by omega) hm

include hi in
theorem LoopRight.passed {b : BufferName × Block} (hthere : (dirBlock dir fs (i / 64)).isSome)
    (hm : ¬ EntryNamed dir fs name i) (hr : LoopRight dir fs name n (i + 1) (some b) r) :
    LoopRight dir fs name n i bh (bh.map (·.1) :: r.1, r.2) := by
  refine ⟨?_, ?_, fun hoff => hr.stays (hoff.of_le (Nat.le_succ i))⟩
  · rw [show n - i = (n - (i + 1)) +
      1 by omega, List.range'_succ, List.find?_cons_of_neg (by simpa using hm)]
    exact hr.entry
  · rw [List.mem_cons, head_null hi, hr.null, skipsOn_other hthere hm]
    simp only [reduceCtorEq, and_false, false_or]

theorem RunsOff.passed (hm : ¬ EntryNamed dir fs name i) (hoff : RunsOff dir fs name n (i + 1)) :
    RunsOff dir fs name n i := by
  refine ⟨hoff.1, fun e he hlt => ?_⟩
  by_cases hei : e = i
  · exact hei ▸ hm
  · exact hoff.2 e (by omega) hlt

theorem LoopRight.skipped (hnone : dirBlock dir fs k = none) (hk : 64 * k < n)
    (hr : LoopRight dir fs name n (64 * (k + 1)) none r) :
    LoopRight dir fs name n (64 * k) bh (bh.map (·.1) :: r.1, r.2) := by
  refine ⟨?_, ?_, fun hoff => hr.stays (hoff.of_le (by omega))⟩
  · rw [find_missing hnone]
    exact hr.entry
  · rw [List.mem_cons, head_null hk, hr.null, skipsOn_missing hnone]
    simp

theorem RunsOff.skipped (hnone : dirBlock dir fs k = none)
    (hoff : RunsOff dir fs name n (64 * (k + 1))) :
    RunsOff dir fs name n (64 * k) := by
  refine ⟨hoff.1, fun e he hlt => ?_⟩
  by_cases hin : e < 64 * (k + 1)
  · exact not_named (by rwa [show e / 64 = k by omega])
  · exact hoff.2 e (by omega) hlt

/-- What is left of the loop from a later entry on is as it should be. -/
def RestRight (dir : InodeIx) (fs : FileSystem) (name : List Byte) (n fuel i : Nat) : Prop :=
  ∀ {j de : Nat} {bh : Option (BufferName × Block)} {fs' : FileSystem}, i < j →
    Standing dir fs j de bh fs' →
    Ends (fun _ => RunsOff dir fs name n j) (LoopRight dir fs name n j bh)
      (findReads dir name n fuel j de bh fs')

/-- A turn of the loop at an entry of a block that is there. -/
theorem turn_inBlock {fuel de' : Nat} {b : BufferName × Block} {fs₁ : FileSystem}
    (hlen : name.length ≤ NAME_LEN) (hrest : RestRight dir fs name n fuel (64 * k + de'))
    (hn : 64 * k + de' < n) (hde : de' < 64) (hk : k < MAPPABLE)
    (hblock : dirBlock dir fs k = some b)
    (hrel : brelseDir (some b) fs₁ = .ok (afterBlocks dir fs (k + 1))) :
    Ends (fun _ => RunsOff dir fs name n (64 * k + de')) (LoopRight dir fs name n (64 * k + de') bh)
      (if matchEntry name b.2 (Fin.ofNat 64 de') then
        .ok ([bh.map (·.1)], some ⟨b.1, Fin.ofNat 64 de', b.2.dirInode (Fin.ofNat 64 de')⟩, fs₁)
      else (findReads dir name n fuel (64 * k + de' + 1) (de' + 1) (some (b.1, b.2)) fs₁).map
        fun r => (bh.map (·.1) :: r.1, r.2)) := by
  have hdiv : (64 * k + de') / 64 = k := by omega
  have hmod : Fin.ofNat 64 (64 * k + de') = Fin.ofNat 64 de' :=
    Fin.ext (by simp only [Fin.ofNat]; omega)
  have hnamed : matchEntry name b.2 (Fin.ofNat 64 de') = true ↔
      EntryNamed dir fs name (64 * k + de') := by
    rw [matchEntry_bytes hlen, EntryNamed, hdiv, hblock, hmod]
    simp [Block.hasName]
  have hthere : (dirBlock dir fs ((64 * k + de') / 64)).isSome := by rw [hdiv, hblock]; rfl
  by_cases hm : EntryNamed dir fs name (64 * k + de')
  · rw [if_pos (hnamed.mpr hm)]
    refine LoopRight.found hn hthere hm ?_ fs₁
    rw [dirEntryAt, hdiv, hblock, hmod]
    rfl
  · rw [if_neg fun h => hm (hnamed.mp h)]
    have hstand : Standing dir fs (64 * k + (de' + 1)) (de' + 1) (some b) fs₁ :=
      .within hde hk hblock hrel
    exact (((hrest (by omega) hstand).mono fun r hr => hr.passed hn hthere hm).weaken fun _ hoff =>
      hoff.passed hm).map

include hcounts in
/-- A turn of the loop at the first entry of the next block. -/
theorem turn_nextBlock {fuel : Nat} {fs' : FileSystem} (hlen : name.length ≤ NAME_LEN)
    (hrest : RestRight dir fs name n fuel (64 * k)) (hn : 64 * k < n)
    (hout : ¬ (bh.isSome = true ∧ de < DIR_ENTRIES_PER_BLOCK))
    (hrel : brelseDir bh fs' = .ok (afterBlocks dir fs k)) :
    Ends (fun _ => RunsOff dir fs name n (64 * k)) (LoopRight dir fs name n (64 * k) bh)
      (nextBlock dir (64 * k) de bh fs' >>= fun (bh', de, fs) => match bh' with
        | none => (findReads dir name n fuel (64 * k + DIR_ENTRIES_PER_BLOCK) de none fs).map
            fun r => (bh.map (·.1) :: r.1, r.2)
        | some (b, data) =>
          if matchEntry name data (Fin.ofNat 64 de) then
            .ok ([bh.map (·.1)], some ⟨b, Fin.ofNat 64 de, data.dirInode (Fin.ofNat 64 de)⟩, fs)
          else (findReads dir name n fuel (64 * k + 1) (de + 1) (some (b, data)) fs).map
            fun r => (bh.map (·.1) :: r.1, r.2)) := by
  rw [nextBlock_next hout hrel, show 64 * k / DIR_ENTRIES_PER_BLOCK =
    k by simp only [DIR_ENTRIES_PER_BLOCK]; omega]
  by_cases hk : k < MAPPABLE
  · obtain ⟨fs₁, hread, hrel₁⟩ := dirBlock_read hcounts dir hk
    rw [hread]
    cases hblock : dirBlock dir fs k with
    | some b =>
      rw [hblock] at hrel₁
      exact turn_inBlock hlen hrest hn (by decide) hk hblock hrel₁
    | none =>
      rw [hblock] at hrel₁
      obtain rfl : fs₁ = afterBlocks dir fs (k + 1) := Except.ok.inj hrel₁
      have hstand : Standing dir fs (64 * k + DIR_ENTRIES_PER_BLOCK) 0 none
        (afterBlocks dir fs (k + 1)) :=
        .behind 0 hk
      exact (((hrest (Nat.lt_add_of_pos_right (by decide)) hstand).mono fun r hr =>
        hr.skipped hblock hn).weaken
        fun _ hoff => hoff.skipped hblock).map
  · rw [readDirBlock_big dir (Nat.le_of_not_lt hk)]
    refine ⟨?_, fun e he hlt => not_named (dirBlock_big dir (by omega))⟩
    simp only [DIR_ENTRIES_PER_BLOCK]
    omega

end Turn

include hcounts in
/-- The loop finds the first entry with the name, and reads through a null pointer where it goes on
behind a missing block. -/
theorem findReads_right (hlen : name.length ≤ NAME_LEN) {fs' : FileSystem}
    (hstand : Standing dir fs i de bh fs') (hfuel : n ≤ i + fuel) :
    Ends (fun _ => RunsOff dir fs name n i) (LoopRight dir fs name n i bh)
      (findReads dir name n fuel i de bh fs') := by
  induction fuel generalizing i de bh fs' with
  | zero => exact findReads_ended hstand hfuel
  | succ fuel ih =>
    unfold findReads
    by_cases hend : n ≤ i
    · rw [if_pos hend]
      exact findReads_ended hstand hend
    rw [if_neg hend]
    have hn : i < n := Nat.lt_of_not_le hend
    have hrest : RestRight dir fs name n fuel i := fun hij hstand' => ih hstand' (by omega)
    cases hstand with
    | within hde hk hblock hrel =>
      by_cases hlt : de < 64
      · rw [nextBlock, if_pos ⟨rfl, hlt⟩]
        exact turn_inBlock hlen hrest hn hlt hk hblock hrel
      · obtain rfl : de = 64 := by omega
        exact turn_nextBlock hcounts hlen hrest hn (fun h => hlt h.2) hrel
    | behind de hk => exact turn_nextBlock hcounts hlen hrest hn (fun h => by cases h.1) rfl

end Search

/-- What the special case of `..` needs at the root of a file system: its super block, and an
`iput` of the directory that returns. -/
def DotDotSafe (dir : InodeIx) (name : List Byte) (fs : FileSystem) : Prop :=
  name = [dot, dot] → fs.root ≠ .entry dir → (fs.inode dir).iNum = ROOT_INO →
    ∃ sb, getSuper (fs.inode dir).iDev fs = some sb ∧
      (sb.sImount = .null ∨ ∃ j fs', sb.sImount = .entry j ∧ iput dir fs = .ok fs')

/-- `find_entry` as it should be: no null pointer is followed, and the first entry that has the name
is handed out with one reference to its buffer, from all the entries of the directory that `..`
leads to. -/
def LookupRight (dir : InodeIx) (name : List Byte) (fs : FileSystem) : Prop :=
  ∃ name' dir' fs₁ reads de fs₂, dotDot dir (name.take NAME_LEN) fs = .ok (name', dir', fs₁) ∧
    findEntryReads dir name fs = .ok (reads, de, dir', fs₂) ∧ none ∉ reads ∧
    de = (firstNamed dir' fs₁ name' (entriesIn (fs₁.inode dir').d)).bind (dirEntryAt dir'
      fs₁) ∧ HandsOut fs₁ de fs₂

/-- The first block is missing, and no entry has the name. Or it is there, no later missing block
comes before the first entry of that name with entries behind it, the search stays within the blocks
that can be mapped, and the entries counted in the directory it started from make no difference. -/
def LookupSafe (dir : InodeIx) (name : List Byte) (n : Nat) (fs : FileSystem) : Prop :=
  match dirBlock dir fs 0 with
  | none => firstNamed dir fs name (entriesIn (fs.inode dir).d) = none
  | some _ => ¬ SkipsOn dir fs name n 0 ∧ ¬ RunsOff dir fs name n 0 ∧
      firstNamed dir fs name n = firstNamed dir fs name (entriesIn (fs.inode dir).d)

theorem dotDot_returns_iff : (∃ r, dotDot dir name fs = .ok r) ↔ DotDotSafe dir name fs := by
  unfold dotDot DotDotSafe
  by_cases hname : name = [dot, dot]
  · rw [if_pos hname]
    by_cases hroot : fs.root = .entry dir
    · rw [if_pos hroot]
      exact iff_of_true ⟨_, rfl⟩ fun _ h => absurd hroot h
    rw [if_neg hroot]
    by_cases hnum : (fs.inode dir).iNum = ROOT_INO
    · rw [if_pos hnum]
      cases hsuper : getSuper (fs.inode dir).iDev fs with
      | none => exact iff_of_false nofun fun h => by simpa using h hname hroot hnum
      | some sb =>
        cases hmount : sb.sImount with
        | null => exact iff_of_true ⟨(name, dir, fs), by simp [hmount]⟩ fun _ _ _ => ⟨sb, rfl,
          .inl hmount⟩
        | wild =>
          exact iff_of_false (by simp [hmount]) fun h => by simpa [hmount] using h hname hroot hnum
        | entry j =>
          simp only [hmount]
          cases hput : iput dir fs with
          | ok fs' => exact iff_of_true ⟨_, rfl⟩ fun _ _ _ => ⟨sb, rfl, .inr ⟨j, fs', hmount, rfl⟩⟩
          | error p => exact iff_of_false nofun fun h => by simpa [hmount] using h hname hroot hnum
    · rw [if_neg hnum]
      exact iff_of_true ⟨_, rfl⟩ fun _ _ h => absurd h hnum
  · rw [if_neg hname]
    exact iff_of_true ⟨_, rfl⟩ fun h => absurd h hname

theorem dotDot_length {r : List Byte × InodeIx × FileSystem} (h : dotDot dir name fs = .ok r)
    (hlen : name.length ≤ NAME_LEN) :
    r.1.length ≤ NAME_LEN := by
  unfold dotDot at h
  split at h
  · split at h
    · obtain rfl := Except.ok.inj h
      exact Nat.le_add_left 1 13
    split at h
    · split at h
      · cases h
      split at h
      · obtain rfl := Except.ok.inj h
        exact hlen
      · cases h
      · obtain ⟨fs', -, h⟩ := bind_eq_ok.mp h
        obtain rfl := Except.ok.inj h
        exact hlen
    · obtain rfl := Except.ok.inj h
      exact hlen
  · obtain rfl := Except.ok.inj h
    exact hlen

/-- `find_entry` behind the special case of `..`: the first block is read as the others are. -/
theorem findEntryReads_search {name' : List Byte} {dir' : InodeIx}
    (hname : name.take NAME_LEN ≠ [])
    (hdot : dotDot dir (name.take NAME_LEN) fs = .ok (name', dir', fs₁)) :
    findEntryReads dir name fs = readDirBlock dir' 0 fs₁ >>= fun r => match r.1 with
      | none => .ok ([], none, dir', r.2)
      | some b =>
        (findReads dir' name' (entriesIn (fs.inode dir).d) (entriesIn (fs.inode dir).d) 0 0
          (some b) r.2).map
          fun r => (r.1, r.2.1, dir', r.2.2) := by
  unfold findEntryReads readDirBlock
  have hbmap : bmap dir' 0 fs₁ = .ok ((fs₁.inode dir').d.iZone 0, fs₁) := rfl
  simp only [if_neg hname]
  rw [hdot, hbmap]
  change (if (fs₁.inode dir').d.iZone 0 = 0 then _ else _) =
    (if (fs₁.inode dir').d.iZone 0 = 0 then _ else _) >>= _
  by_cases hzone : (fs₁.inode dir').d.iZone 0 = 0
  · rw [if_pos hzone, if_pos hzone]
    rfl
  rw [if_neg hzone, if_neg hzone]
  cases hbread : bread (fs₁.inode dir').iDev ((fs₁.inode dir').d.iZone 0) fs₁ with
  | error p => rfl
  | ok r =>
    obtain ⟨data, fs₂⟩ := r
    have hinode : fs₂.inode = fs₁.inode := (IfReturns.of_ok (bread_only _ _ _) hbread).inode
    cases data with
    | none => rfl
    | some data =>
      change (findReads dir' name' _ _ 0 0 (some (((fs₂.inode dir').iDev, _), data)) fs₂ >>= _) = _
      rw [hinode]
      rfl

theorem findReads_handsOut {fs' fs'' : FileSystem} {reads : List (Option BufferName)}
    {found : Option DirEntry} (hfit : CountsFit fs) (h : Holding bh fs fs')
    (heq : findReads dir name n fuel i de bh fs' = .ok (reads, found, fs'')) :
    HandsOut fs found fs'' := by
  have hloop : findLoop dir name n fuel i de bh fs' = .ok (found, fs'') := by
    rw [← findReads_eq, heq]
    rfl
  exact (findLoop_counts dir name n fuel i de hfit h).of_ok hloop

theorem firstNamed_range' (dir : InodeIx) (fs : FileSystem) (name : List Byte) (n : Nat) :
    ((List.range' 0 (n - 0)).find? fun e => EntryNamed dir fs name e) =
      firstNamed dir fs name n := by
  rw [firstNamed, List.range_eq_range', Nat.sub_zero]

theorem firstNamed_some : firstNamed dir fs name n = some e ↔
    EntryNamed dir fs name e ∧ e < n ∧ ∀ j < e, ¬ EntryNamed dir fs name j := by
  simp [firstNamed, List.find?_range_eq_some]

theorem handsOut_none :
    (firstNamed dir fs name n).bind (dirEntryAt dir fs) = none ↔
    firstNamed dir fs name n = none := by
  cases hfirst : firstNamed dir fs name n with
  | none => exact iff_of_true rfl rfl
  | some e =>
    obtain ⟨⟨b, hb, -⟩, -⟩ := firstNamed_some.mp hfirst
    refine iff_of_false (fun h => ?_) nofun
    rw [Option.bind_some, dirEntryAt, Option.mem_def.mp hb] at h
    cases h

/-- The first entries of two counts are handed out alike only if they are one. -/
theorem handsOut_eq {n' : Nat} : (firstNamed dir fs name n).bind (dirEntryAt dir fs) =
    (firstNamed dir fs name n').bind (dirEntryAt dir fs) ↔
    firstNamed dir fs name n = firstNamed dir fs name n' := by
  refine ⟨fun h => ?_, fun h => by rw [h]⟩
  cases hfirst : firstNamed dir fs name n with
  | none =>
    rw [hfirst, Option.bind_none] at h
    exact (handsOut_none.mp h.symm).symm
  | some e =>
    cases hfirst' : firstNamed dir fs name n' with
    | none =>
      rw [hfirst', Option.bind_none] at h
      rw [handsOut_none.mp h] at hfirst
      cases hfirst
    | some e' =>
      obtain ⟨hnamed, -, hleast⟩ := firstNamed_some.mp hfirst
      obtain ⟨hnamed', -, hleast'⟩ := firstNamed_some.mp hfirst'
      have hle : ¬ e < e' := fun hlt => hleast' e hlt hnamed
      have hle' : ¬ e' < e := fun hlt => hleast e' hlt hnamed'
      exact congrArg some (by omega)

theorem lookup_right_iff {name' : List Byte} {dir' : InodeIx}
    (hcounts : ∀ d b, bufferCount fs₁ d b < 255) (hname : name.take NAME_LEN ≠ [])
    (hdot : dotDot dir (name.take NAME_LEN) fs = .ok (name', dir', fs₁)) :
    (∃ reads de fs₂, findEntryReads dir name fs = .ok (reads, de, dir', fs₂) ∧ none ∉ reads ∧
      de = (firstNamed dir' fs₁ name' (entriesIn (fs₁.inode dir').d)).bind (dirEntryAt dir' fs₁) ∧
      HandsOut fs₁ de fs₂) ↔
      LookupSafe dir' name' (entriesIn (fs.inode dir).d) fs₁ := by
  obtain ⟨fs₂, hread, hrel⟩ := dirBlock_read hcounts dir' (show 0 < MAPPABLE by decide)
  have hfit : CountsFit fs₁ := fun d b => Nat.lt_trans (hcounts d b) (by decide)
  have hholding : Holding (dirBlock dir' fs₁ 0) fs₁ fs₂ :=
    (readDirBlock_counts dir' 0 hfit).of_ok hread
  rw [findEntryReads_search hname hdot, show readDirBlock dir' 0 fs₁ = _ from hread]
  unfold LookupSafe
  generalize entriesIn (fs.inode dir).d = n
  cases hfirst : dirBlock dir' fs₁ 0 with
  | none =>
    rw [hfirst] at hholding
    constructor
    · rintro ⟨reads, de, fs', heq, _, hde, _⟩
      obtain rfl : none = de := (Prod.mk.inj (Prod.mk.inj (Except.ok.inj heq)).2).1
      exact handsOut_none.mp hde.symm
    · intro hnone
      refine ⟨[], none, fs₂, rfl, List.not_mem_nil, ?_, hholding⟩
      exact (handsOut_none.mpr hnone).symm
  | some b =>
    rw [hfirst] at hholding hrel
    have hlen : name'.length ≤ NAME_LEN := dotDot_length hdot (List.length_take_le _ _)
    have hstand : Standing dir' fs₁ 0 0 (some b) fs₂ :=
      .within (Nat.zero_le 64) (by decide) hfirst hrel
    have hends := @findReads_right fs₁ dir' name' n 0 0 n (some b) hcounts hlen fs₂ hstand
      (Nat.le_add_left _ _)
    change (∃ reads de fs', (findReads dir' name' n n 0 0 (some b) fs₂).map _ = _ ∧ _) ↔ _
    cases hloop : findReads dir' name' n n 0 0 (some b) fs₂ with
    | error p =>
      rw [hloop] at hends
      refine iff_of_false (fun ⟨_, _, _, heq, _⟩ => by cases heq) fun h => h.2.1 hends
    | ok r =>
      obtain ⟨reads, de, fs₃⟩ := r
      rw [hloop] at hends
      have hentry : de = (firstNamed dir' fs₁ name' n).bind (dirEntryAt dir' fs₁) := by
        rw [← firstNamed_range']
        exact hends.entry
      have hnull : none ∈ reads ↔ SkipsOn dir' fs₁ name' n 0 := by
        rw [hends.null]
        simp only [reduceCtorEq, and_false, false_or]
      have hhands := findReads_handsOut hfit hholding hloop
      constructor
      · rintro ⟨reads', de', fs', heq, hno, hde, _⟩
        obtain ⟨rfl, hrest⟩ := Prod.mk.inj (Except.ok.inj heq)
        obtain rfl : de = de' := (Prod.mk.inj hrest).1
        exact ⟨fun hskip => hno (hnull.mpr hskip), hends.stays,
          handsOut_eq.mp (hentry.symm.trans hde)⟩
      · rintro ⟨hskip, _, hsame⟩
        refine ⟨reads, de, fs₃, rfl, fun h => hskip (hnull.mp h), ?_, hhands⟩
        rw [← hsame]
        exact hentry

/-- `find_entry` does what it should exactly where the special case of `..` returns and the
directory it leads to is safe to search. -/
theorem findEntry_right_iff (hname : name ≠ [])
    (hcounts : ∀ name' dir' fs₁, dotDot dir (name.take NAME_LEN) fs = .ok (name', dir', fs₁) →
      ∀ d b, bufferCount fs₁ d b < 255) :
    LookupRight dir name fs ↔ DotDotSafe dir (name.take NAME_LEN) fs ∧
      ∀ name' dir' fs₁, dotDot dir (name.take NAME_LEN) fs = .ok (name', dir', fs₁) →
        LookupSafe dir' name' (entriesIn (fs.inode dir).d) fs₁ := by
  have hne : name.take NAME_LEN ≠ [] := by simpa [NAME_LEN] using hname
  rw [← dotDot_returns_iff]
  constructor
  · rintro ⟨name', dir', fs₁, reads, de, fs₂, hdot, hright⟩
    refine ⟨⟨_, hdot⟩, fun name'' dir'' fs₁' hdot' => ?_⟩
    obtain ⟨rfl, hrest⟩ := Prod.mk.inj (Except.ok.inj (hdot.symm.trans hdot'))
    obtain ⟨rfl, rfl⟩ := Prod.mk.inj hrest
    exact (lookup_right_iff (hcounts _ _ _ hdot) hne hdot).mp ⟨reads, de, fs₂, hright⟩
  · rintro ⟨⟨⟨name', dir', fs₁⟩, hdot⟩, hsafe⟩
    obtain ⟨reads, de, fs₂, hright⟩ :=
      (lookup_right_iff (hcounts _ _ _ hdot) hne hdot).mpr (hsafe _ _ _ hdot)
    exact ⟨name', dir', fs₁, reads, de, fs₂, hdot, hright⟩

def holeyDir : DInode := (((DInode.zero.setMode 0o040755).setSize 2064).setZone 0 3).setZone 2 4

theorem findEntry_right_iff_holey : LookupRight 0 [97] (bigState holeyDir) ↔
    DotDotSafe 0 ([97].take NAME_LEN) (bigState holeyDir) ∧
      ∀ name' dir' fs₁, dotDot 0 ([97].take NAME_LEN) (bigState holeyDir) = .ok (name', dir', fs₁) →
        LookupSafe dir' name' (entriesIn ((bigState holeyDir).inode 0).d) fs₁ := by
  refine findEntry_right_iff (List.cons_ne_nil _ _) fun name' dir' fs₁ hdot d b => ?_
  obtain rfl : bigState holeyDir = fs₁ := (Prod.mk.inj (Prod.mk.inj (Except.ok.inj hdot)).2).2
  exact Nat.zero_lt_succ _

/-- Behind the missing block the loop reads `b_data` through a null pointer. -/
theorem findEntry_reads_null : ¬ LookupRight 0 [97] (bigState holeyDir) := by
  have hreads : (findEntryReads 0 [97] (bigState holeyDir)).toOption.map
      (fun r => decide (none ∈ r.1)) = some true := by
    decide +kernel
  rintro ⟨name', dir', fs₁, reads, de, fs₂, _, heq, hno, _⟩
  rw [heq] at hreads
  exact hno (of_decide_eq_true (Option.some.inj hreads))

end Hios.Fs
