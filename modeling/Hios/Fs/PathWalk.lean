import Hios.Fs.ZoneTree
import Hios.Fs.InodeCalls

/-! What a path means: the directories that its components lead through, from the
inodes and the blocks of directories alone. -/
namespace Hios.Fs
open Hios.Outcome
variable {fs fs' fs'' : FileSystem} {dev nr n e : Nat} {i : InodeIx} {d : DInode}
  {name path : List Byte}

def text (path : List Byte) : List Byte := path.takeWhile (· ≠ 0)

def Block.entryName (b : Block) (k : Fin 64) : List Byte := text (List.ofFn (b.dirName k))

def fileZone (fs : FileSystem) (dev : Nat) (d : DInode) (n : Nat) : Nat :=
  if h : n < 7 then d.iZone ⟨n, direct_lt h⟩
  else if n - 7 < 512 then if d.iZone 7 = 0 then 0 else (content fs dev (d.iZone 7)).short (n - 7)
  else if d.iZone 8 = 0 then 0 else
    let ind := (content fs dev (d.iZone 8)).short ((n - 7 - 512) / 512)
    if ind = 0 then 0 else (content fs dev ind).short ((n - 7 - 512) % 512)

def entriesIn (d : DInode) : Nat := d.iSize / 16

def entryBlock (fs : FileSystem) (dev : Nat) (d : DInode) (e : Nat) : Block :=
  content fs dev (fileZone fs dev d (e / 64))

def entryInode (fs : FileSystem) (dev : Nat) (d : DInode) (e : Nat) : Nat :=
  (entryBlock fs dev d e).dirInode (Fin.ofNat 64 e)

def entryName (fs : FileSystem) (dev : Nat) (d : DInode) (e : Nat) : List Byte :=
  (entryBlock fs dev d e).entryName (Fin.ofNat 64 e)

def Names (fs : FileSystem) (dev : Nat) (d : DInode) (name : List Byte) (e : Nat) : Prop :=
  entryInode fs dev d e ≠ 0 ∧ entryName fs dev d e = name.take NAME_LEN

instance : Decidable (Names fs dev d name e) := inferInstanceAs (Decidable (_ ∧ _))

/-- The first entry of a directory for a name. The empty name has none. -/
def entryOf (fs : FileSystem) (dev : Nat) (d : DInode) (name : List Byte) : Option Nat :=
  if name = [] then none else (List.range (entriesIn d)).find? fun e => Names fs dev d name e

def lookup (fs : FileSystem) (dev : Nat) (d : DInode) (name : List Byte) : Option Nat :=
  (entryOf fs dev d name).map (entryInode fs dev d)

/-- The process may search the directory: the class of the process has the execute
bit, or it is the superuser; a deleted directory is searched by nobody. -/
def Searchable (fs : FileSystem) (d : DInode) : Prop :=
  S_ISDIR d.iMode ∧ d.iNlinks ≠ 0 ∧
    (d.iMode.testBit (if fs.euid = d.iUid then 6 else if fs.egid = d.iGid then 3 else 0) = true ∨
      suser fs)

instance : Decidable (Searchable fs d) := inferInstanceAs (Decidable (_ ∧ _ ∧ _))

def inodeId (fs : FileSystem) : InodePtr → Option (Nat × Nat)
  | .entry i => some ((fs.inode i).iDev, (fs.inode i).iNum)
  | _ => none

def nameAt (fs : FileSystem) (id : Nat × Nat) (name : List Byte) : List Byte :=
  if inodeId fs fs.root = some id ∧ name.take NAME_LEN = [dot, dot] then [dot] else name

def walk (fs : FileSystem) : Nat × Nat → List (List Byte) → Option (Nat × Nat)
  | id, [] => if Searchable fs (inodeAt fs id.1 id.2) then some id else none
  | id, name :: names =>
    if Searchable fs (inodeAt fs id.1 id.2) then
      match lookup fs id.1 (inodeAt fs id.1 id.2) (nameAt fs id name) with
      | none => none
      | some nr => walk fs (id.1, nr) names
    else none

def pieces (path : List Byte) : List (List Byte) := (text path).splitOnP (· = slash)

def pathStart (fs : FileSystem) (path : List Byte) : Option (Nat × Nat) × List (List Byte) :=
  match pieces path with
  | [] :: p :: ps => (inodeId fs fs.root, p :: ps)
  | ps => (inodeId fs fs.pwd, ps)

/-- The directory that a path leads to: each of its components but the last name is
looked up in turn. -/
def directoryOf (fs : FileSystem) (path : List Byte) : Option (Nat × Nat) :=
  (pathStart fs path).1.bind fun id => walk fs id (pathStart fs path).2.dropLast

theorem text_cons {c : Byte} (h0 : c ≠ 0) (cs : List Byte) : text (c :: cs) = c :: text cs :=
  List.takeWhile_cons_of_pos (decide_eq_true h0)

theorem component_slash (cs : List Byte) : component (slash :: cs) = ([], some cs) := rfl

theorem component_cons {c : Byte} (h0 : c ≠ 0) (hs : c ≠ slash) (cs : List Byte) :
    component (c :: cs) = (c :: (component cs).1, (component cs).2) := by
  rw [component, if_neg h0, if_neg hs]

theorem pieces_component (path : List Byte) :
    pieces path = (component path).1 :: ((component path).2.map pieces).getD [] := by
  induction path with
  | nil => rfl
  | cons c cs ih =>
    by_cases h0 : c = 0
    · subst h0
      rfl
    · by_cases hs : c = slash
      · subst hs
        rw [component_slash, pieces, text_cons h0, List.splitOnP_cons_eq_if_modifyHead]
        rfl
      · rw [component_cons h0 hs, pieces, text_cons h0, List.splitOnP_cons_eq_if_modifyHead,
          if_neg (by simpa using hs)]
        unfold pieces at ih
        rw [ih]
        rfl

theorem pieces_ne_nil (path : List Byte) : pieces path ≠ [] := List.splitOnP_ne_nil _ _

theorem component_no_zero (path : List Byte) : 0 ∉ (component path).1 := by
  induction path with
  | nil => exact List.not_mem_nil
  | cons c cs ih =>
    by_cases h0 : c = 0
    · subst h0
      exact List.not_mem_nil
    · by_cases hs : c = slash
      · subst hs
        exact List.not_mem_nil
      · rw [component_cons h0 hs]
        exact List.not_mem_cons_of_ne_of_not_mem (Ne.symm h0) ih

theorem component_shorter {rest : List Byte} (h : (component path).2 = some rest) :
    rest.length < path.length := by
  induction path with
  | nil => cases h
  | cons c cs ih =>
    by_cases h0 : c = 0
    · subst h0
      cases h
    · by_cases hs : c = slash
      · subst hs
        obtain rfl := Option.some.inj h
        exact Nat.lt_succ_self _
      · rw [component_cons h0 hs] at h
        exact Nat.lt_succ_of_lt (ih h)

theorem text_of_component (h : (component path).2 = none) : text path = (component path).1 := by
  induction path with
  | nil => rfl
  | cons c cs ih =>
    by_cases h0 : c = 0
    · subst h0
      rfl
    · by_cases hs : c = slash
      · subst hs
        cases h
      · rw [component_cons h0 hs] at h ⊢
        rw [text_cons h0, ih h]

theorem baseLoop_component (path base : List Byte) :
    baseLoop path base = match (component path).2 with
      | none => base
      | some rest => baseLoop rest rest := by
  induction path with
  | nil => rfl
  | cons c cs ih =>
    by_cases h0 : c = 0
    · subst h0
      rfl
    · by_cases hs : c = slash
      · subst hs
        rfl
      · rw [component_cons h0 hs, baseLoop, if_neg h0, if_neg hs]
        exact ih

theorem pieces_getLast (path : List Byte) : (pieces path).getLast? = some (baseName path) := by
  induction hn : path.length using Nat.strongRecOn generalizing path with
  | ind k ih =>
    have hbase : baseName path = text (baseLoop path path) := rfl
    rw [pieces_component, hbase, baseLoop_component]
    cases hrest : (component path).2 with
    | none => exact congrArg some (text_of_component hrest).symm
    | some rest =>
      have hlast := ih rest.length (hn ▸ component_shorter hrest) rest rfl
      obtain ⟨p, ps, hp⟩ := List.exists_cons_of_ne_nil (pieces_ne_nil rest)
      rw [hp] at hlast
      simp only [Option.map_some, Option.getD_some, hp, List.getLast?_cons_cons, hlast]
      rfl

/-- What is before the first zero, as a prefix that a zero or the end follows. -/
theorem text_eq_iff (l : List Byte) (h0 : 0 ∉ name) : text l = name ↔
  name <+: l ∧ l[name.length]?.getD 0 = 0 := by
  induction l generalizing name with
  | nil =>
    cases name with
    | nil => exact iff_of_true rfl ⟨List.prefix_rfl, rfl⟩
    | cons b bs =>
      exact iff_of_false (fun e => by cases e) fun e => absurd (List.prefix_nil.mp e.1) (by simp)
  | cons a l ih =>
    cases name with
    | nil =>
      by_cases ha : a = 0
      · subst ha
        exact iff_of_true rfl ⟨List.nil_prefix, rfl⟩
      · rw [text_cons ha]
        exact iff_of_false (fun e => by cases e) fun e => ha e.2
    | cons b bs =>
      have hb : b ≠ 0 := fun e => h0 (e ▸ List.mem_cons_self)
      have hbs : 0 ∉ bs := fun e => h0 (List.mem_cons_of_mem _ e)
      rw [List.cons_prefix_cons]
      by_cases ha : a = 0
      · subst ha
        exact iff_of_false (fun e => by cases e) fun e => hb e.1.1
      · rw [text_cons ha, List.cons.injEq, ih hbs, List.length_cons,
          List.getElem?_cons_succ, and_assoc]
        exact and_congr eq_comm .rfl

/-- `match` compares the bytes of the name, and looks for a zero behind them. -/
theorem matchEntry_bytes (hlen : name.length ≤ NAME_LEN) (b : Block) (k : Fin 64) :
    matchEntry name b k = true ↔ b.dirInode k ≠ 0 ∧ name <+: List.ofFn (b.dirName k) ∧
      (List.ofFn (b.dirName k))[name.length]?.getD 0 = 0 := by
  have hlen : name.length ≤ 14 := hlen
  have hat : ∀ m, (List.ofFn (b.dirName k))[m]? = if h : m < 14 then some (b.dirName k ⟨m, h⟩)
    else none :=
    fun m => List.getElem?_ofFn
  have hofNat : ∀ {m} (h : m < 14), Fin.ofNat 14 m = ⟨m, h⟩ := fun h => Fin.ext (Nat.mod_eq_of_lt h)
  generalize List.ofFn (b.dirName k) = l at hat
  have hend : l[name.length]?.getD 0 = 0 ↔
      ¬ (name.length < NAME_LEN ∧ b.dirName k (Fin.ofNat 14 name.length) ≠ 0) := by
    rw [hat]
    by_cases hm : name.length < 14
    · rw [dif_pos hm, hofNat hm, not_and]
      exact ⟨fun e _ => not_not.mpr e, fun e => not_not.mp (e hm)⟩
    · rw [dif_neg hm]
      exact iff_of_true rfl fun e => hm e.1
  have hall : (name.zipIdx.all fun c => c.1 = b.dirName k (Fin.ofNat 14 c.2)) = true ↔
      name <+: l := by
    rw [List.all_eq_true, List.prefix_iff_getElem?]
    constructor
    · intro h m hm
      have hmem : (name[m], m) ∈ name.zipIdx :=
        List.mk_mem_zipIdx_iff_getElem?.mpr (List.getElem?_eq_getElem hm)
      have heq := of_decide_eq_true (h _ hmem)
      rw [hat, dif_pos (show m < 14 by omega), ← hofNat]
      exact congrArg some heq.symm
    · intro h c hc
      have hget := List.mem_zipIdx_iff_getElem?.mp hc
      obtain ⟨hm, hval⟩ := List.getElem?_eq_some_iff.mp hget
      have hl := h c.2 hm
      rw [hat, dif_pos (show c.2 < 14 by omega), ← hofNat] at hl
      exact decide_eq_true (hval.symm.trans (Option.some.inj hl).symm)
  rw [hend, ← hall, matchEntry]
  by_cases hi : b.dirInode k = 0
  · exact iff_of_false (by simp [hi]) fun e => e.1 hi
  · have hn : ¬ (b.dirInode k = 0 ∨ name.length > NAME_LEN) :=
      fun e => e.elim hi (Nat.not_lt.mpr hlen)
    rw [if_neg hn]
    by_cases he : name.length < NAME_LEN ∧ b.dirName k (Fin.ofNat 14 name.length) ≠ 0
    · rw [if_pos he]
      exact iff_of_false (by simp) fun e => e.2.2 he
    · rw [if_neg he]
      exact ⟨fun h => ⟨hi, h, he⟩, fun h => h.2.1⟩

theorem matchEntry_iff (h0 : 0 ∉ name) (hlen : name.length ≤ NAME_LEN) (b : Block) (k : Fin 64) :
    matchEntry name b k = true ↔ b.dirInode k ≠ 0 ∧ b.entryName k = name := by
  rw [matchEntry_bytes hlen]
  exact and_congr_right fun _ => (text_eq_iff _ h0).symm

def IndirectOf (fs : FileSystem) (dev : Nat) (d : DInode) (z : Nat) : Prop :=
  z = d.iZone 7 ∨ z = d.iZone 8 ∨ d.iZone 8 ≠ 0 ∧
    ∃ k < 512, z = (content fs dev (d.iZone 8)).short k

/-- A directory without holes and without blocks that cannot be read, none of which
is a block of inodes. -/
structure WholeDir (fs : FileSystem) (dev : Nat) (d : DInode) : Prop where
  reach : ∀ e < entriesIn d, e / 64 < 7 + 512 + 512 * 512
  block : ∀ e < entriesIn d, fileZone fs dev d (e / 64) ≠ 0 ∧
    Readable fs dev (fileZone fs dev d (e / 64)) ∧
    ¬ InodeBlock fs dev (fileZone fs dev d (e / 64))
  indirect : ∀ z, IndirectOf fs dev d z → z ≠ 0 → Readable fs dev z ∧ ¬ InodeBlock fs dev z

def entryBuffer (fs : FileSystem) (dev : Nat) (d : DInode) (n : Nat) : BufferName × Block :=
  ((dev, fileZone fs dev d n), content fs dev (fileZone fs dev d n))

def SearchEnds (fs : FileSystem) (dev : Nat) (d : DInode) (found : Option Nat)
    (de : Option DirEntry) (fs' : FileSystem) : Prop :=
  match found, de with
  | none, none => Still fs fs'
  | some e, some de => de.inode = entryInode fs dev d e ∧ Taken de.bh.1 de.bh.2 fs fs'
  | _, _ => False

theorem Still.taken {block : Nat} (h : Still fs fs') (h' : Taken dev block fs' fs'') :
    Taken dev block fs fs'' := by
  obtain ⟨bh, hb, hdata, hup⟩ := h'.data
  exact ⟨h.only.trans h'.only, h.counts.oneMore h'.counts,
    fun d b => (h'.content d b).trans (h.content d b),
    fun d b hc => h'.cached d b (h.cached d b hc), fun hd => h'.dirty (h.dirty hd),
    bh, hb, hdata.trans (h.content dev block), hup⟩

theorem Still.fileZone (h : Still fs fs') (dev : Nat) (d : DInode) (n : Nat) :
    fileZone fs' dev d n = fileZone fs dev d n := by
  unfold Fs.fileZone
  simp only [h.content]

theorem readDirBlock_eq (hw : WholeDir fs dev d) (hdev : (fs.inode i).iDev = dev)
    (hd : (fs.inode i).d = d) (hcount : ∀ d b, bufferCount fs d b < 255) (he : e < entriesIn d)
    (h : Still fs fs') :
    ∃ fs₁, readDirBlock i (e / 64) fs' = .ok (some (entryBuffer fs dev d (e / 64)), fs₁) ∧
      Taken dev (fileZone fs dev d (e / 64)) fs fs₁ := by
  have hdev' : (fs'.inode i).iDev = dev := by rw [h.only.inode, hdev]
  have hd' : (fs'.inode i).d = d := by rw [h.only.inode, hd]
  have hind : ∀ z, IndirectBlock i fs' z → z ≠ 0 → Readable fs dev z := by
    intro z hz hne
    unfold IndirectBlock at hz
    simp only [hdev', hd', h.content] at hz
    exact (hw.indirect z hz hne).1
  obtain ⟨fs₁, heq, hstill⟩ :=
    bmap_eq (hw.reach e he) (fun z hz hne => hdev' ▸ h.readable (hind z hz hne))
    fun z _ _ => h.counts _ _ ▸ hcount _ _
  have hzone : zoneAt i fs' (e / 64) = fileZone fs dev d (e / 64) := by
    rw [← h.fileZone, ← hdev', ← hd']
    rfl
  obtain ⟨hne, hr, -⟩ := hw.block e he
  rw [hzone] at heq
  have hstill' := h.trans hstill
  obtain ⟨fs₂, hbread, htaken⟩ := bread_taken (available_of_readable (hstill'.readable hr))
  refine ⟨fs₂, bind_eq_ok.mpr ⟨_, heq, ?_⟩, hstill'.taken htaken⟩
  have hdev₁ : (fs₁.inode i).iDev = dev := by rw [hstill'.only.inode, hdev]
  simp only [if_neg hne, hdev₁]
  refine bind_eq_ok.mpr ⟨_, hbread, ?_⟩
  rw [hstill'.content]
  rfl

/-- The loop of `find_entry` from entry `e` on, in the block of the entry before it or
at its own. -/
theorem findLoop_eq (hw : WholeDir fs dev d) (hdev : (fs.inode i).iDev = dev)
    (hd : (fs.inode i).d = d) (hcount : ∀ d b, bufferCount fs d b < 255) (h0 : 0 ∉ name)
    (hlen : name.length ≤ NAME_LEN) (fuel de n : Nat) (hfuel : e + fuel = entriesIn d)
    (hat : 64 * n + de = e) (hde : de ≤ 64) (h : Taken dev (fileZone fs dev d n) fs fs') :
    ∃ r fs'', findLoop i name (entriesIn d) fuel e de (some (entryBuffer fs dev d n)) fs' =
      .ok (r, fs'') ∧
      SearchEnds fs dev d ((List.range' e fuel).find? fun e => Names fs dev d name e) r fs'' := by
  induction fuel generalizing e de n fs' with
  | zero =>
    obtain ⟨fs₁, heq, hstill⟩ := h.brelse (hcount _ _)
    exact ⟨none, fs₁, bind_eq_ok.mpr ⟨fs₁, heq, rfl⟩, hstill⟩
  | succ fuel ih =>
    have he : e < entriesIn d := by omega
    -- the entry's own block is held, the one before it having been released if need be
    have hblock : ∃ de' n' fs₁, 64 * n' + de' = e ∧ de' < 64 ∧
      Taken dev (fileZone fs dev d n') fs fs₁ ∧
        findLoop i name (entriesIn d) (fuel + 1) e de (some (entryBuffer fs dev d n)) fs' =
          if matchEntry name (entryBuffer fs dev d n').2 (Fin.ofNat 64 de') then
            .ok (some ⟨(dev, fileZone fs dev d n'), Fin.ofNat 64 de',
              (entryBuffer fs dev d n').2.dirInode (Fin.ofNat 64 de')⟩, fs₁)
          else findLoop i name (entriesIn d) fuel (e + 1) (de' + 1)
            (some (entryBuffer fs dev d n')) fs₁ := by
      by_cases hin : de < 64
      · refine ⟨de, n, fs', hat, hin, h, ?_⟩
        rw [findLoop, if_neg (Nat.not_le.mpr he)]
        rw [if_pos ⟨rfl, hin⟩]
        rfl
      · obtain ⟨fs₁, hrel, hstill⟩ := h.brelse (hcount _ _)
        obtain ⟨fs₂, hread, htaken⟩ := readDirBlock_eq hw hdev hd hcount he hstill
        refine ⟨0, e / 64, fs₂, by omega, by decide, htaken, ?_⟩
        have hb : brelseDir (some (entryBuffer fs dev d n)) fs' = .ok fs₁ := hrel
        rw [findLoop, if_neg (Nat.not_le.mpr he), if_neg fun e => hin e.2, hb]
        change (readDirBlock i (e / 64) fs₁ >>= _) = _
        rw [hread]
        rfl
    obtain ⟨de', n', fs₁, hat', hde', htaken, heq⟩ := hblock
    have hn' : e / 64 = n' := by omega
    have hk : Fin.ofNat 64 e = Fin.ofNat 64 de' := Fin.ext (by simp only [Fin.ofNat]; omega)
    have hiff : matchEntry name (entryBuffer fs dev d n').2 (Fin.ofNat 64 de') = true ↔
        Names fs dev d name e := by
      rw [matchEntry_iff h0 hlen, Names, entryInode, entryName, entryBlock, hn', hk,
        List.take_of_length_le hlen]
      rfl
    rw [heq, List.range'_succ, List.find?_cons]
    by_cases hm : Names fs dev d name e
    · rw [if_pos (hiff.mpr hm), decide_eq_true hm]
      refine ⟨_, fs₁, rfl, ?_, htaken⟩
      rw [entryInode, entryBlock, hn', hk]
      rfl
    · rw [if_neg (fun e => hm (hiff.mp e)), decide_eq_false hm]
      exact ih (de' + 1) n' (by omega) (by omega) (by omega) htaken

theorem bread_still {block : Nat} (ha : available fs dev 0 block = false)
    (hcount : bufferCount fs dev block < 255) :
    ∃ fs', bread dev block fs = .ok (none, fs') ∧ Still fs fs' := by
  have hc : cached fs dev block = false := (Bool.or_eq_false_iff.mp ha).1
  have hup := (getblk_uptodate fs dev block).trans hc
  have hlt : (bufferCount fs dev block + 1) % 256 = bufferCount fs dev block + 1 :=
    Nat.mod_eq_of_lt (by omega)
  refine ⟨_, (bread_unavailable ha).trans (if_neg (by omega)), rfl, fun d b => ?_, fun d b => ?_,
    fun d b hcd => ?_,
    fun hd => dirtyHolds_setBuffer (show DirtyHolds { fs with reads := fs.reads + 1 } from hd) fun
      h => by cases h⟩
  · rw [bufferCount_setBuffer]
    split
    · rename_i e
      rw [e.1, e.2, hlt]
      rfl
    · rfl
  · rw [content_setBuffer]
    split
    · rename_i e
      rw [e.1, e.2, content_of_not_cached hc, hup]
      rfl
    · rfl
  · rw [cached_setBuffer]
    split
    · rename_i e
      rw [e.1, e.2, hc] at hcd
      cases hcd
    · exact hcd

/-- Nothing is mounted on: `..` in the root directory of a file system comes back to it,
which has another reference then. -/
def OwnMount (i : InodeIx) (fs : FileSystem) : Prop :=
  ∀ sb, (fs.inode i).iNum = ROOT_INO → getSuper (fs.inode i).iDev fs = some sb →
    sb.sImount = .null ∨ sb.sImount = .entry i ∧ 1 < (fs.inode i).iCount ∧
      (fs.inode i).iCount < 65536

theorem iput_again (hc : Coherent fs) (hdev : (fs.inode i).iDev ≠ 0)
    (hdir : S_ISDIR (fs.inode i).d.iMode) (hcount : 1 < (fs.inode i).iCount)
    (hfit : (fs.inode i).iCount < 65536) :
    ∃ fs', iput i fs = .ok fs' ∧
      fs'.setInode i { fs'.inode i with iCount := ((fs'.inode i).iCount + 1) % 65536 } = fs := by
  have hblk : ¬ S_ISBLK (fs.inode i).d.iMode := fun hblk => by
    have heq : (0o040000 : Nat) = 0o060000 := hdir.symm.trans hblk
    omega
  have hput : iput i fs =
      .ok (fs.setInode i { fs.inode i with iCount := (fs.inode i).iCount - 1 }) := by
    have hzero : ¬ (fs.inode i).iCount = 0 := by omega
    simp only [iput, waitOnInode, hc.unlocked i, hc.notPipe i hdev, if_neg hzero, if_neg hdev,
      if_neg hblk, iputRepeat,
      if_pos hcount]
    rfl
  refine ⟨_, hput, ?_⟩
  have hback : ((fs.inode i).iCount - 1 + 1) % 65536 = (fs.inode i).iCount := by
    rw [Nat.sub_add_cancel (by omega), Nat.mod_eq_of_lt hfit]
  rw [setInode_inode]
  simp only [FileSystem.setInode, hback, Function.update_idem, Function.update_eq_self]

theorem dotDot_eq (hc : Coherent fs) (hdev : (fs.inode i).iDev ≠ 0)
    (hdir : S_ISDIR (fs.inode i).d.iMode) (hown : OwnMount i fs) (name : List Byte) :
    dotDot i (name.take NAME_LEN) fs =
      .ok ((nameAt fs ((fs.inode i).iDev, (fs.inode i).iNum) name).take NAME_LEN, i, fs) := by
  have hroot : inodeId fs fs.root = some ((fs.inode i).iDev, (fs.inode i).iNum) ↔
      fs.root = .entry i := by
    cases fs.root with
    | null => simp [inodeId]
    | wild => simp [inodeId]
    | entry r =>
      simp only [inodeId, Option.some.injEq, Prod.mk.injEq, InodePtr.entry.injEq]
      exact ⟨fun ⟨hd, hn⟩ => hc.unique r i (hd ▸ hdev) hd hn, fun e => e ▸ ⟨rfl, rfl⟩⟩
  have hself : ∀ h : ¬ (inodeId fs fs.root = some ((fs.inode i).iDev, (fs.inode i).iNum) ∧
      name.take NAME_LEN = [dot, dot]), nameAt fs ((fs.inode i).iDev, (fs.inode i).iNum) name =
        name := fun h => if_neg h
  unfold dotDot
  by_cases hdots : name.take NAME_LEN = [dot, dot]
  · rw [if_pos hdots]
    by_cases hr : fs.root = .entry i
    · rw [if_pos hr, nameAt, if_pos ⟨hroot.mpr hr, hdots⟩]
      rfl
    · rw [if_neg hr, hself fun e => hr (hroot.mp e.1)]
      by_cases hnum : (fs.inode i).iNum = ROOT_INO
      · obtain ⟨sb, hsb, -⟩ := hc.known i hdev
        obtain hmount | ⟨hmount, hcount, hfit⟩ := hown sb hnum hsb
        · simp only [if_pos hnum, hsb, hmount]
        · obtain ⟨fs', hput, hback⟩ := iput_again hc hdev hdir hcount hfit
          simp only [if_pos hnum, hsb, hmount, hput]
          exact congrArg (fun fs => Except.ok (name.take NAME_LEN, i, fs)) hback
      · rw [if_neg hnum]
  · rw [if_neg hdots, hself fun e => hdots e.2]

theorem nameAt_eq_nil (fs : FileSystem) (id : Nat × Nat) (name : List Byte) :
    nameAt fs id name = [] ↔ name = [] := by
  unfold nameAt
  split
  · rename_i h
    refine iff_of_false (by simp) fun e => ?_
    rw [e] at h
    cases h.2
  · rfl

theorem nameAt_no_zero (h0 : 0 ∉ name) (fs : FileSystem) (id : Nat × Nat) :
    0 ∉ nameAt fs id name := by
  unfold nameAt
  split
  · decide
  · exact h0

theorem entryOf_empty (h : entriesIn d = 0) (fs : FileSystem) (dev : Nat) (name : List Byte) :
    entryOf fs dev d name = none := by
  unfold entryOf
  rw [h]
  exact ite_self _

theorem WholeDir.first (hw : WholeDir fs dev d) (h : entriesIn d ≠ 0) :
    d.iZone 0 ≠ 0 ∧ Readable fs dev (d.iZone 0) := by
  obtain ⟨hne, hr, -⟩ := hw.block 0 (Nat.pos_of_ne_zero h)
  exact ⟨hne, hr⟩

theorem findEntry_eq (hc : Coherent fs) (hdev : (fs.inode i).iDev ≠ 0)
    (hdir : S_ISDIR (fs.inode i).d.iMode) (hown : OwnMount i fs) (h0 : 0 ∉ name)
    (hw : WholeDir fs (fs.inode i).iDev (fs.inode i).d) :
    ∃ r fs', findEntry i name fs = .ok (r, i, fs') ∧ SearchEnds fs (fs.inode i).iDev (fs.inode i).d
      (entryOf fs (fs.inode i).iDev (fs.inode i).d
        (nameAt fs ((fs.inode i).iDev, (fs.inode i).iNum) name)) r fs' := by
  have hdots := dotDot_eq hc hdev hdir hown name
  have hnil := nameAt_eq_nil fs ((fs.inode i).iDev, (fs.inode i).iNum) name
  have hzero := nameAt_no_zero h0 fs ((fs.inode i).iDev, (fs.inode i).iNum)
  generalize nameAt fs ((fs.inode i).iDev, (fs.inode i).iNum) name = nm at hdots hnil hzero ⊢
  unfold findEntry
  by_cases hname : name = []
  · rw [if_pos (by rw [hname]; rfl), entryOf, if_pos (hnil.mpr hname)]
    exact ⟨none, fs, rfl, .refl fs⟩
  · have htake : name.take NAME_LEN ≠ [] := by simpa [NAME_LEN] using hname
    rw [if_neg htake, hdots]
    change ∃ r fs', (if (fs.inode i).d.iZone 0 = 0 then _ else _) = Except.ok (r, i, fs') ∧ _
    by_cases hz : (fs.inode i).d.iZone 0 = 0
    · rw [if_pos hz, entryOf_empty (by_contra fun h => (hw.first h).1 hz)]
      exact ⟨none, fs, rfl, .refl fs⟩
    · rw [if_neg hz]
      by_cases ha : available fs (fs.inode i).iDev 0 ((fs.inode i).d.iZone 0) = true
      · obtain ⟨fs₁, hbread, htaken⟩ := bread_taken ha
        have hloop := findLoop_eq (i := i) hw rfl rfl hc.counts
          (fun h => hzero (List.mem_of_mem_take h))
          (List.length_take_le ..) _ 0 0 (Nat.zero_add _) rfl (by decide) htaken
        obtain ⟨r, fs₂, heq, hend⟩ := hloop
        have hdev₁ : (fs₁.inode i).iDev = (fs.inode i).iDev := by rw [htaken.only.inode]
        refine ⟨r, fs₂, ?_, ?_⟩
        · rw [hbread]
          change (findLoop i (nm.take NAME_LEN) (entriesIn (fs.inode i).d)
            (entriesIn (fs.inode i).d) 0 0
            (some (((fs₁.inode i).iDev, (fs.inode i).d.iZone 0), _)) fs₁ >>= _) = _
          rw [hdev₁]
          exact bind_eq_ok.mpr ⟨_, heq, rfl⟩
        · rw [entryOf, if_neg (fun e => hname (hnil.mp e)), List.range_eq_range']
          simp only [Names, List.take_take, Nat.min_self] at hend ⊢
          exact hend
      · have ha : available fs (fs.inode i).iDev 0 ((fs.inode i).d.iZone 0) = false := by
          simpa using ha
        obtain ⟨fs₁, hbread, hstill⟩ := bread_still ha (hc.counts _ _)
        have hempty : entriesIn (fs.inode i).d = 0 := by
          by_contra h
          rw [available_of_readable (hw.first h).2] at ha
          cases ha
        rw [hbread, entryOf_empty hempty]
        exact ⟨none, fs₁, rfl, hstill⟩

end Hios.Fs
