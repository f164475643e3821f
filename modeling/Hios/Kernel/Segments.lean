import Hios.Kernel.Fork
import Hios.Lib.Registers

/-! Segment descriptors: the assembly of `_set_base`, `_get_base` and `_set_tssldt_desc`
instruction by instruction, against the fields of the descriptor. Addresses wrap at 2^32. -/
namespace Hios.Kernel
open Hios.LongMemory Hios.Registers

def setBase (addr base : BitVec 32) (m : Memory) : Reg × Memory :=
  let edx := base
  let m := storeWord m (addr + 2) (word edx)
  let edx := rorl16 edx
  let m := storeByte m (addr + 4) (low edx)
  let m := storeByte m (addr + 7) (high edx)
  (edx, m)

def getBase (edx : Reg) (addr : BitVec 32) (m : Memory) : BitVec 32 :=
  let edx := setHigh edx (m (addr + 7))
  let edx := setLow edx (m (addr + 4))
  let edx := shll16 edx
  setWord edx (loadWord m (addr + 2))

def setTssldtDesc (n addr : BitVec 32) (type : BitVec 8) (m : Memory) : Reg × Memory :=
  let eax := addr
  let m := storeWord m n 104
  let m := storeWord m (n + 2) (word eax)
  let eax := rorl16 eax
  let m := storeByte m (n + 4) (low eax)
  let m := storeByte m (n + 5) type
  let m := storeByte m (n + 6) 0
  let m := storeByte m (n + 7) (high eax)
  (rorl16 eax, m)

def setTssDesc (n addr : BitVec 32) (m : Memory) : Reg × Memory := setTssldtDesc n addr 0x89 m

def setLdtDesc (n addr : BitVec 32) (m : Memory) : Reg × Memory := setTssldtDesc n addr 0x82 m

@[ext] structure Segment where
  base : BitVec 32
  limit : BitVec 20
  type : BitVec 8
  flags : BitVec 4

def segmentAt (m : Memory) (addr : BitVec 32) : Segment where
  base := m (addr + 7) ++ m (addr + 4) ++ loadWord m (addr + 2)
  limit := (m (addr + 6)).extractLsb' 0 4 ++ loadWord m addr
  type := m (addr + 5)
  flags := (m (addr + 6)).extractLsb' 4 4

def OnlyBytes (ks : List (BitVec 32)) (addr : BitVec 32) (m m' : Memory) : Prop :=
  ∀ a, (∀ k ∈ ks, a ≠ addr + k) → m' a = m a

variable {m m' : Memory} {addr base base' : BitVec 32}

theorem getBase_eq (edx : Reg) (addr : BitVec 32) (m : Memory) :
    getBase edx addr m = (segmentAt m addr).base :=
  setWord_shll16 edx (m (addr + 7)) (m (addr + 4)) (loadWord m (addr + 2))

theorem setBase_byte (addr base : BitVec 32) (m : Memory) (a : BitVec 32) :
    (setBase addr base m).2 a =
    if a = addr + 7 then base.extractLsb' 24 8
    else if a = addr + 4 then base.extractLsb' 16 8
    else if a = addr + 3 then base.extractLsb' 8 8
    else if a = addr + 2 then base.extractLsb' 0 8
    else m a := by
  have hnext : addr + 2 + 1 = addr + 3 := BitVec.add_assoc addr 2 1
  simp only [setBase, storeByte, storeWord, Function.update_apply, low_rorl16, high_rorl16, hnext,
    extractLsb'_word (show 8 + 8 ≤ 16 by decide), extractLsb'_word (show 0 + 8 ≤ 16 by decide)]

theorem setTssldtDesc_byte (n addr : BitVec 32) (type : BitVec 8) (m : Memory) (a : BitVec 32) :
    (setTssldtDesc n addr type m).2 a =
      if a = n + 7 then addr.extractLsb' 24 8
      else if a = n + 6 then 0
      else if a = n + 5 then type
      else if a = n + 4 then addr.extractLsb' 16 8
      else if a = n + 3 then addr.extractLsb' 8 8
      else if a = n + 2 then addr.extractLsb' 0 8
      else if a = n + 1 then 0
      else if a = n then 104
      else m a := by
  have hnext : n + 2 + 1 = n + 3 := BitVec.add_assoc n 2 1
  simp only [setTssldtDesc, storeByte, storeWord, Function.update_apply, low_rorl16,
    high_rorl16, hnext,
    extractLsb'_word (show 8 + 8 ≤ 16 by decide), extractLsb'_word (show 0 + 8 ≤ 16 by decide)]
  rfl

theorem segmentAt_base (h₂ : m (addr + 2) = base.extractLsb' 0 8)
    (h₃ : m (addr + 3) = base.extractLsb' 8 8) (h₄ : m (addr + 4) = base.extractLsb' 16 8)
    (h₇ : m (addr + 7) = base.extractLsb' 24 8) :
    (segmentAt m addr).base = base := by
  have hnext : addr + 2 + 1 = addr + 3 := BitVec.add_assoc addr 2 1
  simp only [segmentAt, loadWord, hnext, h₇, h₄, h₃, h₂]
  exact append_word base

theorem segmentAt_setBase (addr base : BitVec 32) (m : Memory) :
    segmentAt (setBase addr base m).2 addr = { segmentAt m addr with base := base } := by
  ext1
  · exact segmentAt_base (by simp [setBase_byte]) (by simp [setBase_byte]) (by simp [setBase_byte])
      (by simp [setBase_byte])
  · simp [segmentAt, loadWord, setBase_byte]
  · simp [segmentAt, setBase_byte]
  · simp [segmentAt, setBase_byte]

theorem onlyBytes_setBase (addr base : BitVec 32) (m : Memory) :
    OnlyBytes [2, 3, 4, 7] addr m (setBase addr base m).2 := by
  intro a ha
  rw [setBase_byte, if_neg (ha 7 (by simp)), if_neg (ha 4 (by simp)), if_neg (ha 3 (by simp)),
    if_neg (ha 2 (by simp))]

theorem setBase_setBase (addr base base' : BitVec 32) (m : Memory) :
    (setBase addr base' (setBase addr base m).2).2 = (setBase addr base' m).2 := by
  funext a
  simp only [setBase_byte]
  split
  · rfl
  split
  · rfl
  split
  · rfl
  split
  · rfl
  · rfl

theorem segmentAt_setTssldtDesc (n addr : BitVec 32) (type : BitVec 8) (m : Memory) :
    segmentAt (setTssldtDesc n addr type m).2 n = ⟨addr, 104, type, 0⟩ := by
  ext1
  · exact segmentAt_base (by simp [setTssldtDesc_byte]) (by simp [setTssldtDesc_byte])
      (by simp [setTssldtDesc_byte])
      (by simp [setTssldtDesc_byte])
  · simp [segmentAt, loadWord, setTssldtDesc_byte]
  · simp [segmentAt, setTssldtDesc_byte]
  · simp [segmentAt, setTssldtDesc_byte]

theorem onlyBytes_setTssldtDesc (n addr : BitVec 32) (type : BitVec 8) (m : Memory) :
    OnlyBytes [0, 1, 2, 3, 4, 5, 6, 7] n m (setTssldtDesc n addr type m).2 := by
  intro a ha
  have hzero : a ≠ n := by simpa using ha 0 (by simp)
  rw [setTssldtDesc_byte, if_neg (ha 7 (by simp)), if_neg (ha 6 (by simp)), if_neg (ha 5 (by simp)),
    if_neg (ha 4 (by simp)), if_neg (ha 3 (by simp)), if_neg (ha 2 (by simp)),
      if_neg (ha 1 (by simp)), if_neg hzero]

theorem setTssldtDesc_eax (n addr : BitVec 32) (type : BitVec 8) (m : Memory) :
    (setTssldtDesc n addr type m).1 = addr :=
  rorl16_rorl16 addr

/-- The base that `copy_mem` gives a new task is the one its descriptors hold. -/
theorem getBase_newBase (edx : Reg) (addr : BitVec 32) (m : Memory) (nr : TaskNr) :
    (getBase edx addr (setBase addr (BitVec.ofNat 32 (newBase nr)) m).2).toNat = newBase nr := by
  have hbase : newBase nr < 2 ^ 32 := by
    have hnr := nr.isLt
    simp only [newBase, NR_TASKS] at hnr ⊢
    omega
  rw [getBase_eq, segmentAt_setBase]
  exact (BitVec.toNat_ofNat (newBase nr) 32).trans (Nat.mod_eq_of_lt hbase)

/-- The base that is written, in a descriptor or in the GDT, is the base that is read. -/
theorem segment_bases_survive (m : Memory) (addr base base' edx : BitVec 32) (type : BitVec 8) :
    getBase edx addr (setBase addr base m).2 = base ∧
      OnlyBytes [2, 3, 4, 7] addr m (setBase addr base m).2 ∧
      (setBase addr base' (setBase addr base m).2).2 = (setBase addr base' m).2 ∧
      getBase edx addr (setTssldtDesc addr base type m).2 = base ∧
      segmentAt (setTssldtDesc addr base type m).2 addr = ⟨base, 104, type, 0⟩ := by
  refine ⟨?_, onlyBytes_setBase addr base m, setBase_setBase addr base base' m, ?_,
    segmentAt_setTssldtDesc addr base type m⟩
  · rw [getBase_eq, segmentAt_setBase]
  · rw [getBase_eq, segmentAt_setTssldtDesc]

end Hios.Kernel
