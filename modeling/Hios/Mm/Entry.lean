import Hios.Lib.TableSizes

/-! Words of physical memory: entries of the page directory and of page tables,
and the bytes of a word. A page is named by its number, its address over 4096. -/
namespace Hios.Mm

abbrev Word := BitVec 32
abbrev Byte := BitVec 8

def present (e : Word) : Bool := e.getLsbD 0

def writable (e : Word) : Bool := e.getLsbD 1

/-- `0xfffff000 & e`, as a page number. -/
def pageOf (e : Word) : Nat := (e >>> 12).toNat

def userEntry (page : Nat) : Word := BitVec.ofNat 32 (page * 4096) ||| 7#32

def readOnly (e : Word) : Word := e &&& ~~~2#32

def setWritable (e : Word) : Word := e ||| 2#32

theorem toNat_userEntry {page : Nat} (h : page < 2 ^ 20) :
    (userEntry page).toNat = page * 4096 + 7 := by
  have hlt : page * 4096 < 2 ^ 32 := by omega
  have hor : page * 4096 + 7 = page * 4096 ||| 7 := by
    rw [Nat.mul_comm]
    exact Nat.two_pow_add_eq_or_of_lt (i := 12) (by decide) page
  calc (userEntry page).toNat = page * 4096 % 2 ^ 32 ||| 7 := by simp [userEntry]
    _ = page * 4096 ||| 7 := by rw [Nat.mod_eq_of_lt hlt]
    _ = page * 4096 + 7 := hor.symm

theorem pageOf_eq (e : Word) : pageOf e = e.toNat / 4096 := by
  simp [pageOf, Nat.shiftRight_eq_div_pow]

theorem present_eq (e : Word) : present e = decide (e.toNat % 2 = 1) := by
  simp [present, BitVec.getLsbD, Nat.testBit_zero]

@[simp] theorem pageOf_userEntry {page : Nat} (h : page < 2 ^ 20) :
    pageOf (userEntry page) = page := by
  rw [pageOf_eq, toNat_userEntry h]
  omega

@[simp] theorem present_userEntry (page : Nat) : present (userEntry page) = true := by
  simp [present, userEntry]

@[simp] theorem writable_userEntry (page : Nat) : writable (userEntry page) = true := by
  simp [writable, userEntry]

@[simp] theorem present_zero : present 0#32 = false := rfl

@[simp] theorem present_readOnly (e : Word) : present (readOnly e) = present e := by
  simp [present, readOnly]

@[simp] theorem writable_readOnly (e : Word) : writable (readOnly e) = false := by
  simp [writable, readOnly]

@[simp] theorem pageOf_readOnly (e : Word) : pageOf (readOnly e) = pageOf e := by
  have hmask : (~~~2#32) >>> 12 = BitVec.allOnes 32 >>> 12 := by decide
  have hall : (e >>> 12) &&& (BitVec.allOnes 32 >>> 12) = e >>> 12 := by
    rw [← BitVec.ushiftRight_and_distrib, BitVec.and_allOnes]
  rw [pageOf, readOnly, BitVec.ushiftRight_and_distrib, hmask, hall, pageOf]

@[simp] theorem present_setWritable (e : Word) : present (setWritable e) = present e := by
  simp [present, setWritable]

@[simp] theorem writable_setWritable (e : Word) : writable (setWritable e) = true := by
  simp [writable, setWritable]

@[simp] theorem pageOf_setWritable (e : Word) : pageOf (setWritable e) = pageOf e := by
  have htwo : (2#32) >>> 12 = 0#32 := by decide
  rw [pageOf, setWritable, BitVec.ushiftRight_or_distrib, htwo, BitVec.or_zero, pageOf]

theorem lowMem_lt_iff {e : Word} (h : present e = true) : 0x100000 < e.toNat ↔ 256 ≤ pageOf e := by
  rw [present_eq, decide_eq_true_iff] at h
  rw [pageOf_eq]
  omega

def getByte (w : Word) (b : Nat) : Byte := (w >>> (8 * b)).setWidth 8

def setByte (w : Word) (b : Nat) (v : Byte) : Word :=
  (w &&& ~~~(0xff#32 <<< (8 * b))) ||| (v.setWidth 32 <<< (8 * b))

theorem getLsbD_byteMask (i : Nat) : (0xff#32).getLsbD i = decide (i < 8) := by
  have hmask : (0xff#32) = (BitVec.allOnes 8).setWidth 32 := rfl
  rw [hmask, BitVec.getLsbD_setWidth, BitVec.getLsbD_allOnes]
  by_cases hi : i < 8
  · have hi' : i < 32 := by omega
    simp [hi, hi']
  · simp [hi]

theorem getLsbD_setByte (w : Word) (b : Nat) (v : Byte) {i : Nat} (hi : i < 32) :
    (setByte w b v).getLsbD i =
      if 8 * b ≤ i ∧ i < 8 * b + 8 then v.getLsbD (i - 8 * b) else w.getLsbD i := by
  simp only [setByte, BitVec.getLsbD_or, BitVec.getLsbD_and, BitVec.getLsbD_not,
    BitVec.getLsbD_shiftLeft, BitVec.getLsbD_setWidth, getLsbD_byteMask, hi]
  by_cases hlo : i < 8 * b
  · have hnot : ¬ (8 * b ≤ i ∧ i < 8 * b + 8) := by omega
    simp [hlo, hnot]
  · by_cases hhi : i - 8 * b < 8
    · have hin : 8 * b ≤ i ∧ i < 8 * b + 8 := by omega
      have hlt : i - 8 * b < 32 := by omega
      simp [hlo, hhi, hin, hlt]
    · have hout : ¬ (8 * b ≤ i ∧ i < 8 * b + 8) := by omega
      simp [hlo, hhi, hout, BitVec.getLsbD_of_ge v _ (not_lt.mp hhi)]

theorem getByte_setByte (w : Word) {b b' : Nat} (v : Byte) (hb' : b' < 4) :
    getByte (setByte w b v) b' = if b = b' then v else getByte w b' := by
  refine BitVec.eq_of_getLsbD_eq fun i hi => ?_
  have hlt : 8 * b' + i < 32 := by omega
  have hget : (getByte (setByte w b v) b').getLsbD i = (setByte w b v).getLsbD (8 * b' + i) := by
    simp [getByte, hi]
  rw [hget, getLsbD_setByte w b v hlt]
  by_cases h : b = b'
  · have hin : 8 * b ≤ 8 * b' + i ∧ 8 * b' + i < 8 * b + 8 := by omega
    rw [if_pos hin, if_pos h, h, Nat.add_sub_cancel_left]
  · have hout : ¬ (8 * b ≤ 8 * b' + i ∧ 8 * b' + i < 8 * b + 8) := by omega
    rw [if_neg hout, if_neg h]
    simp [getByte, hi]

end Hios.Mm
