import Hios.Lib.LongMemory

/-! A 32-bit register with its parts: the low word, and the low and the high byte of that.
A part is stored in memory or loaded from it without touching the rest of the register. -/
namespace Hios.Registers
open Hios.LongMemory

abbrev Reg := BitVec 32

def word (r : Reg) : BitVec 16 := r.extractLsb' 0 16

def low (r : Reg) : BitVec 8 := r.extractLsb' 0 8

def high (r : Reg) : BitVec 8 := r.extractLsb' 8 8

def setWord (r : Reg) (v : BitVec 16) : Reg := r.extractLsb' 16 16 ++ v

def setLow (r : Reg) (v : BitVec 8) : Reg := r.extractLsb' 8 24 ++ v

def setHigh (r : Reg) (v : BitVec 8) : Reg := r.extractLsb' 16 16 ++ v ++ r.extractLsb' 0 8

def rorl16 (r : Reg) : Reg := r.rotateRight 16

def shll16 (r : Reg) : Reg := r <<< 16

def storeByte (m : Memory) (a : BitVec 32) (v : BitVec 8) : Memory := Function.update m a v

def storeWord (m : Memory) (a : BitVec 32) (v : BitVec 16) : Memory :=
  storeByte (storeByte m a (v.extractLsb' 0 8)) (a + 1) (v.extractLsb' 8 8)

def loadWord (m : Memory) (a : BitVec 32) : BitVec 16 := m (a + 1) ++ m a

variable {r : Reg} {m : Memory} {a b : BitVec 32} {v : BitVec 8} {w : BitVec 16}

theorem low_rorl16 (r : Reg) : low (rorl16 r) = r.extractLsb' 16 8 := by
  apply BitVec.eq_of_getLsbD_eq
  intro i hi
  have hlow : i < 16 := by omega
  simp [low, rorl16, hi, BitVec.getLsbD_rotateRight, hlow]

theorem high_rorl16 (r : Reg) : high (rorl16 r) = r.extractLsb' 24 8 := by
  apply BitVec.eq_of_getLsbD_eq
  intro i hi
  have hlow : 8 + i < 16 := by omega
  have hsum : 16 + (8 + i) = 24 + i := by omega
  simp [high, rorl16, hi, BitVec.getLsbD_rotateRight, hlow, hsum]

theorem rorl16_rorl16 (r : Reg) : rorl16 (rorl16 r) = r := by
  apply BitVec.eq_of_getLsbD_eq
  intro i hi
  simp only [rorl16, BitVec.getLsbD_rotateRight]
  by_cases hlow : i < 16
  · have hin : 16 + i < 32 := by omega
    simp [hlow, hin]
  · have hin : i - 16 < 16 := by omega
    have hsum : 16 + (i - 16) = i := by omega
    simp [hlow, hin, hi, hsum]

theorem word_setLow_setHigh (r : Reg) (h l : BitVec 8) :
    word (setLow (setHigh r h) l) = h ++ l := by
  apply BitVec.eq_of_getLsbD_eq
  intro i hi
  simp only [word, setLow, setHigh, BitVec.getLsbD_extractLsb', BitVec.getLsbD_append, Nat.zero_add]
  by_cases hlow : i < 8
  · simp [hi, hlow]
  · have hbyte : i - 8 < 8 := by omega
    have hin : i - 8 < 24 := by omega
    have hup : ¬ 8 + (i - 8) < 8 := by omega
    have hsame : 8 + (i - 8) - 8 = i - 8 := by omega
    simp only [hi, hlow, hin, hup, hsame, hbyte, decide_true, Bool.true_and, if_true, if_false,
      decide_false]

theorem setWord_shll16_eq (r : Reg) (w : BitVec 16) : setWord (shll16 r) w = word r ++ w := by
  apply BitVec.eq_of_getLsbD_eq
  intro i hi
  simp only [setWord, shll16, word, BitVec.getLsbD_append, BitVec.getLsbD_extractLsb',
    BitVec.getLsbD_shiftLeft]
  by_cases hlow : i < 16
  · simp [hlow]
  · have hword : i - 16 < 16 := by omega
    have hin : 16 + (i - 16) < 32 := by omega
    simp [hlow, hword, hin]

/-- Both bytes and the word below them make up the register, whatever was in it. -/
theorem setWord_shll16 (r : Reg) (h l : BitVec 8) (w : BitVec 16) :
    setWord (shll16 (setLow (setHigh r h) l)) w = h ++ l ++ w := by
  rw [setWord_shll16_eq, word_setLow_setHigh]

theorem extractLsb'_word {start len : Nat} (h : start + len ≤ 16) (r : Reg) :
    (word r).extractLsb' start len = r.extractLsb' start len := by
  apply BitVec.eq_of_getLsbD_eq
  intro i hi
  have hin : start + i < 16 := by omega
  simp [word, hi, hin]

theorem append_word (r : Reg) :
    r.extractLsb' 24 8 ++ r.extractLsb' 16 8 ++ (r.extractLsb' 8 8 ++ r.extractLsb' 0 8) = r := by
  have hbytes := append_bytes r
  rwa [BitVec.append_assoc] at hbytes

end Hios.Registers
