import Mathlib

/-! Byte memory with 32-bit addresses that wrap, read and written as
little-endian longs. -/
namespace Hios.LongMemory

abbrev Memory := BitVec 32 → BitVec 8

def getLong (m : Memory) (a : BitVec 32) : BitVec 32 := m (a + 3) ++ m (a + 2) ++ m (a + 1) ++ m a

def putLong (m : Memory) (a v : BitVec 32) : Memory := fun x =>
  if (x - a).toNat < 4 then v.extractLsb' (8 * (x - a).toNat) 8 else m x

def putLongs (m : Memory) (a : BitVec 32) : List (BitVec 32) → Memory
  | [] => m
  | v :: vs => putLongs (putLong m a v) (a + 4) vs

theorem append_bytes (v : BitVec 32) :
    v.extractLsb' 24 8 ++ v.extractLsb' 16 8 ++ v.extractLsb' 8 8 ++ v.extractLsb' 0 8 = v := by
  apply BitVec.eq_of_getLsbD_eq
  intro i hi
  simp only [BitVec.getLsbD_append, BitVec.getLsbD_extractLsb']
  by_cases h₁ : i < 8
  · simp [h₁]
  · by_cases h₂ : i - 8 < 8
    · have h : 8 + (i - 8) = i := by omega
      simp [h₁, h₂, h]
    · by_cases h₃ : i - 8 - 8 < 8
      · have h : 16 + (i - 8 - 8) = i := by omega
        simp [h₁, h₂, h₃, h]
      · have h : 24 + (i - 8 - 8 - 8) = i := by omega
        have h₄ : i - 8 - 8 - 8 < 8 := by omega
        simp [h₁, h₂, h₃, h₄, h]

theorem getLong_putLong (m : Memory) (a v : BitVec 32) : getLong (putLong m a v) a = v := by
  have h : ∀ k : BitVec 32, a + k - a = k := fun k => by
    rw [BitVec.add_comm, BitVec.add_sub_cancel]
  have h₀ : a - a = 0 := BitVec.sub_self a
  simp only [getLong, putLong, h, h₀]
  exact append_bytes v

def Apart (a b : BitVec 32) : Prop := 4 ≤ (b - a).toNat ∧ 4 ≤ (a - b).toNat

theorem putLong_of_apart {m : Memory} {a b v : BitVec 32} (h : Apart a b) {k : BitVec 32}
    (hk : k.toNat < 4) : putLong m a v (b + k) = m (b + k) := by
  have hfar : ¬ (b + k - a).toNat < 4 := by
    obtain ⟨h₁, h₂⟩ := h
    bv_omega
  simp only [putLong, if_neg hfar]

theorem getLong_putLong_of_apart {m : Memory} {a b v : BitVec 32} (h : Apart a b) :
    getLong (putLong m a v) b = getLong m b := by
  have h₀ : putLong m a v b = m b := by
    have hzero := putLong_of_apart (m := m) (v := v) h (k := 0#32) (by decide)
    rwa [BitVec.add_zero] at hzero
  simp only [getLong]
  rw [putLong_of_apart h (by decide), putLong_of_apart h (by decide),
    putLong_of_apart h (by decide), h₀]

theorem getLong_putLongs_of_apart {m : Memory} {a b : BitVec 32} {vs : List (BitVec 32)}
    (h : ∀ i < vs.length, Apart (a + BitVec.ofNat 32 (4 * i)) b) :
    getLong (putLongs m a vs) b = getLong m b := by
  induction vs generalizing m a with
  | nil => rfl
  | cons v vs ih =>
    have hfirst : Apart a b := by simpa using h 0 (by simp)
    have hrest : ∀ i < vs.length, Apart (a + 4 + BitVec.ofNat 32 (4 * i)) b := by
      intro i hi
      have hnext := h (i + 1) (by simpa using hi)
      have haddr : a + 4 + BitVec.ofNat 32 (4 * i) = a + BitVec.ofNat 32 (4 * (i + 1)) := by
        bv_omega
      rwa [haddr]
    rw [putLongs, ih hrest, getLong_putLong_of_apart hfirst]

theorem getLong_putLongs {m : Memory} {a : BitVec 32} {vs : List (BitVec 32)}
    (hlen : 4 * vs.length ≤ 2 ^ 32) (i : Nat) (hi : i < vs.length) :
    getLong (putLongs m a vs) (a + BitVec.ofNat 32 (4 * i)) = vs[i] := by
  induction vs generalizing m a i with
  | nil => simp at hi
  | cons v vs ih =>
    simp only [List.length_cons] at hlen hi
    cases i with
    | zero =>
      have hapart : ∀ j < vs.length, Apart (a + 4 + BitVec.ofNat 32 (4 * j)) a := by
        intro j hj
        constructor
        · bv_omega
        · bv_omega
      rw [Nat.mul_zero, BitVec.add_zero, putLongs,
        getLong_putLongs_of_apart hapart, getLong_putLong]
      rfl
    | succ i =>
      have haddr : a + BitVec.ofNat 32 (4 * (i + 1)) = a + 4 + BitVec.ofNat 32 (4 * i) := by
        bv_omega
      rw [haddr, putLongs]
      exact ih (by omega) i (by omega)

end Hios.LongMemory
