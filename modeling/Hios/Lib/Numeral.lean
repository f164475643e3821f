import Mathlib.Data.Nat.Digits.Lemmas

/-! Positional numerals, and the loop that divides a signed number by the base. C rounds a
quotient towards zero, so a remainder has the sign of the number. -/
namespace Hios.Numeral

def numeral (b n : ℕ) : List ℕ := if n = 0 then [0] else (Nat.digits b n).reverse

def value (b : ℕ) (ds : List ℕ) : ℕ := ds.foldl (fun acc d => acc * b + d) 0

/-- `while (num) { num % base; num = num / base; }`: the remainders. -/
def remainders (b : ℤ) : ℕ → ℤ → Option (List ℤ)
  | 0, num => if num = 0 then some [] else none
  | fuel + 1, num => if num = 0 then some []
    else (remainders b fuel (num.tdiv b)).map (num.tmod b :: ·)

variable {b n d : ℕ}

theorem value_concat (b : ℕ) (ds : List ℕ) (d : ℕ) : value b (ds ++ [d]) = value b ds * b + d := by
  simp [value]

theorem value_reverse (b : ℕ) (ds : List ℕ) : value b ds.reverse = Nat.ofDigits b ds := by
  induction ds with
  | nil => rfl
  | cons d ds ih =>
    rw [List.reverse_cons, value_concat, ih, Nat.ofDigits_cons, Nat.mul_comm, Nat.add_comm]

theorem value_numeral (b n : ℕ) : value b (numeral b n) = n := by
  unfold numeral
  split
  · rename_i hzero
    rw [hzero]
    exact Nat.zero_mul b
  · rw [value_reverse, Nat.ofDigits_digits]

theorem numeral_ne_nil (b n : ℕ) : numeral b n ≠ [] := by
  unfold numeral
  split
  · exact List.cons_ne_nil 0 []
  · rename_i hne
    rw [Ne, List.reverse_eq_nil_iff]
    exact Nat.digits_ne_nil_iff_ne_zero.mpr hne

theorem lt_of_mem_numeral (hb : 1 < b) (hd : d ∈ numeral b n) : d < b := by
  unfold numeral at hd
  split at hd
  · rw [List.mem_singleton.mp hd]
    omega
  · exact Nat.digits_lt_base hb (List.mem_reverse.mp hd)

theorem head?_numeral (hn : n ≠ 0) : (numeral b n).head? ≠ some 0 := by
  rw [numeral, if_neg hn, List.head?_reverse,
    List.getLast?_eq_some_getLast (Nat.digits_ne_nil_iff_ne_zero.mpr hn)]
  exact fun h => Nat.getLast_digit_ne_zero b hn (Option.some.inj h)

theorem remainders_sum {c : ℤ} {fuel : ℕ} {num : ℤ} {l : List ℤ}
    (h : remainders c fuel num = some l) :
    l.foldr (fun d acc => d + c * acc) 0 = num := by
  induction fuel generalizing num l with
  | zero =>
    rw [remainders] at h
    split at h
    · rename_i hzero
      rw [← Option.some.inj h, hzero]
      rfl
    · cases h
  | succ fuel ih =>
    rw [remainders] at h
    split at h
    · rename_i hzero
      rw [← Option.some.inj h, hzero]
      rfl
    · obtain ⟨l', hl', rfl⟩ := Option.map_eq_some_iff.mp h
      rw [List.foldr_cons, ih hl']
      exact Int.tmod_add_mul_tdiv num c

theorem exists_neg_remainder {c : ℤ} (hc : 0 ≤ c) {fuel : ℕ} {num : ℤ} {l : List ℤ}
    (h : remainders c fuel num = some l) (hneg : num < 0) : ∃ d ∈ l, d < 0 := by
  by_contra hall
  have hsum : ∀ m : List ℤ, (∀ d ∈ m, 0 ≤ d) → 0 ≤ m.foldr (fun d acc => d + c * acc) 0 := by
    intro m hm
    induction m with
    | nil => exact le_rfl
    | cons d m ih =>
      have hd := hm d List.mem_cons_self
      have hrest := mul_nonneg hc (ih fun e he => hm e (List.mem_cons_of_mem d he))
      exact add_nonneg hd hrest
  have hpos := hsum l fun d hd => not_lt.mp fun hlt => hall ⟨d, hd, hlt⟩
  rw [remainders_sum h] at hpos
  omega

theorem div_lt_two_pow {fuel : ℕ} (hb : 2 ≤ b) (hn : n < 2 ^ (fuel + 1)) : n / b < 2 ^ fuel := by
  rw [Nat.div_lt_iff_lt_mul (by omega)]
  calc
    n < 2 ^ fuel * 2 := by rwa [Nat.pow_succ] at hn
    _ ≤ 2 ^ fuel * b := Nat.mul_le_mul_left _ hb

theorem remainders_natCast (hb : 1 < b) {fuel : ℕ} (hfuel : n < 2 ^ fuel) :
    remainders b fuel n = some ((Nat.digits b n).map fun d : ℕ => (d : ℤ)) := by
  induction fuel generalizing n with
  | zero =>
    obtain rfl : n = 0 := by omega
    simp [remainders]
  | succ fuel ih =>
    rw [remainders]
    by_cases hzero : n = 0
    · simp [hzero]
    · have hhalf : n / b < 2 ^ fuel := div_lt_two_pow hb hfuel
      have hne : ¬ (n : ℤ) = 0 := by omega
      rw [if_neg hne, ← Int.ofNat_tdiv, ← Int.ofNat_tmod, ih hhalf,
        Nat.digits_def' hb (Nat.pos_of_ne_zero hzero)]
      rfl

end Hios.Numeral
