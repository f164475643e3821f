import Hios.Boot.Head
import Hios.Boot.Setup
import Hios.Boot.SystemLoad
import Hios.Kernel.CopyOnWrite

/-! From the image in memory to the kernel's own page tables. -/
namespace Hios.Boot
open Hios.LongMemory Hios.Fuel Hios.Mm Hios.Kernel
variable {m : Memory}

def OnlyIn (base : BitVec 32) (n : Nat) (m m' : Memory) : Prop :=
  ∀ x, n ≤ (x - base).toNat → m' x = m x

theorem OnlyIn.refl (base : BitVec 32) (n : Nat) (m : Memory) : OnlyIn base n m m := fun _ _ => rfl

theorem OnlyIn.trans {base : BitVec 32} {n : Nat} {m₁ m₂ m₃ : Memory} (h₁ : OnlyIn base n m₁ m₂)
    (h₂ : OnlyIn base n m₂ m₃) :
    OnlyIn base n m₁ m₃ := fun x hx => (h₂ x hx).trans (h₁ x hx)

section Parameters

theorem linear_initseg (off : BitVec 16) : linear INITSEG off = 0x90000 + off.setWidth 32 := by
  have hseg : INITSEG.setWidth 32 * 16 = 0x90000 := by decide
  rw [linear, hseg]

theorem onlyIn_putWord (off : BitVec 16) (hoff : off.toNat + 2 ≤ 0xa0) (w : BitVec 16)
    (m : Memory) :
    OnlyIn 0x90000 0xa0 m (putWord (linear INITSEG off) w m) := by
  intro x hx
  have hlinear := linear_initseg off
  simp only [putWord]
  rw [if_neg (by bv_omega), if_neg (by bv_omega)]

theorem onlyIn_repMovsb (ds : BitVec 16) (cx : Nat) {si di : BitVec 16}
    (hdi : di.toNat + cx ≤ 0xa0) (m : Memory) :
    OnlyIn 0x90000 0xa0 m (repMovsb ds INITSEG cx si di m) := by
  induction cx generalizing si di m with
  | zero => exact OnlyIn.refl _ _ m
  | succ cx ih =>
    refine OnlyIn.trans (fun x hx => ?_) (ih (by bv_omega) _)
    have hlinear := linear_initseg di
    rw [if_neg (by bv_omega)]

theorem onlyIn_repStosb (al : BitVec 8) (cx : Nat) {di : BitVec 16} (hdi : di.toNat + cx ≤ 0xa0)
    (m : Memory) :
    OnlyIn 0x90000 0xa0 m (repStosb INITSEG al cx di m) := by
  induction cx generalizing di m with
  | zero => exact OnlyIn.refl _ _ m
  | succ cx ih =>
    refine OnlyIn.trans (fun x hx => ?_) (ih (by bv_omega) _)
    have hlinear := linear_initseg di
    rw [if_neg (by bv_omega)]

/-- The parameters stay in the sector that the boot sector no longer needs. -/
theorem storeParameters_only (b : Bios) (m : Memory) :
    OnlyIn 0x90000 0xa0 m (storeParameters b m) := by
  have htables (m : Memory) :
    OnlyIn 0x90000 0xa0 m (copyTable (4 * 0x46) 0x0090 (copyTable (4 * 0x41) 0x0080 m)) :=
    (onlyIn_repMovsb _ 16 (by decide) m).trans (onlyIn_repMovsb _ 16 (by decide) _)
  have hwords := (onlyIn_putWord 0 (by decide) b.cursor m).trans
    ((onlyIn_putWord 2 (by decide) b.extMem _).trans
    ((onlyIn_putWord 4 (by decide) b.videoPage _).trans
    ((onlyIn_putWord 6 (by decide) b.videoMode _).trans
    ((onlyIn_putWord 8 (by decide) b.egaAx _).trans
    ((onlyIn_putWord 10 (by decide) b.egaBx _).trans (onlyIn_putWord 12 (by decide) b.egaCx _))))))
  simp only [storeParameters]
  split
  · exact hwords.trans (htables _)
  · exact hwords.trans ((htables _).trans (onlyIn_repStosb 0 16 (by decide) _))

end Parameters

theorem linear_segment {k : Nat} (hk : k ≤ 9) :
    linear (BitVec.ofNat 16 (0x1000 * k)) 0 = BitVec.ofNat 32 (0x10000 * k) := by
  apply BitVec.eq_of_toNat_eq
  have hzero : BitVec.toNat (0 : BitVec 16) = 0 := rfl
  rw [toNat_linear, BitVec.toNat_ofNat, BitVec.toNat_ofNat, hzero]
  omega

theorem doMove_ends (m : Memory) {k : Nat} (hk : k ≤ 8) {u : Memory}
    (hu : u = fill 0 (0x10000 * k) (fun x => m (x + 0x10000)) m) :
    Ends (fun fuel => doMove fuel (BitVec.ofNat 16 (0x1000 * k)) u)
      (fill 0 0x80000 (fun x => m (x + 0x10000)) m) := by
  have hnext (k : Nat) : BitVec.ofNat 16 (0x1000 * k) + 0x1000 = BitVec.ofNat 16
      (0x1000 * (k + 1)) := by
    apply BitVec.eq_of_toNat_eq
    have hone : BitVec.toNat (0x1000 : BitVec 16) = 0x1000 := rfl
    rw [BitVec.toNat_add, BitVec.toNat_ofNat, BitVec.toNat_ofNat, hone]
    omega
  have hstop (k : Nat) (hk : k ≤ 8) : BitVec.ofNat 16 (0x1000 * (k + 1)) = 0x9000 ↔ k = 8 := by
    have hnine : BitVec.toNat (0x9000 : BitVec 16) = 0x9000 := rfl
    rw [← BitVec.toNat_inj, BitVec.toNat_ofNat, hnine]
    omega
  induction hn : 8 - k generalizing k u with
  | zero =>
    obtain rfl : k = 8 := by omega
    refine Ends.turn (Ends.of_eq fun _ => rfl) fun fuel => ?_
    simp only [doMove, hnext, if_pos ((hstop 8 le_rfl).mpr rfl), hu]
  | succ n ih =>
    have hsrc := linear_segment (k := k + 1) (by omega)
    have hdest := linear_segment (k := k) (by omega)
    have hmoved : repMovsw (BitVec.ofNat 16 (0x1000 * (k + 1))) (BitVec.ofNat 16 (0x1000 * k))
      0x8000 0 0 u =
        fill 0 (0x10000 * (k + 1)) (fun x => m (x + 0x10000)) m := by
      have happend := fill_append 0 (0x10000 * k) 0x10000 (by omega) (fun x => m (x + 0x10000)) m
      have hbase : 0 + BitVec.ofNat 32 (0x10000 * k) = BitVec.ofNat 32 (0x10000 * k) := by bv_omega
      have hsize : 2 * 0x8000 = 0x10000 := rfl
      rw [← hu, hbase, ← Nat.mul_succ] at happend
      rw [repMovsw_eq 0x8000 (by decide) (by decide) (by rw [hsrc, hdest]; bv_omega)
        (by rw [hsrc, hdest]; bv_omega), hsrc,
        hdest, hsize, ← happend]
      apply fill_congr
      intro x hx
      have hshift : x - BitVec.ofNat 32 (0x10000 * k) + BitVec.ofNat 32 (0x10000 * (k + 1)) = x +
        0x10000 := by bv_omega
      have hfar : ¬ (x + 0x10000 - 0).toNat < 0x10000 * k := by bv_omega
      rw [hshift, hu]
      simp only [fill, if_neg hfar]
    refine (ih (k := k + 1) (by omega) hmoved (by omega)).turn fun fuel => ?_
    simp only [doMove, hnext]
    rw [if_neg (mt (hstop k hk).mp (by omega))]

theorem setup_ends (b : Bios) (m : Memory) : Ends (fun fuel => setup b fuel m)
    (fill 0 0x80000 (fun x => storeParameters b m (x + 0x10000)) (storeParameters b m)) := by
  apply doMove_ends (storeParameters b m) (k := 0) (Nat.zero_le 8)
  funext x
  simp [fill]

section Longs

theorem getLong_congr {m m' : Memory} {a : BitVec 32}
    (h : ∀ k : BitVec 32, k.toNat < 4 → m' (a + k) = m (a + k)) :
    getLong m' a = getLong m a := by
  have h0 : m' a = m a := by simpa using h 0 (by decide)
  simp only [getLong, h 3 (by decide), h 2 (by decide), h 1 (by decide), h0]

theorem OnlyIn.getLong {base a : BitVec 32} {n : Nat} {m m' : Memory} (h : OnlyIn base n m m')
    (ha : n ≤ (a - base).toNat) (hwrap : (a - base).toNat + 4 ≤ 2 ^ 32) :
    LongMemory.getLong m' a = LongMemory.getLong m a := by
  apply getLong_congr
  intro k hk
  apply h
  bv_omega

theorem onlyIn_putLong {a : BitVec 32} (base : BitVec 32) {n : Nat}
    (ha : (a - base).toNat + 4 ≤ n) (m : Memory) (v : BitVec 32) :
    OnlyIn base n m (putLong m a v) := by
  intro x hx
  simp only [putLong]
  rw [if_neg (by bv_omega)]

theorem rpSidt_spec (eax edx : BitVec 32) (cx : Nat) (edi : BitVec 32)
    (hfit : edi.toNat + 8 * cx < 2 ^ 32) (m : Memory) :
    OnlyIn edi (8 * cx) m (rpSidt eax edx cx edi m) ∧ ∀ i < cx,
      getLong (rpSidt eax edx cx edi m) (edi + BitVec.ofNat 32 (8 * i)) = eax ∧
      getLong (rpSidt eax edx cx edi m) (edi + BitVec.ofNat 32 (8 * i + 4)) = edx := by
  induction cx generalizing edi m with
  | zero => exact ⟨OnlyIn.refl _ _ m, fun i hi => absurd hi (Nat.not_lt_zero i)⟩
  | succ cx ih =>
    obtain ⟨honly, hgates⟩ := ih (edi + 8) (by bv_omega) (putLong (putLong m edi eax) (edi + 4) edx)
    have hfirst := honly.getLong (a := edi) (by bv_omega) (by bv_omega)
    have hsecond := honly.getLong (a := edi + 4) (by bv_omega) (by bv_omega)
    have hapart : Apart (edi + 4) edi := ⟨by bv_omega, by bv_omega⟩
    rw [rpSidt]
    refine ⟨?_, fun i hi => ?_⟩
    · intro x hx
      rw [honly x (by bv_omega), onlyIn_putLong edi (n := 8) (by bv_omega) _ _ x (by bv_omega),
        onlyIn_putLong edi (n := 8) (by bv_omega) _ _ x (by bv_omega)]
    · cases i with
      | zero =>
        refine ⟨?_, ?_⟩
        · rw [BitVec.add_zero, hfirst, getLong_putLong_of_apart hapart, getLong_putLong]
        · rw [show edi + BitVec.ofNat 32 (8 * 0 + 4) = edi + 4 from rfl, hsecond, getLong_putLong]
      | succ i =>
        have hshift (j : Nat) : edi + BitVec.ofNat 32 (8 * (i + 1) + j) = edi + 8 + BitVec.ofNat 32
          (8 * i + j) := by bv_omega
        have hgate := hgates i (by omega)
        rw [hshift 4]
        exact ⟨by simpa using (hshift 0 ▸ hgate.1), hgate.2⟩

theorem repStosl_eq (ecx : Nat) {edi : BitVec 32} (hfit : edi.toNat + 4 * ecx < 2 ^ 32)
    (m : Memory) :
    repStosl 0 ecx edi m = fill edi (4 * ecx) (fun _ => 0) m := by
  induction ecx generalizing edi m with
  | zero =>
    funext x
    simp [repStosl, fill]
  | succ ecx ih =>
    have hone : putLong m edi 0 = fill edi 4 (fun _ => 0) m := by
      funext x
      simp [putLong, fill]
    have hmul : 4 * (ecx + 1) = 4 + 4 * ecx := by ring
    have hnext : edi + 4 = edi + BitVec.ofNat 32 4 := rfl
    rw [repStosl, ih (by bv_omega), hone, hmul, hnext, fill_append _ _ _ (by omega)]

def tableEntry (i : Nat) : BitVec 32 := BitVec.ofNat 32 (4096 * i + 7)

def entryAddr (i : Nat) : BitVec 32 := BitVec.ofNat 32 (0x1000 + 4 * i)

theorem fillPages_ends {i : Nat} (hi : i < 4096) (m : Memory) :
    ∃ m', Ends (fun fuel => fillPages fuel (entryAddr i) (tableEntry i) m) m' ∧
    OnlyIn 0x1000 (4 * (i + 1)) m m' ∧ ∀ k ≤ i, getLong m' (entryAddr k) = tableEntry k := by
  induction i generalizing m with
  | zero =>
    refine ⟨putLong m (entryAddr 0) (tableEntry 0),
      Ends.turn (Ends.of_eq fun _ => rfl) fun fuel => ?_, ?_, ?_⟩
    · rfl
    · exact onlyIn_putLong _ (by decide) m _
    · intro k hk
      obtain rfl : k = 0 := by omega
      exact getLong_putLong _ _ _
  | succ i ih =>
    obtain ⟨m', hends, honly, hentries⟩ :=
      ih (by omega) (putLong m (entryAddr (i + 1)) (tableEntry (i + 1)))
    have haddr : (entryAddr (i + 1)).toNat = 0x1000 + 4 * (i + 1) := by
      rw [entryAddr, BitVec.toNat_ofNat]
      omega
    have hentry : (tableEntry (i + 1)).toNat = 4096 * (i + 1) + 7 := by
      rw [tableEntry, BitVec.toNat_ofNat]
      omega
    have hmore : BitVec.sle 0x1000 (tableEntry (i + 1)) = true := by
      have hint : (tableEntry (i + 1)).toInt = 4096 * (i + 1) + 7 := by
        rw [BitVec.toInt_eq_toNat_of_lt (by omega), hentry]
        push_cast
        ring
      have hpage : (0x1000 : BitVec 32).toInt = 0x1000 := rfl
      rw [BitVec.sle, hint, hpage, decide_eq_true_eq]
      omega
    have hdown : entryAddr (i + 1) - 4 = entryAddr i := by
      simp only [entryAddr]
      bv_omega
    have hless : tableEntry (i + 1) - 0x1000 = tableEntry i := by
      simp only [tableEntry]
      bv_omega
    refine ⟨m', hends.turn fun fuel => ?_, ?_, ?_⟩
    · simp only [fillPages, hmore, if_true, hdown, hless]
    · intro x hx
      rw [honly x (by omega), onlyIn_putLong 0x1000 (n := 4 * (i + 1 + 1)) (by bv_omega) m _ x hx]
    · intro k hk
      rcases Nat.lt_or_eq_of_le hk with hlt | rfl
      · exact hentries k (by omega)
      · rw [honly.getLong (by bv_omega) (by bv_omega), getLong_putLong]

def directory (m : Memory) : Memory :=
  putLong (putLong (putLong (putLong (repStosl 0 (1024 * 5) 0 m) pgDir (pg0 + 7)) (pgDir + 4)
    (pg1 + 7)) (pgDir + 8) (pg2 + 7))
    (pgDir + 12) (pg3 + 7)

theorem directory_only (m : Memory) : OnlyIn 0 0x5000 m (directory m) := by
  have hzero : OnlyIn 0 0x5000 m (repStosl 0 (1024 * 5) 0 m) := by
    intro x hx
    rw [repStosl_eq _ (by decide)]
    simp only [fill]
    rw [if_neg (by omega)]
  exact (((hzero.trans (onlyIn_putLong _ (by decide) _ _)).trans
    (onlyIn_putLong _ (by decide) _ _)).trans
    (onlyIn_putLong _ (by decide) _ _)).trans (onlyIn_putLong _ (by decide) _ _)

theorem getLong_directory (m : Memory) {i : Nat} (hi : i < 1024) :
    getLong (directory m) (BitVec.ofNat 32 (4 * i)) = if i < 4 then BitVec.ofNat 32
      (4096 * (i + 1) + 7) else 0 := by
  have hapart {a b : Nat} (ha : a < 1024) (hb : b < 1024) (hne : a ≠ b) :
    Apart (BitVec.ofNat 32 (4 * a)) (BitVec.ofNat 32 (4 * b)) :=
    ⟨by bv_omega, by bv_omega⟩
  have h0 : pgDir = BitVec.ofNat 32 (4 * 0) := rfl
  have h1 : pgDir + 4 = BitVec.ofNat 32 (4 * 1) := rfl
  have h2 : pgDir + 8 = BitVec.ofNat 32 (4 * 2) := rfl
  have h3 : pgDir + 12 = BitVec.ofNat 32 (4 * 3) := rfl
  rw [directory, h1, h2, h3, h0]
  by_cases hin : i < 4
  · rw [if_pos hin]
    obtain rfl | rfl | rfl | rfl : i = 0 ∨ i = 1 ∨ i = 2 ∨ i = 3 := by omega
    · rw [getLong_putLong_of_apart (hapart (by decide) hi (by decide)),
        getLong_putLong_of_apart (hapart (by decide) hi (by decide)),
        getLong_putLong_of_apart (hapart (by decide) hi (by decide)), getLong_putLong]
      rfl
    · rw [getLong_putLong_of_apart (hapart (by decide) hi (by decide)),
        getLong_putLong_of_apart (hapart (by decide) hi (by decide)),
        getLong_putLong]
      rfl
    · rw [getLong_putLong_of_apart (hapart (by decide) hi (by decide)), getLong_putLong]
      rfl
    · rw [getLong_putLong]
      rfl
  · rw [if_neg hin, getLong_putLong_of_apart (hapart (by decide) hi (by omega)),
      getLong_putLong_of_apart (hapart (by decide) hi (by omega)),
      getLong_putLong_of_apart (hapart (by decide) hi (by omega)),
        getLong_putLong_of_apart (hapart (by decide) hi (by omega)),
      repStosl_eq _ (by decide)]
    have hbyte (k : BitVec 32) (hk : k.toNat < 4) : fill 0 (4 * (1024 * 5)) (fun _ => 0) m
        (BitVec.ofNat 32 (4 * i) + k) = 0 := by
      simp only [fill]
      rw [if_pos (by bv_omega)]
    have hbyte0 := hbyte 0 (by decide)
    rw [show BitVec.ofNat 32 (4 * i) + 0 = BitVec.ofNat 32 (4 * i) by simp] at hbyte0
    rw [getLong, hbyte 3 (by decide), hbyte 2 (by decide), hbyte 1 (by decide), hbyte0]
    rfl

/-- `setup_paging` writes the directory and the four tables, and nothing behind them. -/
theorem setupPaging_ends (m : Memory) :
    ∃ m', Ends (fun fuel => setupPaging fuel m) m' ∧ OnlyIn 0 0x5000 m m' ∧
    (∀ i < 1024, getLong m' (BitVec.ofNat 32 (4 * i)) = if i < 4 then BitVec.ofNat 32
      (4096 * (i + 1) + 7) else 0) ∧
    ∀ k < 4096, getLong m' (entryAddr k) = tableEntry k := by
  obtain ⟨m', hends, honly, hentries⟩ := fillPages_ends (i := 4095) (by decide) (directory m)
  refine ⟨m', hends, ?_, ?_, ?_⟩
  · intro x hx
    rw [honly x (by bv_omega), directory_only m x hx]
  · intro i hi
    rw [honly.getLong (by bv_omega) (by bv_omega), getLong_directory m hi]
  · intro k hk
    exact hentries k (by omega)

end Longs

theorem checkA20_ends (m : Memory) :
    ∃ m', Ends (fun fuel => checkA20 fuel 0 m) m' ∧ OnlyIn 0 4 m m' := by
  have hfar (m : Memory) (v : BitVec 32) : getLong (putLong m 0 v) 0x100000 = getLong m 0x100000 :=
    getLong_putLong_of_apart ⟨by decide, by decide⟩
  have honly (m : Memory) (v : BitVec 32) : OnlyIn 0 4 m (putLong m 0 v) :=
    onlyIn_putLong _ (by decide) m v
  have h1 : (0 : BitVec 32) + 1 = 1 := rfl
  by_cases hone : getLong m 0x100000 = 1
  · refine ⟨putLong (putLong m 0 1) 0 2, ?_, (honly m 1).trans (honly _ 2)⟩
    have hne : ¬ getLong (putLong (putLong m 0 1) 0 2) 0x100000 = 2 := by
      rw [hfar, hfar, hone]
      decide
    have h2 : (1 : BitVec 32) + 1 = 2 := rfl
    have hlast : Ends (fun fuel => checkA20 fuel 1 (putLong m 0 1))
        (putLong (putLong m 0 1) 0 2) := by
      refine Ends.turn (Ends.of_eq fun _ => rfl) fun fuel => ?_
      simp only [checkA20, h2, if_neg hne]
    refine hlast.turn fun fuel => ?_
    simp only [checkA20, h1, hfar, hone, if_true]
  · refine ⟨putLong m 0 1, Ends.turn (Ends.of_eq fun _ => rfl) fun fuel => ?_, honly m 1⟩
    simp only [checkA20, h1, hfar, if_neg hone]

structure KernelPages (m : Memory) : Prop where
  dir : ∀ i < 1024, getLong m (BitVec.ofNat 32 (4 * i)) = if i < 4 then BitVec.ofNat 32
    (4096 * (i + 1) + 7) else 0
  table : ∀ k < 4096, getLong m (entryAddr k) = tableEntry k

theorem toNat_shift22 (a : BitVec 32) : (a >>> 22).toNat = a.toNat / 0x400000 := by
  rw [BitVec.toNat_ushiftRight, Nat.shiftRight_eq_div_pow]

theorem toNat_shift12 (a : BitVec 32) : (a >>> 12).toNat = a.toNat / 4096 := by
  rw [BitVec.toNat_ushiftRight, Nat.shiftRight_eq_div_pow]

theorem toNat_page (e : BitVec 32) : ((e >>> 12) <<< 12).toNat = e.toNat / 4096 * 4096 := by
  have hlt := e.isLt
  rw [BitVec.toNat_shiftLeft, toNat_shift12, Nat.shiftLeft_eq]
  omega

theorem toNat_four_mul {x : BitVec 32} (hx : x.toNat < 2 ^ 30) :
    (4#32 * x).toNat = 4 * x.toNat := by
  have hfour : BitVec.toNat 4#32 = 4 := rfl
  rw [BitVec.toNat_mul, hfour]
  omega

theorem KernelPages.translate_eq (h : KernelPages m) (a : BitVec 32) :
    translate m a = if a.toNat < 0x1000000 then some a else none := by
  have hlt := a.isLt
  have hpde : getLong m (pgDir + 4#32 * (a >>> 22)) =
      if a.toNat / 0x400000 < 4 then BitVec.ofNat 32 (4096 * (a.toNat / 0x400000 + 1) + 7)
        else 0 := by
    rw [← h.dir (a.toNat / 0x400000) (by omega)]
    congr 1
    apply BitVec.eq_of_toNat_eq
    have hzero : pgDir + 4#32 * (a >>> 22) = 4#32 * (a >>> 22) := BitVec.zero_add _
    have hshift := toNat_shift22 a
    rw [hzero, toNat_four_mul (by omega), BitVec.toNat_ofNat, hshift]
    omega
  rw [translate, hpde]
  by_cases hlow : a.toNat < 0x1000000
  · have hdir : a.toNat / 0x400000 < 4 := by omega
    set e := BitVec.ofNat 32 (4096 * (a.toNat / 0x400000 + 1) + 7) with he
    have hen : e.toNat = 4096 * (a.toNat / 0x400000 + 1) + 7 := by
      rw [he, BitVec.toNat_ofNat]
      omega
    have hindex : ((a >>> 12) &&& 0x3ff).toNat = a.toNat / 4096 % 1024 := by
      rw [BitVec.toNat_and, toNat_shift12]
      exact Nat.and_two_pow_sub_one_eq_mod (a.toNat / 4096) 10
    have haddr : (e >>> 12) <<< 12 + 4#32 * ((a >>> 12) &&& 0x3ff) = entryAddr
        (a.toNat / 4096) := by
      have hpage := toNat_page e
      have hmul := toNat_four_mul (x := (a >>> 12) &&& 0x3ff) (by omega)
      apply BitVec.eq_of_toNat_eq
      have hentry : (entryAddr (a.toNat / 4096)).toNat = 0x1000 + 4 * (a.toNat / 4096) := by
        rw [entryAddr, BitVec.toNat_ofNat]
        omega
      rw [BitVec.toNat_add, hpage, hmul, hentry, hindex, hen]
      omega
    have hpte := h.table (a.toNat / 4096) (by omega)
    have hten : (tableEntry (a.toNat / 4096)).toNat = 4096 * (a.toNat / 4096) + 7 := by
      rw [tableEntry, BitVec.toNat_ofNat]
      omega
    have hp₁ : present e = true := by
      rw [present_eq, hen, decide_eq_true_eq]
      omega
    have hp₂ : present (tableEntry (a.toNat / 4096)) = true := by
      rw [present_eq, hten, decide_eq_true_eq]
      omega
    have hoffset : (a &&& 0xfff).toNat = a.toNat % 4096 := by
      rw [BitVec.toNat_and]
      exact Nat.and_two_pow_sub_one_eq_mod a.toNat 12
    have hback : (tableEntry (a.toNat / 4096) >>> 12) <<< 12 + (a &&& 0xfff) = a := by
      have hpage := toNat_page (tableEntry (a.toNat / 4096))
      bv_omega
    simp only [if_pos hdir, if_pos hlow, hp₁, if_true, haddr, hpte, hp₂, hback]
  · have hdir : ¬ a.toNat / 0x400000 < 4 := by omega
    simp [if_neg hdir, if_neg hlow]

theorem tableEntry_eq {i : Nat} (hi : i < 4096) : tableEntry i = userEntry i := by
  apply BitVec.eq_of_toNat_eq
  rw [toNat_userEntry (by omega), tableEntry, BitVec.toNat_ofNat]
  omega

theorem KernelPages.config (h : KernelPages m) :
    ∃ c : Config, c.high = bootConfig.high ∧ c.limit = bootConfig.limit ∧
    (∀ p k, c.low p k = getLong m (BitVec.ofNat 32 (4096 * p + 4 * k.val))) ∧
    ∀ i : Fin 1024, (boot c).dir i = getLong m (BitVec.ofNat 32 (4 * i.val)) := by
  have htable (i k : Fin 1024) (hi : i.val < 4) :
      getLong m (BitVec.ofNat 32 (4096 * (i.val + 1) + 4 * k.val)) = userEntry
        (i.val * 1024 + k.val) := by
    have haddr : BitVec.ofNat 32 (4096 * (i.val + 1) + 4 * k.val) = entryAddr
        (i.val * 1024 + k.val) := by
      rw [entryAddr]
      congr 1
      ring
    rw [haddr, h.table _ (by omega), tableEntry_eq (by omega)]
  refine ⟨{ bootConfig with
    low := fun p k => getLong m (BitVec.ofNat 32 (4096 * p + 4 * k.val))
    table_eq := htable }, rfl, rfl, fun p k => rfl, fun i => ?_⟩
  rw [h.dir i.val i.isLt]
  simp only [boot, memInit, bootDir]
  by_cases hi : i.val < 4
  · rw [if_pos hi, if_pos hi, ← tableEntry_eq (by omega), tableEntry]
  · rw [if_neg hi, if_neg hi]

section Stack
variable {top : BitVec 32} (htop : 0x5014 ≤ top.toNat)

include htop in
theorem onlyIn_pushLongs (vs : List (BitVec 32)) {k : Nat} (hk : k + vs.length ≤ 5) (m : Memory) :
    OnlyIn (top - 20) 20 m (pushLongs vs (top - BitVec.ofNat 32 (4 * k)) m).2 := by
  induction vs generalizing k m with
  | nil => exact OnlyIn.refl _ _ m
  | cons v vs ih =>
    rw [List.length_cons] at hk
    have hnext : top - BitVec.ofNat 32 (4 * k) - 4 = top - BitVec.ofNat 32 (4 * (k + 1)) := by
      bv_omega
    rw [pushLongs, hnext]
    exact (onlyIn_putLong (top - 20) (by bv_omega) m v).trans (ih (by omega) _)

theorem getLong_pushLongs (vs : List (BitVec 32)) (v esp : BitVec 32) (m : Memory) :
    getLong (pushLongs (vs ++ [v]) esp m).2 (pushLongs (vs ++ [v]) esp m).1 = v := by
  induction vs generalizing esp m with
  | nil => exact getLong_putLong _ _ _
  | cons w vs ih => exact ih _ _

theorem pushLongs_fst (vs : List (BitVec 32)) (esp : BitVec 32) (m : Memory) :
    (pushLongs vs esp m).1 = esp - BitVec.ofNat 32 (4 * vs.length) := by
  induction vs generalizing esp m with
  | nil => simp [pushLongs]
  | cons v vs ih =>
    rw [pushLongs, ih, List.length_cons]
    bv_omega

theorem onlyIn_return (top ret : BitVec 32) (m : Memory) :
    OnlyIn (top - 20) 20 m (putLong m (top - 4) ret) :=
  onlyIn_putLong (top - 20) (by bv_omega) m ret

theorem call_eq (ret : BitVec 32) {body : Memory → Memory} (m : Memory)
    (hbody : getLong (body (putLong m (top - 4) ret)) (top - 4) = getLong
      (putLong m (top - 4) ret) (top - 4)) :
    call top ret body m = some (body (putLong m (top - 4) ret)) :=
  if_pos (hbody.trans (getLong_putLong ..))

theorem call_id (top ret : BitVec 32) (m : Memory) :
    call top ret id m = some (putLong m (top - 4) ret) :=
  call_eq ret m rfl

include htop in
theorem afterPageTables_ends (l6 main : BitVec 32) (m : Memory) : ∃ m', KernelPages m' ∧
    Ends (fun fuel => (setupPaging fuel (pushLongs [0, 0, 0, l6, main] top m).2).map
      fun m' => (getLong m' (pushLongs [0, 0, 0, l6, main] top m).1, m')) (main, m') ∧
    ∀ x, 0x5000 ≤ x.toNat → 20 ≤ (x - (top - 20)).toNat → m' x = m x := by
  have hstart : top - BitVec.ofNat 32 (4 * 0) = top := by simp
  have honlyPush := onlyIn_pushLongs htop [0, 0, 0, l6, main] (k := 0) (by simp) m
  rw [hstart] at honlyPush
  have hesp : (pushLongs [0, 0, 0, l6, main] top m).1 = top - 20 := pushLongs_fst _ top m
  have hpushed := getLong_pushLongs [0, 0, 0, l6] main top m
  rw [List.cons_append, List.cons_append, List.cons_append, List.cons_append, List.nil_append,
    hesp] at hpushed
  obtain ⟨m', hpaging, honlyPaging, hdir, htable⟩ :=
    setupPaging_ends (pushLongs [0, 0, 0, l6, main] top m).2
  -- the directory and the tables end below the stack
  have hmain : getLong m' (top - 20) = main :=
    (honlyPaging.getLong (by bv_omega) (by bv_omega)).trans hpushed
  refine ⟨m', ⟨hdir, htable⟩, ?_, fun x hhigh hout => ?_⟩
  · have hmapped := hpaging.map (g := fun m' => (getLong m' (top - 20), m'))
    rw [hmain] at hmapped
    simpa only [hesp] using hmapped
  · rw [honlyPaging x (by bv_omega), honlyPush x hout]

end Stack

/-- The interrupt table and the 20 bytes of stack that `head.s` uses are apart, and both of them
behind the page tables. -/
structure Symbols.Placed (sym : Symbols) : Prop where
  idt : 0x5000 ≤ sym.idt.toNat
  idt_end : sym.idt.toNat + 8 * 256 ≤ 0x80000
  stack : 0x5014 ≤ sym.stackEnd.toNat
  apart : sym.idt.toNat + 8 * 256 + 20 ≤ sym.stackEnd.toNat ∨ sym.stackEnd.toNat ≤ sym.idt.toNat

theorem setupIdt_spec {idt : BitVec 32} (hend : idt.toNat + 8 * 256 ≤ 0x80000)
    (ignoreInit : BitVec 32) (m : Memory) :
    OnlyIn idt (8 * 256) m (setupIdt idt ignoreInit m) ∧ ∀ i < 256,
      getLong (setupIdt idt ignoreInit m) (idt + BitVec.ofNat 32 (8 * i)) = 0x0008#16 ++
        ignoreInit.setWidth 16 ∧
      getLong (setupIdt idt ignoreInit m) (idt + BitVec.ofNat 32 (8 * i + 4)) =
        (ignoreInit >>> 16).setWidth 16 ++ 0x8e00#16 := by
  unfold setupIdt
  exact rpSidt_spec _ _ 256 idt (by omega) m

theorem startup32_ends {sym : Symbols} (hsym : sym.Placed) (m : Memory) : ∃ m', KernelPages m' ∧
    Ends (fun fuel => startup32 sym fuel m) (sym.main, m') ∧
    ∀ x, 0x5000 ≤ x.toNat → 20 ≤ (x - (sym.stackEnd - 20)).toNat →
      m' x = setupIdt sym.idt sym.ignoreInit (putLong m (sym.stackEnd - 4) sym.afterIdt) x := by
  obtain ⟨hlow, hend, hstack, hapart⟩ := hsym
  obtain ⟨honlyIdt, -⟩ :=
    setupIdt_spec hend sym.ignoreInit (putLong m (sym.stackEnd - 4) sym.afterIdt)
  have hidt := call_eq sym.afterIdt m (honlyIdt.getLong (by bv_omega) (by bv_omega))
  set m₁ := setupIdt sym.idt sym.ignoreInit (putLong m (sym.stackEnd - 4) sym.afterIdt)
  obtain ⟨m₂, ha20, honlyA20⟩ := checkA20_ends (putLong m₁ (sym.stackEnd - 4) sym.afterGdt)
  obtain ⟨m', hpages, hends, honly⟩ :=
    afterPageTables_ends hstack sym.l6 sym.main (putLong m₂ (sym.stackEnd - 4) sym.afterX87)
  refine ⟨m', hpages, ?_, fun x hhigh hout => ?_⟩
  · have hcalled := ha20.bind
        (g := fun fuel m => (call sym.stackEnd sym.afterX87 id m).bind fun m =>
        (setupPaging fuel (pushLongs [0, 0, 0, sym.l6, sym.main] sym.stackEnd m).2).map
          fun m' => (getLong m' (pushLongs [0, 0, 0, sym.l6, sym.main] sym.stackEnd m).1, m'))
      (hends.congr fun fuel => by rw [call_id, Option.bind_some])
    refine hcalled.congr fun fuel => ?_
    rw [startup32, hidt, Option.bind_some, call_id]
    rfl
  · rw [honly x hhigh hout, onlyIn_return _ sym.afterX87 m₂ x hout, honlyA20 x (by bv_omega),
      onlyIn_return _ sym.afterGdt m₁ x hout]

/-- From the boot sector, which the BIOS has put at 0x7c00, to `main` with paging on. -/
def powerOn (d : Floppy) (b : Bios) (sym : Symbols) (fuel : Nat) (m : Memory) :
    Option (BitVec 32 × Memory) :=
  (bootsect d fuel m).bind fun s => (setup b fuel s.mem).bind (startup32 sym fuel)

/-- The system ends up at the addresses it is linked for and comes to `main` behind page tables
that map the first 16 MB to themselves, with a gate in every slot of `idt`. -/
theorem system_starts {d : Floppy} (hd : d.Holds) (b : Bios) {sym : Symbols} (hsym : sym.Placed)
    (m : Memory) :
    ∃ m', Ends (fun fuel => powerOn d b sym fuel m) (sym.main, m') ∧
      (∀ x, 0x5000 ≤ x.toNat → x.toNat < 0x30000 → 8 * 256 ≤ (x - sym.idt).toNat →
        20 ≤ (x - (sym.stackEnd - 20)).toNat → m' x = d.byte (5 * 512 + x.toNat)) ∧
      (∀ i < 256, getLong m' (sym.idt + BitVec.ofNat 32 (8 * i)) = 0x0008#16 ++
        sym.ignoreInit.setWidth 16 ∧
        getLong m' (sym.idt + BitVec.ofNat 32 (8 * i + 4)) = (sym.ignoreInit >>> 16).setWidth 16 ++
          0x8e00#16) ∧
      (∀ a, translate m' a = if a.toNat < 0x1000000 then some a else none) ∧
      ∃ c : Config, c.high = bootConfig.high ∧ c.limit = bootConfig.limit ∧
        (∀ p k, c.low p k = getLong m' (BitVec.ofNat 32 (4096 * p + 4 * k.val))) ∧
        ∀ i : Fin 1024, (boot c).dir i = getLong m' (BitVec.ofNat 32 (4 * i.val)) := by
  obtain ⟨s, hboot, hmem⟩ := hd.bootsect_ends m
  have hsetup := setup_ends b s.mem
  set m₁ := fill 0 0x80000 (fun x => storeParameters b s.mem (x + 0x10000))
    (storeParameters b s.mem) with hm₁
  obtain ⟨honlyIdt, hgates⟩ :=
    setupIdt_spec hsym.idt_end sym.ignoreInit (putLong m₁ (sym.stackEnd - 4) sym.afterIdt)
  obtain ⟨m', hpages, hstart, honly⟩ := startup32_ends hsym m₁
  obtain ⟨hlow, hend, hstack, hapart⟩ := hsym
  refine ⟨m', hboot.bind (hsetup.bind hstart), ?_, ?_, hpages.translate_eq, hpages.config⟩
  · intro x hlow hhigh hout hstack
    have himage : m₁ x = d.byte (5 * 512 + x.toNat) := by
      have hin : (x - 0).toNat < 0x80000 := by bv_omega
      have hshift : (x + 0x10000 - 0x10000).toNat = x.toNat := by bv_omega
      rw [hm₁]
      simp only [fill, if_pos hin]
      rw [storeParameters_only b s.mem _ (by bv_omega), hmem]
      simp only [fill]
      rw [if_pos (by omega), hshift]
    rw [honly x hlow hstack, honlyIdt x hout, onlyIn_return _ _ m₁ x hstack, himage]
  · intro i hi
    obtain ⟨hfirst, hsecond⟩ := hgates i hi
    have hkept (j : Nat) (hj : j + 4 ≤ 8 * 256) : getLong m' (sym.idt + BitVec.ofNat 32 j) =
        getLong (setupIdt sym.idt sym.ignoreInit (putLong m₁ (sym.stackEnd - 4) sym.afterIdt))
          (sym.idt + BitVec.ofNat 32 j) :=
      getLong_congr fun k hk => honly _ (by bv_omega) (by bv_omega)
    rw [hkept _ (by omega), hkept _ (by omega)]
    exact ⟨hfirst, hsecond⟩

def exampleFloppy : Floppy where
  sectors := 18
  tracks := 80
  data track head sector i := BitVec.ofNat 8 (track + head + sector + i)
  fails k := k == 0
  debris _ _ := 0xff

theorem exampleFloppy_holds : exampleFloppy.Holds where
  six_le := by decide
  le := by decide
  tracks := by decide
  tracks_le := by decide
  succeeds k := ⟨k + 1, Nat.le_succ k, rfl⟩

def exampleBios : Bios := ⟨0, 0x0800, 0, 0x5003, 0, 0x10, 0, false⟩

def exampleSymbols : Symbols := ⟨0x54b8, 0x5434, 0x20000, 0x1d, 0x22, 0x4d, 0x5413, 0x6000⟩

theorem exampleSymbols_placed : exampleSymbols.Placed where
  idt := by decide
  idt_end := by decide
  stack := by decide
  apart := by decide

theorem system_starts_from_floppy : exampleFloppy.Holds ∧ exampleSymbols.Placed ∧
    ∃ m', Ends (fun fuel => powerOn exampleFloppy exampleBios exampleSymbols fuel fun _ => 0)
      (0x6000, m') ∧
      translate m' 0xb8000 = some 0xb8000 := by
  refine ⟨exampleFloppy_holds, exampleSymbols_placed, ?_⟩
  obtain ⟨m', hends, -, -, htranslate, -⟩ :=
    system_starts exampleFloppy_holds exampleBios exampleSymbols_placed fun _ => 0
  exact ⟨m', hends, htranslate 0xb8000⟩

end Hios.Boot
