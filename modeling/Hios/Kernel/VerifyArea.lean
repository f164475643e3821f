import Hios.Kernel.UserStores

/-! `verify_area` on its own: its area is writable for its caller alone, and nobody
sees a difference. -/
namespace Hios.Kernel
open Hios.Mm Hios.Run
variable {c : Config} {m m' : Machine} {t : TaskNr} {τ : Task}

/-- The byte at a linear address as its process reads it: zero where a fault will map
a fresh page. -/
def readByte (m : Machine) (x : Nat) : Byte :=
  match entryAt m x with
  | some e => if present e then loadByte m (pageOf e) x else 0
  | none => 0

theorem entryAt_low {held : List Nat} (h : Inv c held m) {x : Nat} (hx : x < 0x100000) :
    entryAt m x = some (userEntry (x / 4096)) := by
  have hd : (dirIndex x).val = 0 := by
    simp only [dirIndex, Fin.ofNat]
    omega
  have hk : (tableIndex x).val = x / 4096 := by
    simp only [tableIndex, Fin.ofNat]
    omega
  have hdir : m.dir (dirIndex x) = userEntry 1 := by
    rw [h.lowDir _ (by omega), bootDir, if_pos (by omega), hd]
  have hentry : m.mem 1 (tableIndex x) = userEntry (x / 4096) := by
    rw [h.low 1 _ (by decide)]
    simpa [hk] using c.table_eq 0 (tableIndex x) (by decide)
  rw [entryAt, hdir, pageOf_userEntry (by decide), if_pos (present_userEntry 1), hentry]

theorem readByte_low {held : List Nat} (h : Inv c held m) {x : Nat} (hx : x < 0x100000) :
    readByte m x = getByte (c.low (x / 4096) (wordIndex x)) (x % 4) := by
  simp only [readByte, entryAt_low h hx, present_userEntry, if_true]
  rw [pageOf_userEntry (by omega), loadByte, h.low _ _ (by simp only [LOW_MEM]; omega)]

theorem readByte_linear (ht : t ≠ 0) {a : Nat} (ha : a < c.limit) :
    readByte m (newBase t + a) = viewByte m t a := by
  simp only [readByte, entryAt_linear ht ha, viewByte, view]
  by_cases hi : hasTable m (slotDir t)
  · by_cases hp : present (pte m (slotDir t) (tableIndex a))
    · simp [hi, hp, loadByte, wordIndex_linear, byteIndex_linear]
    · simp [hi, hp, getByte]
  · simp [hi, getByte]

theorem readByte_quiet (hlimit : c.limit ≤ 0x100000) (h : Inv c [] m) (hq : Quiet c m m')
    {u : TaskNr} {σ : Task} (hσ : m.task u = some σ) {a : Nat} (ha : a < c.limit) :
    readByte m' (σ.base + a) = readByte m (σ.base + a) := by
  rw [h.base u σ hσ]
  by_cases hu : u = 0
  · have hzero : newBase u = 0 := newBase_eq_zero.mpr hu
    rw [hzero, Nat.zero_add, readByte_low hq.inv (by omega), readByte_low h (by omega)]
  · rw [readByte_linear hu ha, readByte_linear hu ha]
    exact viewByte_congr (fun k j => hq.view _ k j) a

/-- When `verify_area` returns, every page of its area that is there is writable and, if
it is a main-memory page, mapped by no other process; and every process reads the same
bytes as before. Segments end below 1 MB, as that of `INIT_TASK` does. -/
theorem verify_area_private {as : List Act} {es : List Event} {addr size : Nat}
    (hlimit : c.limit ≤ 0x100000) (h : trace step (boot c) as = some (es, m))
    (hτ : m.task t = some τ) (hsize : size + addr % 4096 < 2 ^ 31) (hseg : addr + size ≤ m.limit)
    (hret : verifyArea τ addr size m = .ok m') :
    (∀ a, addr ≤ a → a < addr + size → ∀ e, entryAt m' (τ.base + a) = some e → present e →
      writable e ∧ Apart m' t (pageOf e)) ∧
    ∀ u σ, m.task u = some σ →
    ∀ a < m.limit, readByte m' (σ.base + a) = readByte m (σ.base + a) := by
  have hinv := inv_of_trace h
  have hbase := hinv.base t τ hτ
  have hspec := verifyArea_spec t addr hinv hbase hsize
  rw [hret] at hspec
  obtain ⟨hquiet, harea⟩ := hspec
  rw [hinv.limit] at hseg ⊢
  refine ⟨fun a hlow hhigh e he hp => ?_, fun u σ hσ a ha =>
    readByte_quiet hlimit hinv hquiet hσ ha⟩
  rw [hbase] at he
  by_cases ht : t = 0
  · have hzero : newBase t = 0 := newBase_eq_zero.mpr ht
    rw [hzero, Nat.zero_add, entryAt_low hquiet.inv (by omega)] at he
    obtain rfl := Option.some.inj he
    refine ⟨writable_userEntry _, fun hmain => ?_⟩
    rw [pageOf_userEntry (by omega)] at hmain
    simp only [LOW_MEM] at hmain
    omega
  · obtain ⟨i, rfl⟩ := Nat.exists_eq_add_of_le hlow
    have ha : addr + i < c.limit := by omega
    rw [entryAt_linear ht ha] at he
    split at he
    · rename_i hi
      obtain rfl := Option.some.inj he
      obtain ⟨hsafe, hex⟩ := harea i (by omega) ha
      have hapart := (apart_iff_exclusive hquiet.inv ht ha hi hp).mpr hex
      rw [pageAt_linear ht ha hi] at hapart
      exact ⟨hsafe hi hp, hapart⟩
    · cases he

theorem verify_area_private_shared : ∃ es m τ m',
    trace step (boot bootConfig) sharedPage = some (es, m) ∧ m.task 2 = some τ ∧
    verifyArea τ 5 4 m = .ok m' ∧
      ∀ u σ, m.task u = some σ →
      ∀ a < m.limit, readByte m' (σ.base + a) = readByte m (σ.base + a) := by
  obtain ⟨⟨m, τ, m₁⟩, h, hm⟩ := (Option.any_eq_true _ _).mp sharedPage_calls.2.2
  obtain ⟨⟨es, hes⟩, hτ, -⟩ := callFrom_some h
  obtain ⟨hlimit, hv⟩ := of_decide_eq_true hm
  simp only at hlimit hv
  cases hret : verifyArea τ 5 4 m with
  | error p =>
    rw [hret] at hv
    cases hv
  | ok m' =>
    exact ⟨es, m, τ, m', hes, hτ, hret,
      (verify_area_private (by decide) hes hτ (by decide) (by omega) hret).2⟩

end Hios.Kernel
