import Hios.Fs.BufferCalls
import Hios.Fs.CacheSync
import Hios.Fs.SyncDev

/-! The buffer cache is a flat store of blocks: what `bread` returns is what was last put
into the block, however the drivers keep time. -/
namespace Hios.Fs
open Hios.BlkDrv Hios.Run

namespace BlockCache
variable {β δ : Type} [DecidableEq β] {flat : Nat → Nat → δ} {q : Nat → List Slot}
variable {s t u : BlockCache β δ} {dev block : Nat} {b : β}

/-- The buffer `b` has been given to the caller, and nobody else's has been taken. -/
structure Lends (s t : BlockCache β δ) (b : β) : Prop where
  buffers : t.buffers = s.buffers
  requestFn : t.io.requestFn = s.io.requestFn
  count : ∀ x ∈ s.buffers, (t.io.bh x).bCount = (s.io.bh x).bCount + if x = b then 1 else 0
  held : ∀ x ∈ s.buffers, (s.io.bh x).bCount ≠ 0 → (t.io.bh x).bDev = (s.io.bh x).bDev ∧
    (t.io.bh x).bBlocknr = (s.io.bh x).bBlocknr ∧
    ((s.io.bh x).bUptodate = true → (t.io.bh x).bUptodate = true)

theorem Lends.calm (h : Lends s t b) (h' : Calm t u) : Lends s u b := by
  refine ⟨h'.buffers.trans h.buffers, h'.requestFn.trans h.requestFn, fun x hx => ?_,
    fun x hx hne => ?_⟩
  · rw [(h'.place x).2.2]
    exact h.count x hx
  · obtain ⟨hdev, hblock, hup⟩ := h.held x hx hne
    exact ⟨(h'.place x).1.trans hdev, (h'.place x).2.1.trans hblock, fun e => h'.uptodate x (hup e)⟩

theorem Calm.lends (h : Calm s t) (h' : Lends t u b) : Lends s u b := by
  refine ⟨h'.buffers.trans h.buffers, h'.requestFn.trans h.requestFn, fun x hx => ?_,
    fun x hx hne => ?_⟩
  · rw [← (h.place x).2.2]
    exact h'.count x (h.buffers ▸ hx)
  · obtain ⟨hdev, hblock, hup⟩ := h'.held x (h.buffers ▸ hx) (by rw [(h.place x).2.2]; exact hne)
    exact ⟨hdev.trans (h.place x).1, hblock.trans (h.place x).2.1, fun e => hup (h.uptodate x e)⟩

theorem lends_addCount (hcount : (s.io.bh b).bCount < 255) : Lends s (s.addCount b 1) b := by
  refine ⟨rfl, rfl, fun x _ => ?_, fun x _ _ => ?_⟩
  all_goals rw [addCount, setBh_bh]
  · by_cases hx : x = b
    · subst hx
      rw [if_pos rfl, if_pos rfl]
      exact Nat.mod_eq_of_lt (by omega)
    · rw [if_neg hx, if_neg hx, Nat.add_zero]
  · by_cases hx : x = b
    · subst hx
      rw [if_pos rfl]
      exact ⟨rfl, rfl, id⟩
    · rw [if_neg hx]
      exact ⟨rfl, rfl, id⟩

theorem Sound.addCount (h : Sound flat none s) (b : β) (n : Nat) :
    Sound flat none (s.addCount b n) := by
  obtain ⟨q, hq⟩ := h
  exact ⟨q, hq.setBh ⟨rfl, rfl, rfl, rfl, rfl⟩ rfl⟩

omit [DecidableEq β] in
theorem found_key (h : Filed s.caches) (hfound : findBuffer s.caches dev block = some b) :
    b ∈ s.buffers ∧ (s.io.bh b).bDev = dev % 65536 ∧ (s.io.bh b).bBlocknr = block := by
  have hkey := List.find?_some hfound
  simp only [decide_eq_true_eq] at hkey
  exact ⟨((h.mem _ b).mp (List.mem_of_find?_eq_some hfound)).1, hkey⟩

omit [DecidableEq β] in
/-- The cache has at most one buffer of the block, and `find_buffer` finds it. -/
theorem not_found_iff (h : Filed s.caches) (hdev : dev < 65536) (hzero : dev ≠ 0) :
    findBuffer s.caches dev block = none ↔
    ∀ x ∈ s.buffers, ¬ ((s.io.bh x).bDev = dev ∧ (s.io.bh x).bBlocknr = block) := by
  refine ⟨fun hnone x hx => h.not_cached hnone hdev hzero hx, fun hno => ?_⟩
  cases hfound : findBuffer s.caches dev block with
  | none => rfl
  | some b =>
    obtain ⟨hb, hkey⟩ := found_key h hfound
    rw [Nat.mod_eq_of_lt hdev] at hkey
    exact absurd hkey (hno b hb)

omit [DecidableEq β] in
theorem Sound.not_found_iff (h : Sound flat none s) (hdev : dev < 65536) (hzero : dev ≠ 0) :
    findBuffer s.caches dev block = none ↔
    ∀ x ∈ s.buffers, ¬ ((s.io.bh x).bDev = dev ∧ (s.io.bh x).bBlocknr = block) := by
  obtain ⟨q, hq⟩ := h
  exact BlockCache.not_found_iff hq.filed hdev hzero

theorem Sound.getHashTable_found (pace : Pace) (h : Sound flat none s) (hdev : dev < 65536)
    (fuel : Nat) (hfound : findBuffer s.caches dev block = some b)
    (hcount : (s.io.bh b).bCount < 255) :
    ∃ t, s.getHashTable pace dev block (fuel + 1) = some (some b, t) ∧ Sound flat none t ∧
    Lends s t b ∧
      (t.io.bh b).bDev = dev ∧ (t.io.bh b).bBlocknr = block := by
  obtain ⟨hb, hkey⟩ : b ∈ s.buffers ∧ (s.io.bh b).bDev = dev % 65536 ∧
      (s.io.bh b).bBlocknr = block := by
    obtain ⟨q, hq⟩ := h
    exact found_key hq.filed hfound
  obtain ⟨t, ht, hgoes, -⟩ := (h.addCount b 1).waitOnBuffer pace hb fun rw e => by cases e
  have hsame := hgoes.waits.place b
  have hkey' : (t.io.bh b).bDev = dev % 65536 ∧ (t.io.bh b).bBlocknr = block := by
    rw [hsame.1, hsame.2.1, BlockCache.addCount, setBh_bh, if_pos rfl]
    exact hkey
  refine ⟨t, ?_, hgoes.sound, (lends_addCount hcount).calm hgoes.waits.calm,
    hkey'.1.trans (Nat.mod_eq_of_lt hdev), hkey'.2⟩
  simp only [BlockCache.getHashTable, hfound, ht, Option.bind_eq_bind, Option.bind_some, hkey',
    and_self, if_true]
  rfl

theorem Sound.writeOut (pace : Pace) (h : Sound flat none s) (hb : b ∈ s.buffers)
    (hopen : (s.io.bh b).bLock = false) (hzero : (s.io.bh b).bCount = 0) (fuel : Nat) :
    ∃ t, s.writeOut pace b (fuel + 2) = some (false, t) ∧ Sound flat none t ∧
      Calm s t ∧ (t.io.bh b).bLock = false ∧ (t.io.bh b).bDirt = false := by
  cases hd : (s.io.bh b).bDirt with
  | false => exact ⟨s, by simp [BlockCache.writeOut, hd], h, (Waits.refl s).calm, hopen, hd⟩
  | true =>
    obtain ⟨t, ht, hsound, hcalm, hclean⟩ := h.syncDev pace (s.io.bh b).bDev
    obtain ⟨u, hu, hgoes, hopen'⟩ := hsound.waitOnBuffer pace (hcalm.buffers ▸ hb) fun rw e => by
      cases e
    have hcount : (u.io.bh b).bCount = 0 := by
      rw [(hgoes.waits.place b).2.2, (hcalm.place b).2.2]
      exact hzero
    have hclean' : (u.io.bh b).bDirt = false := (hgoes.waits.dirt b).trans (hclean b hb rfl)
    refine ⟨u, ?_, hgoes.sound, hcalm.trans hgoes.waits.calm, hopen', hclean'⟩
    simp [BlockCache.writeOut, hd, ht, hu, hcount, hclean']

theorem take_bh (s : BlockCache β δ) (dev block : Nat) (b x : β) :
    (s.take dev block b).io.bh x =
      if x = b then
        { s.io.bh b with
          bCount := 1, bDirt := false, bUptodate := false, bDev := dev % 65536, bBlocknr := block }
      else s.io.bh x :=
  setBh_bh ..

theorem take_caches (s : BlockCache β δ) (dev block : Nat) (b : β) :
    (s.take dev block b).caches = takeBuffer s.caches dev block b := by
  have hhead : (s.take dev block b).caches.head = (takeBuffer s.caches dev block b).head := by
    funext x
    change ((s.take dev block b).io.bh x).core = _
    rw [take_bh]
    by_cases hx : x = b
    · subst hx
      rw [if_pos rfl]
      simp only [takeBuffer, Function.update_self]
      rfl
    · rw [if_neg hx, takeBuffer_head_of_ne hx]
      rfl
  have hrest : (s.take dev block b).caches =
    { takeBuffer s.caches dev block b with head := (s.take dev block b).caches.head } := rfl
  rw [hrest, hhead]

/-- A free, clean and unlocked buffer is taken for a block that is not in the cache: its old
block is on the disk, and so is the new one. -/
theorem Consistent.take (h : Consistent flat none q s)
  (hb : b ∈ s.buffers) (hopen : (s.io.bh b).bLock = false)
    (hclean : (s.io.bh b).bDirt = false) (hdriver : HasDriver s.io.requestFn dev)
      (hblock : block < 2 ^ 31)
    (hnone : findBuffer s.caches dev block = none) : Consistent flat
      none q (s.take dev block b) := by
  have hzero : dev ≠ 0 := hdriver.1
  have hdev : dev < 65536 := hdriver.2.1
  have hmod : dev % 65536 = dev := Nat.mod_eq_of_lt hdev
  have hidle : ¬ Pending q s b := by
    rintro ⟨m, i, hi, hib, -⟩
    have hlock := (h.queues.moves_of_bh hi hib).2.locked
    rw [hopen] at hlock
    cases hlock
  have hno := (not_found_iff h.filed hdev hzero).mp hnone
  have hself : (s.take dev block b).io.bh b =
      { s.io.bh b with
        bCount := 1, bDirt := false, bUptodate := false, bDev := dev, bBlocknr := block } := by
    rw [take_bh, if_pos rfl, hmod]
  have hother : ∀ x, x ≠ b → (s.take dev block b).io.bh x = s.io.bh x :=
    fun x hx => by rw [take_bh, if_neg hx]
  refine ⟨h.nodup, ?_, h.queues.setBh rfl fun e => ?_, fun x hx hxdev => ?_, fun x hx hd => ?_,
    fun x hx hup => ?_, fun dev' block' => ?_,
    fun m d x hm hd hx hread => ?_, h.agrees.idle⟩
  · rw [take_caches]
    exact h.filed.take hb hnone hdev
  · rw [hopen] at e
    cases e
  · by_cases hxb : x = b
    · subst hxb
      rw [hself]
      exact ⟨hdriver, hblock⟩
    · rw [hother x hxb] at hxdev ⊢
      exact h.agrees.served x hx hxdev
  · by_cases hxb : x = b
    · subst hxb
      rw [hself] at hd
      cases hd
    · rw [hother x hxb] at hd ⊢
      exact h.agrees.dirty x hx hd
  · by_cases hxb : x = b
    · subst hxb
      rw [hself] at hup
      cases hup
    · rw [hother x hxb] at hup ⊢
      exact h.agrees.uptodate x hx hup
  · refine (h.agrees.disk dev' block').imp_right ?_
    rintro ⟨x, hx, hxdev, hxblock, hdirty⟩
    have hxb : x ≠ b := by
      rintro rfl
      cases hdirty with
      | inl hd =>
        rw [hclean] at hd
        cases hd
      | inr hp => exact hidle hp
    refine ⟨x, hx, ?_⟩
    rw [hother x hxb]
    exact ⟨hxdev, hxblock, hdirty⟩
  · have hxb : x ≠ b := by
      rintro rfl
      have hin := h.queues.head_mem hd
      have hlock := (h.queues.moves_of_bh hin hx).2.locked
      rw [hopen] at hlock
      cases hlock
    rw [hother x hxb]
    exact h.agrees.arrived m d x hm hd hx hread

omit [DecidableEq β] in
theorem scanFree_isSome {head : β → CacheHead} {l : List β} (bh : Option β)
    (h : bh.isSome = true ∨ ∃ c ∈ l, (head c).bCount = 0) : ∃ b, scanFree head l bh = some b := by
  induction l generalizing bh with
  | nil =>
    cases h with
    | inl hs => exact Option.isSome_iff_exists.mp hs
    | inr he =>
      obtain ⟨c, hc, -⟩ := he
      cases hc
  | cons tmp l ih =>
    rw [scanFree]
    by_cases hused : (head tmp).bCount ≠ 0
    · rw [if_pos hused]
      refine ih bh (h.imp_right ?_)
      rintro ⟨c, hc, hfree⟩
      cases hc with
      | head => exact absurd hfree hused
      | tail _ hc => exact ⟨c, hc, hfree⟩
    · rw [if_neg hused]
      split
      · split
        · exact ⟨tmp, rfl⟩
        · exact ih _ (.inl rfl)
      · rename_i hworse
        refine ih bh (.inl ?_)
        cases bh with
        | none => simp at hworse
        | some c => rfl

theorem Sound.getblk (pace : Pace) (h : Sound flat none s)
    (hdriver : HasDriver s.io.requestFn dev) (hblock : block < 2 ^ 31)
    (hcount : ∀ x ∈ s.buffers, (s.io.bh x).bDev = dev → (s.io.bh x).bBlocknr = block →
      (s.io.bh x).bCount < 255)
    (hfree : (∀ x ∈ s.buffers, ¬ ((s.io.bh x).bDev = dev ∧ (s.io.bh x).bBlocknr = block)) →
      ∃ x ∈ s.buffers, (s.io.bh x).bCount = 0) :
    ∃ b t, s.getblk pace dev block TURNS = some (b, t) ∧ Sound flat none t ∧ Lends s t b ∧
    b ∈ s.buffers ∧
      (t.io.bh b).bDev = dev ∧ (t.io.bh b).bBlocknr = block := by
  have hzero : dev ≠ 0 := hdriver.1
  have hdev : dev < 65536 := hdriver.2.1
  have hmod : dev % 65536 = dev := Nat.mod_eq_of_lt hdev
  obtain ⟨q, hq⟩ := id h
  cases hfound : findBuffer s.caches dev block with
  | some b =>
    obtain ⟨hb, hbdev, hbblock⟩ := found_key hq.filed hfound
    rw [hmod] at hbdev
    obtain ⟨t, ht, hsound, hlends, hkey⟩ :=
      h.getHashTable_found pace hdev 1 hfound (hcount b hb hbdev hbblock)
    exact ⟨b, t, by simp [BlockCache.getblk, TURNS, ht], hsound, hlends, hb, hkey⟩
  | none =>
    have hno := (h.not_found_iff hdev hzero).mp hfound
    have hget : s.getHashTable pace dev block 2 = some (none, s) := by
      simp [BlockCache.getHashTable, hfound]
    obtain ⟨x, hx, hxfree⟩ := hfree hno
    have hxin : x ∈ s.free := hq.filed.free.mem_iff.mpr hx
    obtain ⟨b, hscan⟩ :=
      scanFree_isSome none
        (.inr (show ∃ c ∈ s.free, (s.caches.head c).bCount = 0 from ⟨x, hxin, hxfree⟩))
    have hb : b ∈ s.buffers := by
      obtain hin | he := scanFree_mem hscan
      · exact hq.filed.free.mem_iff.mp hin
      · cases he
    have hbfree : (s.io.bh b).bCount = 0 := scanFree_count hscan fun c hc => by cases hc
    obtain ⟨t, ht, hgoes, hopen⟩ := h.waitOnBuffer pace hb fun rw e => by cases e
    have htfree : (t.io.bh b).bCount = 0 := (hgoes.waits.place b).2.2.trans hbfree
    obtain ⟨u, hu, hsound, hcalm, hopen', hclean⟩ :=
      hgoes.sound.writeOut pace (hgoes.waits.buffers ▸ hb) hopen htfree 0
    have hall := hgoes.waits.calm.trans hcalm
    have hbu : b ∈ u.buffers := hall.buffers ▸ hb
    have hnone : findBuffer u.caches dev block = none := by
      refine (hsound.not_found_iff hdev hzero).mpr fun y hy hkey => ?_
      rw [(hall.place y).1, (hall.place y).2.1] at hkey
      exact hno y (hall.buffers ▸ hy) hkey
    have hdriver' : HasDriver u.io.requestFn dev := hall.requestFn ▸ hdriver
    have hufree : (u.io.bh b).bCount = 0 := (hall.place b).2.2.trans hbfree
    obtain ⟨q', hq'⟩ := hsound
    refine ⟨b, u.take dev block b, ?_,
      ⟨q', hq'.take hbu hopen' hclean hdriver' hblock hnone⟩,
        hall.lends ⟨rfl, rfl, fun y _ => ?_, fun y _ hne => ?_⟩,
      hb, ?_, ?_⟩
    · rw [show TURNS = 2 + 1 from rfl, BlockCache.getblk]
      simp only [hget, Option.bind_eq_bind, Option.bind_some, hscan, ht, htfree, ne_eq,
        not_true_eq_false, if_false, hu, Bool.false_eq_true, hnone, Option.isSome_none]
      rfl
    · rw [take_bh]
      by_cases hy : y = b
      · subst hy
        rw [if_pos rfl, if_pos rfl, hufree]
      · rw [if_neg hy, if_neg hy, Nat.add_zero]
    · have hy : y ≠ b := by
        rintro rfl
        exact hne hufree
      rw [take_bh, if_neg hy]
      exact ⟨rfl, rfl, id⟩
    · rw [take_bh, if_pos rfl]
      exact hmod
    · rw [take_bh, if_pos rfl]

theorem Sound.bread (pace : Pace) (h : Sound flat none s)
    (hdriver : HasDriver s.io.requestFn dev) (hblock : block < 2 ^ 31)
    (hcount : ∀ x ∈ s.buffers, (s.io.bh x).bDev = dev → (s.io.bh x).bBlocknr = block →
      (s.io.bh x).bCount < 255)
    (hfree : (∀ x ∈ s.buffers, ¬ ((s.io.bh x).bDev = dev ∧ (s.io.bh x).bBlocknr = block)) →
      ∃ x ∈ s.buffers, (s.io.bh x).bCount = 0) :
    ∃ b t, s.bread pace dev block TURNS = some (some b, t) ∧ Sound flat none t ∧
      Lends s t b ∧ b ∈ s.buffers ∧ (t.io.bh b).bDev = dev ∧ (t.io.bh b).bBlocknr = block ∧
      (t.io.bh b).bUptodate = true ∧ (t.io.bh b).bData = flat dev block := by
  obtain ⟨b, t, ht, hsound, hlends, hb, hbdev, hbblock⟩ := h.getblk pace hdriver hblock hcount hfree
  have hbt : b ∈ t.buffers := hlends.buffers ▸ hb
  have hdata : ∀ u : BlockCache β δ, Sound flat none u → Calm t u → (u.io.bh b).bUptodate = true →
      (u.io.bh b).bData = flat dev block := by
    rintro u ⟨q, hq⟩ hcalm hup
    have hgood := (hq.agrees.uptodate b (hcalm.buffers ▸ hbt) hup).2
    rw [(hcalm.place b).1, (hcalm.place b).2.1, hbdev, hbblock] at hgood
    exact hgood
  cases hup : (t.io.bh b).bUptodate with
  | true =>
    exact ⟨b, t, by simp [BlockCache.bread, ht, hup], hsound, hlends, hb, hbdev, hbblock, hup,
      hdata t hsound (Waits.refl t).calm hup⟩
  | false =>
    obtain ⟨u, hu, hsound', hcalm, -, hread⟩ :=
      hsound.llRwBlock pace (.inl (Eq.refl READ)) hbt (hbdev ▸ hdriver.1)
    obtain ⟨v, hv, hgoes, hopen⟩ := hsound'.waitOnBuffer pace (hcalm.buffers ▸ hbt) fun rw e => by
      cases e
    have hall := hcalm.trans hgoes.waits.calm
    have hupv : (v.io.bh b).bUptodate = true := by
      cases hread rfl with
      | inl hlock => exact hgoes.waits.ended b hlock hopen
      | inr hnow => exact hgoes.waits.uptodate b hnow
    refine ⟨b, v, ?_, hgoes.sound, hlends.calm hall, hb, (hall.place b).1.trans hbdev,
      (hall.place b).2.1.trans hbblock, hupv,
      hdata v hgoes.sound hall hupv⟩
    simp [BlockCache.bread, ht, hup, hu, hv, hupv]

theorem Sound.brelse (pace : Pace) (h : Sound flat none s) (hb : b ∈ s.buffers)
    (hheld : (s.io.bh b).bCount ≠ 0) (hcount : (s.io.bh b).bCount < 256) :
    ∃ t u, s.brelse pace b = some u ∧ u = t.addCount b 255 ∧ Sound flat none u ∧ Calm s t ∧
      (u.io.bh b).bCount + 1 = (s.io.bh b).bCount := by
  obtain ⟨t, ht, hgoes, -⟩ := h.waitOnBuffer pace hb fun rw e => by cases e
  have hsame : (t.io.bh b).bCount = (s.io.bh b).bCount := (hgoes.waits.place b).2.2
  refine ⟨t, t.addCount b 255, ?_, rfl, hgoes.sound.addCount b 255, hgoes.waits.calm, ?_⟩
  · simp [BlockCache.brelse, ht, hsame, hheld]
  · rw [BlockCache.addCount, setBh_bh, if_pos rfl]
    simp only [hsame]
    omega

def overwrite (flat : Nat → Nat → δ) (dev block : Nat) (data : δ) : Nat → Nat → δ :=
  fun d n => if d = dev ∧ n = block then data else flat d n

theorem Consistent.modify (h : Consistent flat none q s) (hb : b ∈ s.buffers)
    (hup : (s.io.bh b).bUptodate = true) (f : δ → δ) :
    Consistent (overwrite flat (s.io.bh b).bDev (s.io.bh b).bBlocknr
      (f (flat (s.io.bh b).bDev (s.io.bh b).bBlocknr))) none q
      (s.modify b f) := by
  obtain ⟨hnamed, hdata⟩ := h.agrees.uptodate b hb hup
  have hself : (s.modify b f).io.bh b =
      { s.io.bh b with bData := f (s.io.bh b).bData, bDirt := true } := by
    rw [BlockCache.modify, setBh_bh, if_pos rfl]
  have hother : ∀ x, x ≠ b → (s.modify b f).io.bh x = s.io.bh x := fun x hx => by
    rw [BlockCache.modify, setBh_bh, if_neg hx]
  have hplace : ∀ x, ((s.modify b f).io.bh x).bDev = (s.io.bh x).bDev ∧
    ((s.modify b f).io.bh x).bBlocknr = (s.io.bh x).bBlocknr ∧
      ((s.modify b f).io.bh x).bUptodate = (s.io.bh x).bUptodate := fun x => by
    by_cases hx : x = b
    · subst hx
      rw [hself]
      exact ⟨rfl, rfl, rfl⟩
    · rw [hother x hx]
      exact ⟨rfl, rfl, rfl⟩
  -- the blocks of the other buffers are as before
  have hflat : ∀ x ∈ s.buffers, x ≠ b → overwrite flat (s.io.bh b).bDev (s.io.bh b).bBlocknr
    (f (flat (s.io.bh b).bDev (s.io.bh b).bBlocknr))
      (s.io.bh x).bDev (s.io.bh x).bBlocknr = flat (s.io.bh x).bDev (s.io.bh x).bBlocknr := fun x
        hx hxb => by
    refine if_neg fun he => hxb ?_
    exact (h.key_unique hb hx hnamed he.1.symm he.2.symm).symm
  refine ⟨h.nodup, filed_setBh h.filed rfl rfl, h.queues.setBh rfl fun hlock =>
    ⟨rfl, rfl, rfl, fun rw hr => ?_⟩, fun x hx hdev => ?_,
    fun x hx hd => ?_, fun x hx hux => ?_, fun dev block => ?_, fun m d x hm hd hx hread => ?_,
      h.agrees.idle⟩
  · cases hr with
    | inl hr =>
      rw [hup] at hr
      cases hr.2.1
    | inr hw => exact .inr hw
  · rw [(hplace x).1] at hdev ⊢
    rw [(hplace x).2.1]
    exact h.agrees.served x hx hdev
  · rw [(hplace x).2.2]
    by_cases hxb : x = b
    · rw [hxb]
      exact hup
    · rw [hother x hxb] at hd
      exact h.agrees.dirty x hx hd
  · by_cases hxb : x = b
    · subst hxb
      rw [hself]
      exact ⟨hnamed, (congrArg f hdata).trans (if_pos ⟨rfl, rfl⟩).symm⟩
    · rw [hother x hxb] at hux ⊢
      rw [hflat x hx hxb]
      exact h.agrees.uptodate x hx hux
  · by_cases hkey : dev = (s.io.bh b).bDev ∧ block = (s.io.bh b).bBlocknr
    · refine .inr ⟨b, hb, ?_, ?_, .inl ?_⟩
      · rw [hself]
        exact hkey.1.symm
      · rw [hself]
        exact hkey.2.symm
      · rw [hself]
    · rw [overwrite, if_neg hkey]
      refine (h.agrees.disk dev block).imp_right ?_
      rintro ⟨x, hx, hxdev, hxblock, hdirty⟩
      have hxb : x ≠ b := by
        rintro rfl
        exact hkey ⟨hxdev.symm, hxblock.symm⟩
      refine ⟨x, hx, ?_⟩
      rw [hother x hxb]
      exact ⟨hxdev, hxblock, hdirty⟩
  · obtain ⟨hxin, hmoves⟩ := h.queues.moves_of_bh (h.queues.head_mem hd) hx
    have hxb : x ≠ b := by
      rintro rfl
      cases hmoves.ready with
      | inl hr =>
        rw [hup] at hr
        cases hr.2.1
      | inr hw =>
        have hcmd : (s.io.request d).cmd = READ := hread
        rw [hcmd] at hw
        exact absurd hw.1 (by decide)
    rw [hother x hxb, hflat x hxin hxb]
    exact h.agrees.arrived m d x hm hd hx hread

end BlockCache

structure Hold where
  dev : Nat
  block : Nat
  read : Bool
  deriving DecidableEq

/-- A store of blocks without a cache, and the references that are held. -/
structure FlatUse (δ : Type) where
  store : Nat → Nat → δ
  held : List Hold

namespace FlatUse
variable {δ : Type}

def blocks (u : FlatUse δ) : Finset (Nat × Nat) := (u.held.map fun h => (h.dev, h.block)).toFinset

def refs (u : FlatUse δ) (dev block : Nat) : Nat :=
  u.held.countP fun h => h.dev = dev ∧ h.block = block

/-- The block is one of a device with a driver, its sectors have numbers of 32 bits, `size` buffers
are enough
for it and the blocks that are held, and its references have a number of 8 bits. -/
def MayHold (requestFn : Nat → Bool) (size : Nat) (u : FlatUse δ) (dev block : Nat) : Prop :=
  BlockCache.HasDriver requestFn dev ∧ block < 2 ^ 31 ∧ (insert (dev, block) u.blocks).card ≤ size ∧
    u.refs dev block < 255

instance (requestFn : Nat → Bool) (size : Nat) (u : FlatUse δ) (dev block : Nat) :
    Decidable (u.MayHold requestFn size dev block) :=
  inferInstanceAs (Decidable (_ ∧ _))

end FlatUse

def flatStep {δ : Type} (requestFn : Nat → Bool) (size : Nat) (u : FlatUse δ) :
    CacheCall δ → Option (Option δ × FlatUse δ)
  | .bread dev block =>
    if u.MayHold requestFn size dev block then some
      (some (u.store dev block), { u with held := ⟨dev, block, true⟩ :: u.held }) else none
  | .getblk dev block =>
    if u.MayHold requestFn size dev block then some
      (none, { u with held := ⟨dev, block, false⟩ :: u.held }) else none
  | .modify i f => do
    let h ← u.held[i]?
    if h.read then return (none,
      { u with store := BlockCache.overwrite u.store h.dev h.block (f (u.store h.dev h.block)) })
        else none
  | .brelse i => if i < u.held.length then some (none, { u with held := u.held.eraseIdx i })
    else none
  | .syncDev _ => some (none, u)

section
variable {β δ : Type} [DecidableEq β] {requestFn : Nat → Bool} {size : Nat} {s t : CacheUse β δ}
  {u u' : FlatUse δ}

structure Holds (c : BlockCache β δ) (b : β) (h : Hold) : Prop where
  mem : b ∈ c.buffers
  named : h.dev ≠ 0
  dev : (c.io.bh b).bDev = h.dev
  block : (c.io.bh b).bBlocknr = h.block
  read : h.read = true → (c.io.bh b).bUptodate = true

structure StandsFor (requestFn : Nat → Bool) (size : Nat) (s : CacheUse β δ) (u : FlatUse δ) :
  Prop where
  sound : BlockCache.Sound u.store none s.cache
  size : s.cache.buffers.length = size
  driver : s.cache.io.requestFn = requestFn
  held : List.Forall₂ (Holds s.cache) s.held u.held
  counts : ∀ b ∈ s.cache.buffers, (s.cache.io.bh b).bCount = s.held.count b
  refs : ∀ dev block, u.refs dev block < 256

omit [DecidableEq β] in
theorem forall₂_eraseIdx {γ : Type} {R : β → γ → Prop} {l : List β} {m : List γ}
    (h : List.Forall₂ R l m) (i : Nat) :
    List.Forall₂ R (l.eraseIdx i) (m.eraseIdx i) := by
  induction h generalizing i with
  | nil => exact .nil
  | cons hxy hrest ih =>
    cases i with
    | zero => exact hrest
    | succ i => exact .cons hxy (ih i)

theorem count_le_countP {γ : Type} {R : β → γ → Prop} {l : List β} {m : List γ} {b : β}
    {p : γ → Bool} (h : List.Forall₂ R l m) (hp : ∀ y, R b y → p y = true) :
    l.count b ≤ m.countP p := by
  induction h with
  | nil => exact le_rfl
  | @cons x y l m hxy hrest ih =>
    rw [List.count_cons, List.countP_cons]
    by_cases hx : x = b
    · subst hx
      simp only [beq_self_eq_true, if_true, hp y hxy]
      omega
    · simp only [beq_iff_eq, hx, if_false, Nat.add_zero]
      omega

omit [DecidableEq β] in
theorem exists_of_forall₂ {γ ι : Type} {R : γ → ι → Prop} {l : List γ} {m : List ι} {x : γ}
    (h : List.Forall₂ R l m) (hx : x ∈ l) :
    ∃ y ∈ m, R x y := by
  induction h with
  | nil => cases hx
  | @cons a y l m hay hrest ih =>
    cases hx with
    | head => exact ⟨y, List.mem_cons_self, hay⟩
    | tail _ hx =>
      obtain ⟨z, hz, hR⟩ := ih hx
      exact ⟨z, List.mem_cons_of_mem y hz, hR⟩

omit [DecidableEq β] in
theorem getElem?_of_forall₂ {γ ι : Type} {R : γ → ι → Prop} {l : List γ} {m : List ι} {i : Nat}
    {y : ι} (h : List.Forall₂ R l m) (hy : m[i]? = some y) : ∃ x, l[i]? = some x ∧ R x y := by
  induction h generalizing i with
  | nil => simp at hy
  | @cons x z l m hxz hrest ih =>
    cases i with
    | zero =>
      obtain rfl : z = y := by simpa using hy
      exact ⟨x, rfl, hxz⟩
    | succ i => exact ih hy

theorem StandsFor.calm {c : BlockCache β δ} (h : StandsFor requestFn size s u)
    (hsound : BlockCache.Sound u.store none c) (hcalm : BlockCache.Calm s.cache c) :
    StandsFor requestFn size ⟨c, s.held⟩ u := by
  refine ⟨hsound, ?_, ?_, h.held.imp fun b m hb => ⟨?_, hb.named, ?_, ?_, fun hr => ?_⟩,
    fun b hb => ?_, h.refs⟩
  · rw [hcalm.buffers]
    exact h.size
  · rw [hcalm.requestFn]
    exact h.driver
  · exact (hcalm.place b).2.2.trans (h.counts b (hcalm.buffers ▸ hb))
  · exact hcalm.buffers ▸ hb.mem
  · exact (hcalm.place b).1.trans hb.dev
  · exact (hcalm.place b).2.1.trans hb.block
  · exact hcalm.uptodate b (hb.read hr)

theorem StandsFor.interrupts (pace : Pace) (h : StandsFor requestFn size s u) :
    StandsFor requestFn size ⟨s.cache.interrupts pace, s.held⟩ u :=
  h.calm (h.sound.interrupts pace).sound (h.sound.interrupts pace).waits.calm

theorem StandsFor.count_le (h : StandsFor requestFn size s u) {b : β} (hb : b ∈ s.cache.buffers)
    {dev block : Nat} (hdev : (s.cache.io.bh b).bDev = dev)
    (hblock : (s.cache.io.bh b).bBlocknr = block) :
    (s.cache.io.bh b).bCount ≤ u.refs dev block := by
  rw [h.counts b hb]
  refine count_le_countP h.held fun m hm =>
    decide_eq_true ⟨hm.dev.symm.trans hdev, hm.block.symm.trans hblock⟩

theorem StandsFor.card_le (h : StandsFor requestFn size s u) :
    s.held.toFinset.card ≤ u.blocks.card := by
  obtain ⟨q, hq⟩ := h.sound
  refine Finset.card_le_card_of_injOn
    (fun b => ((s.cache.io.bh b).bDev, (s.cache.io.bh b).bBlocknr)) (fun b hb => ?_) fun b hb
      x hx he => ?_
  · obtain ⟨m, hm, hold⟩ := exists_of_forall₂ h.held (List.mem_toFinset.mp hb)
    simp only [hold.dev, hold.block]
    exact List.mem_toFinset.mpr (List.mem_map_of_mem hm)
  · obtain ⟨m, -, hold⟩ := exists_of_forall₂ h.held (List.mem_toFinset.mp hb)
    obtain ⟨m', -, hold'⟩ := exists_of_forall₂ h.held (List.mem_toFinset.mp hx)
    exact hq.key_unique hold.mem hold'.mem (hold.dev ▸ hold.named) (congrArg Prod.fst he)
      (congrArg Prod.snd he)

theorem StandsFor.room (h : StandsFor requestFn size s u) {dev block : Nat}
    (hroom : (insert (dev, block) u.blocks).card ≤ size)
    (hno : ∀ x ∈ s.cache.buffers, ¬ ((s.cache.io.bh x).bDev = dev ∧
      (s.cache.io.bh x).bBlocknr = block)) :
    ∃ x ∈ s.cache.buffers, (s.cache.io.bh x).bCount = 0 := by
  have hnew : (dev, block) ∉ u.blocks := fun hin => by
    obtain ⟨m, hm, he⟩ := List.mem_map.mp (List.mem_toFinset.mp hin)
    obtain ⟨b, -, hold⟩ := exists_of_forall₂ h.held.flip hm
    exact hno b hold.mem ⟨hold.dev.trans (congrArg Prod.fst he),
      hold.block.trans (congrArg Prod.snd he)⟩
  rw [Finset.card_insert_of_notMem hnew] at hroom
  by_contra hall
  push Not at hall
  have hsub : s.cache.buffers.toFinset ⊆ s.held.toFinset := fun x hx => by
    have hin := List.mem_toFinset.mp hx
    have hne := hall x hin
    rw [h.counts x hin] at hne
    exact List.mem_toFinset.mpr (List.count_pos_iff.mp (Nat.pos_of_ne_zero hne))
  obtain ⟨q, hq⟩ := h.sound
  have hcard := Finset.card_le_card hsub
  rw [List.toFinset_card_of_nodup hq.nodup, h.size] at hcard
  have hle := h.card_le
  omega

theorem StandsFor.lends {c : BlockCache β δ} {b : β} (h : StandsFor requestFn size s u)
    (hsound : BlockCache.Sound u.store none c) (hlends : BlockCache.Lends s.cache c b)
    {dev block : Nat} {read : Bool} (hb : b ∈ s.cache.buffers) (hzero : dev ≠ 0)
    (hdev : (c.io.bh b).bDev = dev) (hblock : (c.io.bh b).bBlocknr = block)
    (hread : read = true → (c.io.bh b).bUptodate = true) (hrefs : u.refs dev block < 255) :
    StandsFor requestFn size ⟨c, b :: s.held⟩ { u with held := ⟨dev, block, read⟩ :: u.held } := by
  have hcounted : ∀ x ∈ s.held, x ∈ s.cache.buffers →
      (s.cache.io.bh x).bCount ≠ 0 := fun x hx hin => by
    rw [h.counts x hin]
    exact (List.count_pos_iff.mpr hx).ne'
  have hbuffers := hlends.buffers
  refine ⟨hsound, ?_, ?_, .cons ⟨hbuffers ▸ hb, hzero, hdev, hblock, hread⟩ ?_, fun x hx => ?_,
    fun d n => ?_⟩
  · rw [hbuffers]
    exact h.size
  · rw [hlends.requestFn]
    exact h.driver
  · have hheld : List.Forall₂ (fun x m => x ∈ s.held ∧ Holds s.cache x m) s.held u.held :=
      (List.forall₂_and_left s.held u.held).mpr ⟨fun _ => id, h.held⟩
    refine hheld.imp fun x m hxm => ?_
    obtain ⟨hxdev, hxblock, hxup⟩ := hlends.held x hxm.2.mem (hcounted x hxm.1 hxm.2.mem)
    exact ⟨hbuffers ▸ hxm.2.mem, hxm.2.named, hxdev.trans hxm.2.dev, hxblock.trans hxm.2.block,
      fun hr => hxup (hxm.2.read hr)⟩
  · have hin : x ∈ s.cache.buffers := hbuffers ▸ hx
    rw [hlends.count x hin, h.counts x hin, List.count_cons]
    by_cases hxb : x = b
    · subst hxb
      simp
    · simp [hxb, Ne.symm hxb]
  · have hold := h.refs d n
    rw [FlatUse.refs, List.countP_cons]
    by_cases hkey : dev = d ∧ block = n
    · obtain ⟨rfl, rfl⟩ := hkey
      simp only [and_self, decide_true, if_true]
      exact Nat.succ_lt_succ hrefs
    · simp only [hkey, decide_false, Bool.false_eq_true, if_false, Nat.add_zero]
      exact hold

theorem count_eraseIdx {l : List β} {i : Nat} {b : β} (hi : l[i]? = some b) (x : β) :
    l.count x = (l.eraseIdx i).count x + if x = b then 1 else 0 := by
  obtain ⟨hlt, rfl⟩ := List.getElem?_eq_some_iff.mp hi
  rw [← (List.getElem_cons_eraseIdx_perm hlt).count_eq, List.count_cons]
  by_cases hx : x = l[i]
  · subst hx
    simp
  · simp [hx, Ne.symm hx]

theorem StandsFor.modify {b : β} {m : Hold}
  (h : StandsFor requestFn size s u) (hold : Holds s.cache b m) (hread : m.read = true)
    (f : δ → δ) :
    StandsFor requestFn size ⟨s.cache.modify b f, s.held⟩
      { u with store := BlockCache.overwrite u.store m.dev m.block (f (u.store m.dev m.block))
        } := by
  obtain ⟨q, hq⟩ := h.sound
  have hmod := hq.modify hold.mem (hold.read hread) f
  rw [hold.dev, hold.block] at hmod
  have hsame : ∀ x, BlockCache.SamePlace (s.cache.io.bh x) ((s.cache.modify b f).io.bh x) ∧
      ((s.cache.io.bh x).bUptodate = true → ((s.cache.modify b f).io.bh x).bUptodate = true) := fun
        x => by
    rw [BlockCache.modify, BlockCache.setBh_bh]
    split
    · rename_i hx
      subst hx
      exact ⟨⟨rfl, rfl, rfl⟩, id⟩
    · exact ⟨.refl _, id⟩
  refine ⟨⟨q, hmod⟩, h.size, h.driver, h.held.imp fun x n hx => ?_, fun x hx => ?_, h.refs⟩
  · exact ⟨hx.mem, hx.named, (hsame x).1.1.trans hx.dev, (hsame x).1.2.1.trans hx.block,
      fun hr => (hsame x).2 (hx.read hr)⟩
  · exact (hsame x).1.2.2.trans (h.counts x hx)

theorem StandsFor.brelse (pace : Pace) {b : β} {m : Hold} {i : Nat}
    (h : StandsFor requestFn size s u) (hb : s.held[i]? = some b) (hold : Holds s.cache b m) :
    ∃ c, s.cache.brelse pace b = some c ∧
      StandsFor requestFn size ⟨c, s.held.eraseIdx i⟩ { u with held := u.held.eraseIdx i } := by
  have hin : b ∈ s.held := List.mem_of_getElem? hb
  have hcount := h.counts b hold.mem
  have hheld : (s.cache.io.bh b).bCount ≠ 0 := by
    rw [hcount]
    exact (List.count_pos_iff.mpr hin).ne'
  have hfits := (h.count_le hold.mem hold.dev hold.block).trans_lt (h.refs m.dev m.block)
  obtain ⟨c, c', hc, rfl, hsound, hcalm, hless⟩ := h.sound.brelse pace hold.mem hheld hfits
  have hsame : ∀ x, x ≠ b → (c.addCount b 255).io.bh x = c.io.bh x := fun x hx => by
    rw [BlockCache.addCount, BlockCache.setBh_bh, if_neg hx]
  have hplace : ∀ x, ((c.addCount b 255).io.bh x).bDev = (c.io.bh x).bDev ∧
    ((c.addCount b 255).io.bh x).bBlocknr = (c.io.bh x).bBlocknr ∧
      ((c.addCount b 255).io.bh x).bUptodate = (c.io.bh x).bUptodate := fun x => by
    by_cases hx : x = b
    · subst hx
      rw [BlockCache.addCount, BlockCache.setBh_bh, if_pos rfl]
      exact ⟨rfl, rfl, rfl⟩
    · rw [hsame x hx]
      exact ⟨rfl, rfl, rfl⟩
  refine ⟨_, hc, hsound, ?_, ?_,
    forall₂_eraseIdx (h.held.imp fun x n hx => ⟨?_, hx.named, ?_, ?_, fun hr => ?_⟩) i,
      fun x hx => ?_,
    fun d n => ?_⟩
  · exact (congrArg List.length hcalm.buffers).trans h.size
  · exact hcalm.requestFn.trans h.driver
  · have hx' : x ∈ s.cache.buffers := hcalm.buffers ▸ hx
    have hcx := h.counts x hx'
    have herase := count_eraseIdx hb x
    by_cases hxb : x = b
    · subst hxb
      rw [if_pos rfl] at herase
      change ((c.addCount x 255).io.bh x).bCount = (s.held.eraseIdx i).count x
      omega
    · rw [if_neg hxb, Nat.add_zero] at herase
      rw [hsame x hxb, (hcalm.place x).2.2, hcx, herase]
  · exact (((List.eraseIdx_sublist ..).countP_le)).trans_lt (h.refs d n)
  · exact hcalm.buffers ▸ hx.mem
  · exact ((hplace x).1.trans (hcalm.place x).1).trans hx.dev
  · exact ((hplace x).2.1.trans (hcalm.place x).2.1).trans hx.block
  · rw [(hplace x).2.2]
    exact hcalm.uptodate x (hx.read hr)

theorem StandsFor.step (pace : Pace) {a : CacheCall δ} {e : Option δ}
    (h : StandsFor requestFn size s u) (hstep : flatStep requestFn size u a = some (e, u')) :
    ∃ t, cacheStep pace s a = some (e, t) ∧ StandsFor requestFn size t u' := by
  have hnow := h.interrupts pace
  cases a with
  | bread dev block =>
    by_cases hmay : u.MayHold requestFn size dev block
    · simp only [flatStep, if_pos hmay, Option.some.injEq, Prod.mk.injEq] at hstep
      obtain ⟨rfl, rfl⟩ := hstep
      obtain ⟨hdriver, hblock, hroom, hrefs⟩ := hmay
      obtain ⟨b, c, hc, hsound, hlends, hb, hbdev, hbblock, hup, hdata⟩ :=
        hnow.sound.bread pace (hnow.driver ▸ hdriver) hblock
        (fun x hx hd hn => (hnow.count_le hx hd hn).trans_lt hrefs) (hnow.room hroom)
      refine ⟨⟨c, b :: s.held⟩, ?_,
        hnow.lends hsound hlends hb hdriver.1 hbdev hbblock (fun _ => hup) hrefs⟩
      simp only [cacheStep, hc, Option.bind_eq_bind, Option.bind_some, hdata]
      rfl
    · simp [flatStep, hmay] at hstep
  | getblk dev block =>
    by_cases hmay : u.MayHold requestFn size dev block
    · simp only [flatStep, if_pos hmay, Option.some.injEq, Prod.mk.injEq] at hstep
      obtain ⟨rfl, rfl⟩ := hstep
      obtain ⟨hdriver, hblock, hroom, hrefs⟩ := hmay
      obtain ⟨b, c, hc, hsound, hlends, hb, hbdev, hbblock⟩ :=
        hnow.sound.getblk pace (hnow.driver ▸ hdriver) hblock
        (fun x hx hd hn => (hnow.count_le hx hd hn).trans_lt hrefs) (hnow.room hroom)
      refine ⟨⟨c, b :: s.held⟩, ?_,
        hnow.lends hsound hlends hb hdriver.1 hbdev hbblock (fun e => by cases e) hrefs⟩
      simp only [cacheStep, hc, Option.bind_eq_bind, Option.bind_some]
      rfl
    · simp [flatStep, hmay] at hstep
  | modify i f =>
    obtain ⟨m, hm, hstep⟩ := Option.bind_eq_some_iff.mp hstep
    cases hread : m.read with
    | false => simp [hread] at hstep
    | true =>
      rw [if_pos hread] at hstep
      obtain ⟨rfl, rfl⟩ := Prod.mk.inj (Option.some.inj hstep)
      obtain ⟨b, hb, hold⟩ := getElem?_of_forall₂ hnow.held hm
      refine ⟨_, ?_, hnow.modify hold hread f⟩
      simp only [cacheStep, Option.bind_eq_bind]
      exact Option.bind_eq_some_iff.mpr ⟨b, hb, rfl⟩
  | brelse i =>
    by_cases hi : i < u.held.length
    · simp only [flatStep, if_pos hi, Option.some.injEq, Prod.mk.injEq] at hstep
      obtain ⟨rfl, rfl⟩ := hstep
      obtain ⟨b, hb, hold⟩ := getElem?_of_forall₂ hnow.held (List.getElem?_eq_getElem hi)
      obtain ⟨c, hc, hstands⟩ := hnow.brelse pace hb hold
      refine ⟨_, ?_, hstands⟩
      simp only [cacheStep, Option.bind_eq_bind]
      exact Option.bind_eq_some_iff.mpr ⟨b, hb, Option.bind_eq_some_iff.mpr ⟨c, hc, rfl⟩⟩
    · simp [flatStep, hi] at hstep
  | syncDev dev =>
    simp only [flatStep, Option.some.injEq, Prod.mk.injEq] at hstep
    obtain ⟨rfl, rfl⟩ := hstep
    obtain ⟨c, hc, hsound, hcalm, -⟩ := hnow.sound.syncDev pace dev
    refine ⟨⟨c, s.held⟩, ?_, hnow.calm hsound hcalm⟩
    simp only [cacheStep, hc, Option.bind_eq_bind, Option.bind_some]
    rfl

omit [DecidableEq β] in
theorem sound_init {buffers : List β} (hnodup : buffers.Nodup) (bh : β → BufferHead β δ)
    (request : Slot → Request β) (requestFn : Nat → Bool) (disk : Int → Nat → δ) :
    BlockCache.Sound (fun dev block => disk dev (2 * block)) none
      (initCache buffers bh request requestFn disk) := by
  refine ⟨fun _ => [], hnodup,
    ⟨.refl _, fun _ => List.nodup_nil, fun n b => ?_, fun a _ b _ hdev => absurd rfl hdev⟩,
    ⟨fun _ => rfl, fun _ => List.nodup_nil, fun m hm => absurd rfl hm, fun m i hi => ?_,
      fun m i hi => ?_, fun i hi => ?_, fun b _ hl => ?_,
      fun b rw hm => ?_⟩,
    fun b _ hdev => absurd rfl hdev, fun b _ hd => ?_, fun b _ hup => ?_, fun _ _ => .inl rfl,
      fun m c b hm => ?_, fun m hm => ?_⟩
  · refine ⟨fun hin => ?_, fun hin => absurd rfl hin.2.1⟩
    cases hin
  · cases hi
  · cases hi
  · exact absurd hi (by simp [initCache, blkDevInit])
  · cases hl
  · cases hm
  · cases hd
  · cases hup
  · cases hm
  · cases hm

/-- From `buffer_init` on, whatever the calls and whenever the drivers go on, each `bread` comes
back
with the contents that the block has in the flat store. -/
theorem buffer_cache_is_transparent (pace : Pace) {buffers : List β} (hnodup : buffers.Nodup)
    (bh : β → BufferHead β δ) (request : Slot → Request β) (requestFn : Nat → Bool)
    (disk : Int → Nat → δ) (calls : List (CacheCall δ)) {es : List δ} {u : FlatUse δ}
    (h : trace (flatStep requestFn buffers.length) ⟨fun dev block => disk dev (2 * block), []⟩
      calls = some (es, u)) :
    ∃ t, trace (cacheStep pace) ⟨initCache buffers bh request requestFn disk, []⟩ calls =
      some (es, t) := by
  have hinit : StandsFor requestFn buffers.length ⟨initCache buffers bh request requestFn disk, []⟩
    ⟨fun dev block => disk dev (2 * block), []⟩ :=
    ⟨sound_init hnodup bh request requestFn disk, rfl, rfl, .nil, fun _ _ => rfl,
      fun _ _ => by simp [FlatUse.refs]⟩
  have hstep : ∀ (s : CacheUse β δ) (u : FlatUse δ) (a : CacheCall δ) (e : Option δ)
    (u' : FlatUse δ),
      StandsFor requestFn buffers.length s u →
        flatStep requestFn buffers.length u a = some (e, u') →
      ∃ t, cacheStep pace s a = some (e, t) ∧ StandsFor requestFn buffers.length t u' :=
    fun _ _ _ _ _ hs hst => hs.step pace hst
  obtain ⟨t, ht, -⟩ := trace_follows hstep hinit h
  exact ⟨t, ht⟩

end

/-- The one buffer of a cache is changed, taken for another block, and read again. -/
theorem buffer_cache_is_transparent_one_buffer :
    ∃ t, trace (cacheStep fun n => [3, n])
      ⟨initCache [()] (fun _ => ⟨9, 0, 0, false, false, 0, false, none, none, none, none⟩)
      (fun _ => ⟨-1, 0, 0, 0, 0, 0, none, none⟩) (· == 3) fun _ n => n, []⟩
      [.bread 769 5, .modify 0 (· + 1), .brelse 0, .bread 769 6, .syncDev 769, .brelse 0,
        .bread 769 5] = some ([10, 12, 11], t) :=
  buffer_cache_is_transparent _ (List.nodup_singleton ()) _ _ _ _ _ rfl

end Hios.Fs
