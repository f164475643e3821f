import Hios.Boot.BootSector
import Hios.Lib.Fuel

/-! What the boot sector leaves in memory. -/
namespace Hios.Boot
open Hios.LongMemory Hios.Fuel
variable {d : Floppy} {m : Memory} {s : Loader} {n : Nat}

def Floppy.byte (d : Floppy) (n : Nat) : BitVec 8 :=
  d.data (n / 512 / d.sectors / 2) (n / 512 / d.sectors % 2) (n / 512 % d.sectors + 1) (n % 512)

theorem fill_fill (base : BitVec 32) (size : Nat) (f g : BitVec 32 → BitVec 8) (m : Memory) :
    fill base size f (fill base size g m) = fill base size f m := by
  funext x
  simp only [fill]
  split
  · rfl
  · rfl

theorem toNat_linear (seg off : BitVec 16) :
    (linear seg off).toNat = 16 * seg.toNat + off.toNat := by
  have hseg := seg.isLt
  have hoff := off.isLt
  simp only [linear, BitVec.toNat_add, BitVec.toNat_mul, BitVec.toNat_setWidth, BitVec.reduceToNat]
  omega

theorem toNat_pair (hi lo : BitVec 8) :
    (hi ++ lo : BitVec 16).toNat = 256 * hi.toNat + lo.toNat := by
  have hlo : lo.toNat < 2 ^ 8 := lo.isLt
  rw [BitVec.toNat_append, ← Nat.shiftLeft_add_eq_or_of_lt hlo, Nat.shiftLeft_eq, Nat.mul_comm]

/-- A read that the drive accepts succeeds in the end, and failed tries leave no trace. -/
theorem readAgain_ends {ax cx dx es bx : BitVec 16} (hok : d.accepts ax cx dx es bx = true)
    {j : Nat} (hj : d.fails j = false) {k : Nat} (hk : k ≤ j) (m : Memory) :
    ∃ calls, Ends (fun fuel => readAgain d ax cx dx es bx fuel k m)
      (calls, fill (linear es bx) (512 * (ax.toNat % 256)) (d.bytes cx dx (linear es bx)) m) := by
  induction hn : j - k generalizing k m with
  | zero =>
    obtain rfl : k = j := by omega
    refine ⟨k + 1, Ends.turn (Ends.of_eq fun _ => rfl) fun fuel => ?_⟩
    simp [readAgain, int13Read, hj, hok]
  | succ n ih =>
    cases hfail : d.fails k with
    | false =>
      refine ⟨k + 1, Ends.turn (Ends.of_eq fun _ => rfl) fun fuel => ?_⟩
      simp [readAgain, int13Read, hfail, hok]
    | true =>
      obtain ⟨calls, hends⟩ := ih (k := k + 1) (by omega)
        (fill (linear es bx) (512 * (ax.toNat % 256)) (d.debris k) m) (by omega)
      rw [fill_fill] at hends
      refine ⟨calls, hends.turn fun fuel => ?_⟩
      simp [readAgain, int13Read, hfail]

/-- `n` sectors of the system lie in memory, and the registers stand behind the last one. -/
structure Loaded (d : Floppy) (m : Memory) (n : Nat) (s : Loader) : Prop where
  le : n ≤ 384
  place : 16 * s.es.toNat + s.bx.toNat = 0x10000 + 512 * n
  aligned : s.es.toNat % 0x1000 = 0
  disk : (2 * s.track.toNat + s.head.toNat) * d.sectors + s.sread.toNat = 5 + n
  head : s.head.toNat ≤ 1
  sread : s.sread.toNat < d.sectors
  mem : s.mem = fill 0x10000 (512 * n) (fun x => d.byte (5 * 512 + (x - 0x10000).toNat)) m

/-- A drive with 6 to 63 sectors to a track and no more tracks than a byte counts, that holds the
image and on which no read fails for ever. -/
structure Floppy.Holds (d : Floppy) : Prop where
  six_le : 6 ≤ d.sectors
  le : d.sectors ≤ 63
  tracks : 389 ≤ 2 * d.sectors * d.tracks
  tracks_le : d.tracks ≤ 256
  succeeds : ∀ k, ∃ j, k ≤ j ∧ d.fails j = false

theorem Loaded.track_lt (h : Loaded d m n s) (hd : d.Holds) (hn : n < 384) :
    s.track.toNat < d.tracks ∧ s.track.toNat ≤ 32 := by
  have hdisk := h.disk
  have hpos : 2 * s.track.toNat * d.sectors ≤ 388 := by
    have hmul : 2 * s.track.toNat * d.sectors ≤ (2 * s.track.toNat + s.head.toNat) * d.sectors :=
      Nat.mul_le_mul_right _ (Nat.le_add_right _ _)
    omega
  constructor
  · by_contra hge
    have hfar : 389 ≤ 2 * s.track.toNat * d.sectors := calc
      389 ≤ 2 * d.sectors * d.tracks := hd.tracks
      _ ≤ 2 * d.sectors * s.track.toNat := Nat.mul_le_mul_left _ (not_lt.mp hge)
      _ = 2 * s.track.toNat * d.sectors := by ring
    omega
  · have hsmall : 2 * s.track.toNat * 6 ≤ 2 * s.track.toNat * d.sectors :=
      Nat.mul_le_mul_left _ hd.six_le
    omega

theorem fill_append (base : BitVec 32) (a b : Nat) (hab : a + b < 2 ^ 32)
    (f : BitVec 32 → BitVec 8) (m : Memory) :
    fill (base + BitVec.ofNat 32 a) b f (fill base a f m) = fill base (a + b) f m := by
  funext x
  have hsum : (x - base).toNat = (x - (base + BitVec.ofNat 32 a)).toNat + a ∨
      (x - base).toNat < a ∧ b ≤ (x - (base + BitVec.ofNat 32 a)).toNat := by
    bv_omega
  simp only [fill]
  by_cases hin : (x - (base + BitVec.ofNat 32 a)).toNat < b
  · rw [if_pos hin, if_pos (by omega)]
  · rw [if_neg hin]
    by_cases hlow : (x - base).toNat < a
    · rw [if_pos hlow, if_pos (by omega)]
    · rw [if_neg hlow, if_neg (by omega)]

theorem fill_congr {base : BitVec 32} {size : Nat} {f g : BitVec 32 → BitVec 8}
    (h : ∀ x, (x - base).toNat < size → f x = g x) (m : Memory) :
    fill base size f m = fill base size g m := by
  funext x
  by_cases hx : (x - base).toNat < size
  · simp only [fill, if_pos hx, h x hx]
  · simp only [fill, if_neg hx]

theorem Floppy.byte_eq {q r i j : Nat} (hr : r < d.sectors) (hj : j < 512)
    (hi : i = 512 * (q * d.sectors + r) + j) :
    d.byte i = d.data (q / 2) (q % 2) (r + 1) j := by
  have hpos : 0 < d.sectors := by omega
  have hsector : i / 512 = r + d.sectors * q := by
    rw [Nat.mul_comm d.sectors q]
    omega
  have hj' : i % 512 = j := by omega
  simp only [Floppy.byte, hsector, hj', Nat.add_mul_div_left _ _ hpos, Nat.div_eq_of_lt hr,
    Nat.zero_add,
    Nat.add_mul_mod_self_left, Nat.mod_eq_of_lt hr]

theorem toNat_trackCx (htrack : s.track.toNat ≤ 32) (hsread : s.sread.toNat < 63) :
    (trackCx s).toNat = 256 * s.track.toNat + (s.sread.toNat + 1) := by
  rw [trackCx, toNat_pair, BitVec.toNat_setWidth, BitVec.toNat_setWidth, BitVec.toNat_add]
  have hone : BitVec.toNat (1 : BitVec 16) = 1 := rfl
  rw [hone]
  omega

theorem toNat_trackDx (hhead : s.head.toNat ≤ 1) : (trackDx s).toNat / 256 = s.head.toNat := by
  have hcases : s.head = 0 ∨ s.head = 1 := by
    rcases Nat.le_one_iff_eq_zero_or_eq_one.mp hhead with h0 | h1
    · exact Or.inl (BitVec.eq_of_toNat_eq h0)
    · exact Or.inr (BitVec.eq_of_toNat_eq h1)
  rcases hcases with h0 | h1
  · rw [trackDx, h0]
    rfl
  · rw [trackDx, h1]
    rfl

section Track
variable {ax : BitVec 16} (h : Loaded d m n s) (hd : d.Holds) (hn : n < 384) (hpos : 1 ≤ ax.toNat)
  (htrack : s.sread.toNat + ax.toNat ≤ d.sectors) (hseg : s.bx.toNat + 512 * ax.toNat ≤ 0x10000)

include h hd hn hpos htrack hseg in
theorem Loaded.accepts :
    d.accepts (2#8 ++ ax.setWidth 8) (trackCx s) (trackDx s) s.es s.bx = true := by
  obtain ⟨hon, hsmall⟩ := h.track_lt hd hn
  have hle := hd.le
  have hsread := h.sread
  have hcx := toNat_trackCx hsmall (s := s) (by omega)
  have hdx := toNat_trackDx h.head
  have hax : (2#8 ++ ax.setWidth 8 : BitVec 16).toNat = 512 + ax.toNat := by
    rw [toNat_pair, BitVec.toNat_setWidth, Nat.mod_eq_of_lt (by omega)]
    rfl
  have hlinear := toNat_linear s.es s.bx
  have haligned := h.aligned
  have hhead := h.head
  simp only [Floppy.accepts, hcx, hdx, hax, hlinear, Bool.and_eq_true, decide_eq_true_eq]
  omega

include h hd hn htrack hseg in
theorem Loaded.bytes_eq (x : BitVec 32) (hx : (x - linear s.es s.bx).toNat < 512 * ax.toNat) :
    d.bytes (trackCx s) (trackDx s) (linear s.es s.bx) x = d.byte
      (5 * 512 + (x - 0x10000).toNat) := by
  obtain ⟨-, hsmall⟩ := h.track_lt hd hn
  have hle := hd.le
  have hsread := h.sread
  have hhead := h.head
  have hcx := toNat_trackCx hsmall (s := s) (by omega)
  have hdx := toNat_trackDx h.head
  have hbase : (linear s.es s.bx).toNat = 0x10000 + 512 * n := by rw [toNat_linear, h.place]
  have hsum : (x - 0x10000).toNat = 512 * n + (x - linear s.es s.bx).toNat := by
    have hn' := h.le
    bv_omega
  set i := (x - linear s.es s.bx).toNat with hi
  have hdisk := h.disk
  have hbyte := Floppy.byte_eq (d := d) (q := 2 * s.track.toNat + s.head.toNat)
    (r := s.sread.toNat + i / 512) (j := i % 512)
    (i := 5 * 512 + (x - 0x10000).toNat) (by omega) (by omega) (by omega)
  have hq : (2 * s.track.toNat + s.head.toNat) / 2 = s.track.toNat := by omega
  have hq' : (2 * s.track.toNat + s.head.toNat) % 2 = s.head.toNat := by omega
  have hcyl : (256 * s.track.toNat + (s.sread.toNat + 1)) / 256 +
      256 * ((256 * s.track.toNat + (s.sread.toNat + 1)) / 64 % 4) = s.track.toNat := by omega
  have hsector : (256 * s.track.toNat + (s.sread.toNat + 1)) % 64 + i / 512 = s.sread.toNat + i /
    512 + 1 := by omega
  rw [hbyte, hq, hq']
  simp only [Floppy.bytes, hcx, hdx, ← hi, hcyl, hsector]

include h hd hn hpos htrack hseg in
/-- What `read_track` brings in, where `ax` sectors lie ahead on the track and in the segment. -/
theorem Loaded.readTrack_ends : ∃ calls, Ends (fun fuel => readTrack d fuel ax s)
    { s with calls, mem := fill 0x10000 (512 * (n + ax.toNat)) (fun x =>
      d.byte (5 * 512 + (x - 0x10000).toNat)) m } := by
  obtain ⟨j, hj, hsucceeds⟩ := hd.succeeds s.calls
  obtain ⟨calls, hends⟩ := readAgain_ends (h.accepts hd hn hpos htrack hseg) hsucceeds hj s.mem
  have hax : (2#8 ++ ax.setWidth 8 : BitVec 16).toNat % 256 = ax.toNat := by
    have hle := hd.le
    rw [toNat_pair, BitVec.toNat_setWidth]
    omega
  have hbase : linear s.es s.bx = 0x10000 + BitVec.ofNat 32 (512 * n) := by
    have hplace := h.place
    have hlinear := toNat_linear s.es s.bx
    have hle := h.le
    bv_omega
  have hmem : fill (linear s.es s.bx) (512 * ax.toNat)
    (d.bytes (trackCx s) (trackDx s) (linear s.es s.bx)) s.mem =
      fill 0x10000 (512 * (n + ax.toNat)) (fun x => d.byte (5 * 512 + (x - 0x10000).toNat)) m := by
    have hle := h.le
    have hsize : 512 * n + 512 * ax.toNat = 512 * (n + ax.toNat) := by ring
    rw [fill_congr (h.bytes_eq hd hn htrack hseg), h.mem, hbase,
      fill_append _ _ _ (by omega), hsize]
  rw [hax, hmem] at hends
  exact ⟨calls, hends.map⟩

end Track

theorem ok3Read_place (ax cx : BitVec 16)
    (hplace : 16 * s.es.toNat + s.bx.toNat = 0x10000 + 512 * n)
    (haligned : s.es.toNat % 0x1000 = 0) (hes : s.es.toNat < 0x4000) (hcx : cx.toNat < 64)
    (hseg : s.bx.toNat + 512 * cx.toNat ≤ 0x10000) :
    16 * (ok3Read ax cx s).es.toNat + (ok3Read ax cx s).bx.toNat = 0x10000 + 512 * (n + cx.toNat) ∧
      (ok3Read ax cx s).es.toNat % 0x1000 = 0 := by
  have hshift : (cx <<< 9).toNat = 512 * cx.toNat := by
    rw [BitVec.toNat_shiftLeft, Nat.shiftLeft_eq]
    omega
  by_cases hfit : s.bx.toNat + 512 * cx.toNat < 0x10000
  · have heq : ok3Read ax cx s = { s with sread := ax, bx := s.bx + cx <<< 9 } := by
      simp only [ok3Read, hshift, hfit, if_true]
    have hbx : (s.bx + cx <<< 9).toNat = s.bx.toNat + 512 * cx.toNat := by
      rw [BitVec.toNat_add, hshift, Nat.mod_eq_of_lt hfit]
    rw [heq]
    exact ⟨by simp only [hbx]; omega, haligned⟩
  · have heq : ok3Read ax cx s = { s with sread := ax, es := s.es + 0x1000, bx := 0 } := by
      simp only [ok3Read, hshift, hfit, if_false]
    have hes' : (s.es + 0x1000).toNat = s.es.toNat + 0x1000 := by bv_omega
    have hzero : BitVec.toNat (0 : BitVec 16) = 0 := rfl
    rw [heq]
    exact ⟨by simp only [hes', hzero]; omega, by simp only [hes']; omega⟩

theorem ok3Read_rest (ax cx : BitVec 16) (s : Loader) :
    (ok3Read ax cx s).sread = ax ∧ (ok3Read ax cx s).head = s.head ∧
    (ok3Read ax cx s).track = s.track ∧ (ok3Read ax cx s).mem = s.mem := by
  simp only [ok3Read]
  split
  · exact ⟨rfl, rfl, rfl, rfl⟩
  · exact ⟨rfl, rfl, rfl, rfl⟩

theorem Loaded.ok3Read {u : Loader} {ax cx : BitVec 16} (h : Loaded d m n s) (hn : n < 384)
    (hes : u.es = s.es) (hbx : u.bx = s.bx)
    (hmem : u.mem = fill 0x10000 (512 * (n + cx.toNat))
      (fun x => d.byte (5 * 512 + (x - 0x10000).toNat)) m)
    (hdisk : (2 * u.track.toNat + u.head.toNat) * d.sectors + ax.toNat = 5 + (n + cx.toNat))
    (hhead : u.head.toNat ≤ 1) (hax : ax.toNat < d.sectors) (hcx : cx.toNat < 64)
    (hseg : s.bx.toNat + 512 * cx.toNat ≤ 0x10000) :
    Loaded d m (n + cx.toNat) (ok3Read ax cx u) := by
  have hplace := h.place
  have haligned := h.aligned
  have hlow : s.es.toNat < 0x4000 := by omega
  obtain ⟨hplace', haligned'⟩ := ok3Read_place (s := u) (n := n) ax cx (by rw [hes, hbx, hplace])
    (by rw [hes, haligned]) (by rw [hes]; exact hlow) hcx (by rw [hbx]; exact hseg)
  obtain ⟨hsread, hhead', htrack, hmem'⟩ := ok3Read_rest ax cx u
  constructor
  · omega
  · exact hplace'
  · exact haligned'
  · rw [htrack, hhead', hsread, hdisk]
  · rw [hhead']
    exact hhead
  · rw [hsread]
    exact hax
  · rw [hmem', hmem]

/-- The counters after a read: the rest of the track, its other side, or the next track. -/
theorem Loaded.ok2Read_ends (ax : BitVec 16) (h : Loaded d m n s) (hd : d.Holds) (hn : n < 384)
    (hpos : 1 ≤ ax.toNat) (htrack : s.sread.toNat + ax.toNat ≤ d.sectors)
    (hseg : s.bx.toNat + 512 * ax.toNat ≤ 0x10000) :
    ∃ t, Loaded d m (n + ax.toNat) t ∧
    Ends (fun fuel => ok2Read d (BitVec.ofNat 16 d.sectors) fuel ax s) t := by
  obtain ⟨calls, hends⟩ := h.readTrack_ends hd hn hpos htrack hseg
  refine ⟨_, ?_, hends.map⟩
  obtain ⟨-, hsmall⟩ := h.track_lt hd hn
  have hsectors := hd.le
  have hdisk := h.disk
  have hhead := h.head
  have hsread := h.sread
  have hzero : BitVec.toNat (0 : BitVec 16) = 0 := rfl
  have hone : BitVec.toNat (1 : BitVec 16) = 1 := rfl
  have hcount : (ax + s.sread).toNat = s.sread.toNat + ax.toNat := by
    rw [BitVec.toNat_add]
    omega
  have hall : (BitVec.ofNat 16 d.sectors).toNat = d.sectors := by
    rw [BitVec.toNat_ofNat]
    omega
  by_cases hfull : ax + s.sread = BitVec.ofNat 16 d.sectors
  · have hdone : s.sread.toNat + ax.toNat = d.sectors := by rw [← hcount, hfull, hall]
    have hside : (2 * s.track.toNat + s.head.toNat + 1) * d.sectors = 5 + (n + ax.toNat) := by
      rw [Nat.succ_mul]
      omega
    rcases Nat.le_one_iff_eq_zero_or_eq_one.mp hhead with h0 | h1
    · obtain hhead0 : s.head = 0 := BitVec.eq_of_toNat_eq h0
      have hside1 : 1 - s.head = 1 := by
        rw [hhead0]
        rfl
      have hne : ¬ (1 : BitVec 16) = 0 := by decide
      simp only [hfull, ne_eq, not_true_eq_false, if_false, ok4Read, hside1, hne,
        not_false_eq_true, if_true]
      refine Loaded.ok3Read h hn ?_ ?_ ?_ ?_ ?_ ?_ ?_ hseg
      · rfl
      · rfl
      · rfl
      · rw [h0] at hside
        exact hside
      · exact le_of_eq hone
      · rw [hzero]
        omega
      · omega
    · obtain hhead1 : s.head = 1 := BitVec.eq_of_toNat_eq h1
      have hside0 : 1 - s.head = 0 := by
        rw [hhead1]
        rfl
      simp only [hfull, ne_eq, not_true_eq_false, if_false, ok4Read, hside0]
      have hnext : (s.track + 1).toNat = s.track.toNat + 1 := by
        rw [BitVec.toNat_add, hone]
        omega
      refine Loaded.ok3Read h hn ?_ ?_ ?_ ?_ ?_ ?_ ?_ hseg
      · rfl
      · rfl
      · rfl
      · rw [h1] at hside
        have htwo : 2 * s.track.toNat + 1 + 1 = 2 * (s.track.toNat + 1) + 0 := by ring
        rw [htwo] at hside
        simp only [hnext, hzero]
        exact hside
      · exact Nat.zero_le 1
      · rw [hzero]
        omega
      · omega
  · have hpart : s.sread.toNat + ax.toNat ≠ d.sectors := by
      intro heq
      apply hfull
      apply BitVec.eq_of_toNat_eq
      rw [hcount, hall, heq]
    simp only [hfull, ne_eq, not_false_eq_true, if_true]
    refine Loaded.ok3Read h hn ?_ ?_ ?_ ?_ ?_ ?_ ?_ hseg
    · rfl
    · rfl
    · rfl
    · change (2 * s.track.toNat + s.head.toNat) * d.sectors + (ax + s.sread).toNat = 5 +
        (n + ax.toNat)
      rw [hcount]
      omega
    · exact hhead
    · rw [hcount]
      omega
    · omega

theorem Loaded.ok1Read_ends (h : Loaded d m n s) (hd : d.Holds) (hn : n < 384) :
    ∃ n' t, n < n' ∧ Loaded d m n' t ∧
    Ends (fun fuel => ok1Read d (BitVec.ofNat 16 d.sectors) fuel s) t := by
  have hsectors := hd.le
  have hsread := h.sread
  have hplace := h.place
  have haligned := h.aligned
  have hrest : (BitVec.ofNat 16 d.sectors - s.sread).toNat = d.sectors - s.sread.toNat := by
    have hofNat : (BitVec.ofNat 16 d.sectors).toNat = d.sectors := by
      rw [BitVec.toNat_ofNat]
      omega
    rw [BitVec.toNat_sub, hofNat]
    have hlt := s.sread.isLt
    omega
  have hbytes : ((BitVec.ofNat 16 d.sectors - s.sread) <<< 9).toNat = 512 *
      (d.sectors - s.sread.toNat) := by
    rw [BitVec.toNat_shiftLeft, hrest, Nat.shiftLeft_eq]
    omega
  by_cases hfits : 512 * (d.sectors - s.sread.toNat) + s.bx.toNat ≤ 0x10000
  · obtain ⟨t, ht, hends⟩ := h.ok2Read_ends (BitVec.ofNat 16 d.sectors - s.sread) hd hn (by omega)
      (by omega) (by omega)
    refine ⟨_, t, by omega, ht, hends.congr fun fuel => ?_⟩
    have hcond : (decide (512 * (d.sectors - s.sread.toNat) + s.bx.toNat < 0x10000) ||
        decide ((512 * (d.sectors - s.sread.toNat) + s.bx.toNat) % 0x10000 = 0)) = true := by
      rw [Bool.or_eq_true, decide_eq_true_eq, decide_eq_true_eq]
      omega
    simp only [ok1Read, hbytes, hcond, if_true]
  · have hroom : ((0 - s.bx) >>> 9).toNat = (0x10000 - s.bx.toNat) / 512 := by
      have hlt := s.bx.isLt
      have hneg : (0 - s.bx).toNat = 0x10000 - s.bx.toNat := by bv_omega
      rw [BitVec.toNat_ushiftRight, hneg, Nat.shiftRight_eq_div_pow]
    obtain ⟨t, ht, hends⟩ :=
      h.ok2Read_ends ((0 - s.bx) >>> 9) hd hn (by omega) (by omega) (by omega)
    refine ⟨_, t, by omega, ht, hends.congr fun fuel => ?_⟩
    have hcond : (decide (512 * (d.sectors - s.sread.toNat) + s.bx.toNat < 0x10000) ||
        decide ((512 * (d.sectors - s.sread.toNat) + s.bx.toNat) % 0x10000 = 0)) = false := by
      have hlt := s.bx.isLt
      rw [Bool.or_eq_false_iff, decide_eq_false_iff_not, decide_eq_false_iff_not]
      omega
    simp only [ok1Read, hbytes, hcond, Bool.false_eq_true, if_false]

theorem Loaded.es_lt_iff (h : Loaded d m n s) : s.es < ENDSEG ↔ n < 384 := by
  have hplace := h.place
  have haligned := h.aligned
  have hlt := s.bx.isLt
  have hle := h.le
  have hend : ENDSEG.toNat = 0x4000 := rfl
  rw [BitVec.lt_def, hend]
  omega

theorem Loaded.rpRead_ends (hd : d.Holds) (hs : Loaded d m n s) :
    ∃ t, Loaded d m 384 t ∧ Ends (fun fuel => rpRead d (BitVec.ofNat 16 d.sectors) fuel s) t := by
  induction hk : 384 - n using Nat.strong_induction_on generalizing n s with
  | _ k ih =>
    have hle := hs.le
    by_cases hn : n < 384
    · obtain ⟨n', t, hmore, ht, hturn⟩ := hs.ok1Read_ends hd hn
      obtain ⟨u, hu, hends⟩ := ih (384 - n') (by omega) ht rfl
      refine ⟨u, hu, (hturn.succ.bind hends).turn fun fuel => ?_⟩
      rw [rpRead, if_pos (hs.es_lt_iff.mpr hn)]
    · obtain rfl : n = 384 := by omega
      refine ⟨s, hs, Ends.turn (Ends.of_eq fun _ => rfl) fun fuel => ?_⟩
      rw [rpRead, if_neg (mt hs.es_lt_iff.mp hn)]

theorem sub_add_far {x dest src : BitVec 32} {n : Nat} (hx : (x - (dest + 2)).toNat < n)
    (hds : n + 2 ≤ (src - dest).toNat) (hes : n + 2 ≤ (dest - src).toNat) :
    ¬ (x - dest + src - dest).toNat < 2 := by
  have hsum : x - dest + src - dest = (x - (dest + 2)) + 2 + (src - dest) := by ring
  have hneg : dest - src = 0 - (src - dest) := by ring
  rw [hneg] at hes
  rw [hsum]
  generalize x - (dest + 2) = u at *
  generalize src - dest = v at *
  bv_omega

theorem repMovsw_eq {ds es : BitVec 16} (cx : Nat) {si di : BitVec 16}
    (hsi : si.toNat + 2 * cx ≤ 0x10000) (hdi : di.toNat + 2 * cx ≤ 0x10000)
    (hds : 2 * cx ≤ (linear ds si - linear es di).toNat)
    (hes : 2 * cx ≤ (linear es di - linear ds si).toNat) (m : Memory) :
    repMovsw ds es cx si di m = fill (linear es di) (2 * cx)
      (fun x => m (x - linear es di + linear ds si)) m := by
  induction cx generalizing si di m with
  | zero =>
    funext x
    simp [repMovsw, fill]
  | succ cx ih =>
    have hstep (seg off : BitVec 16) (h : off.toNat + 1 < 0x10000) : linear seg (off + 1) =
        linear seg off + 1 := by
      have h₁ := toNat_linear seg off
      have h₂ := toNat_linear seg (off + 1)
      bv_omega
    have htwo (seg off : BitVec 16) (h : off.toNat + 2 < 0x10000) : linear seg (off + 2) =
        linear seg off + 2 := by
      have h₁ := toNat_linear seg off
      have h₂ := toNat_linear seg (off + 2)
      bv_omega
    have hword : (fun x => if x = linear es di then m (linear ds si)
        else if x = linear es (di + 1) then m (linear ds (si + 1)) else m x) =
        fill (linear es di) 2 (fun x => m (x - linear es di + linear ds si)) m := by
      funext x
      rw [hstep es di (by omega), hstep ds si (by omega)]
      generalize linear es di = dest
      generalize linear ds si = src
      simp only [fill]
      by_cases h0 : x = dest
      · have hsrc : dest - dest + src = src := by bv_omega
        rw [if_pos h0, h0, hsrc, if_pos (by bv_omega)]
      · by_cases h1 : x = dest + 1
        · have hsrc : dest + 1 - dest + src = src + 1 := by bv_omega
          rw [if_neg h0, if_pos h1, h1, hsrc, if_pos (by bv_omega)]
        · rw [if_neg h0, if_neg h1, if_neg (by bv_omega)]
    simp only [repMovsw, hword]
    cases cx with
    | zero => rfl
    | succ cx =>
      have hmore : 2 * (cx + 1 + 1) = 2 + 2 * (cx + 1) := by ring
      have hsi2 : (si + 2).toNat = si.toNat + 2 := by bv_omega
      have hdi2 : (di + 2).toNat = di.toNat + 2 := by bv_omega
      have hsrc := htwo ds si (by omega)
      have hdest := htwo es di (by omega)
      have happend := fill_append (linear es di) 2 (2 * (cx + 1)) (by omega)
        (fun x => m (x - linear es di + linear ds si)) m
      have hcast : linear es di + BitVec.ofNat 32 2 = linear es di + 2 := rfl
      rw [hcast] at happend
      rw [ih (by omega) (by omega) (by rw [hsrc, hdest, add_sub_add_right_eq_sub]; omega)
        (by rw [hsrc, hdest, add_sub_add_right_eq_sub]; omega), hsrc, hdest, hmore, ← happend]
      refine fill_congr (fun x hx => ?_) _
      have hsame : x - (linear es di + 2) + (linear ds si + 2) = x - linear es di +
        linear ds si := by ring
      have hfar : ¬ (x - linear es di + linear ds si - linear es di).toNat < 2 :=
        sub_add_far hx (by omega) (by omega)
      simp only [hsame, fill, if_neg hfar]

theorem Floppy.Holds.loadSetup_ends (hd : d.Holds) (m : Memory) :
    ∃ calls, Ends (fun fuel => loadSetup d fuel 0 m)
    (calls, fill 0x90200 0x800 (fun x => d.byte (512 + (x - 0x90200).toNat)) m) := by
  obtain ⟨j, hj, hsucceeds⟩ := hd.succeeds 0
  have hsix := hd.six_le
  have hle := hd.le
  have hfirst : 1 ≤ d.tracks := by
    by_contra hnone
    have htracks := hd.tracks
    have hzero : d.tracks = 0 := by omega
    rw [hzero] at htracks
    omega
  have hbase : linear INITSEG 0x0200 = 0x90200 := by decide
  have hax : (0x0200 ||| SETUPLEN).toNat % 256 = 4 := by decide
  have hok : d.accepts (0x0200 ||| SETUPLEN) 0x0002 0x0000 INITSEG 0x0200 = true := by
    simp only [Floppy.accepts, hbase, hax, Bool.and_eq_true, decide_eq_true_eq, BitVec.reduceToNat]
    omega
  obtain ⟨calls, hends⟩ := readAgain_ends hok hsucceeds hj m
  refine ⟨calls, ?_⟩
  rw [hbase, hax] at hends
  have hbytes : fill 0x90200 (512 * 4) (d.bytes 0x0002 0x0000 0x90200) m =
      fill 0x90200 0x800 (fun x => d.byte (512 + (x - 0x90200).toNat)) m := by
    apply fill_congr
    intro x hx
    generalize hi : (x - 0x90200).toNat = i at *
    rw [Floppy.byte_eq (q := 0) (r := 1 + i / 512) (j := i % 512) (by omega) (by omega) (by omega)]
    simp only [Floppy.bytes, hi, BitVec.reduceToNat]
    congr 1
    omega
  rwa [hbytes] at hends

/-- The boot sector ends with itself at 0x90000, `setup` behind it and the system
at 0x10000, each byte in its place, and the rest of the memory as it was. -/
theorem Floppy.Holds.bootsect_ends (hd : d.Holds) (m : Memory) :
    ∃ s, Ends (fun fuel => bootsect d fuel m) s ∧
    s.mem = fill 0x10000 0x30000 (fun x => d.byte (5 * 512 + (x - 0x10000).toNat))
      (fill 0x90200 0x800 (fun x => d.byte (512 + (x - 0x90200).toNat))
        (fill 0x90000 0x200 (fun x => m (x - 0x90000 + 0x7c00)) m)) := by
  have hmoved : repMovsw BOOTSEG INITSEG 256 0 0 m = fill 0x90000 0x200
      (fun x => m (x - 0x90000 + 0x7c00)) m := by
    have hsrc : linear BOOTSEG 0 = 0x7c00 := by decide
    have hdest : linear INITSEG 0 = 0x90000 := by decide
    have hsize : 2 * 256 = 0x200 := rfl
    rw [repMovsw_eq 256 (by decide) (by decide) (by rw [hsrc, hdest]; decide)
      (by rw [hsrc, hdest]; decide), hsrc, hdest, hsize]
  obtain ⟨calls, hsetup⟩ :=
    hd.loadSetup_ends (fill 0x90000 0x200 (fun x => m (x - 0x90000 + 0x7c00)) m)
  set m₂ := fill 0x90200 0x800 (fun x => d.byte (512 + (x - 0x90200).toNat))
    (fill 0x90000 0x200 (fun x => m (x - 0x90000 + 0x7c00)) m) with hm₂
  have hsix := hd.six_le
  have hstart : Loaded d m₂ 0
      { mem := m₂, es := SYSSEG, bx := 0, sread := 1 +
        SETUPLEN, head := 0, track := 0, calls } := by
    have hes : SYSSEG.toNat = 0x1000 := by decide
    have hsread : (1 + SETUPLEN).toNat = 5 := by decide
    have hzero : BitVec.toNat (0 : BitVec 16) = 0 := rfl
    constructor
    · exact Nat.zero_le 384
    · simp only [hes, hzero]
    · simp only [hes]
    · simp only [hsread, hzero]
      omega
    · exact Nat.zero_le 1
    · simp only [hsread]
      omega
    · funext x
      simp [fill]
  obtain ⟨s, hs, hends⟩ := hstart.rpRead_ends hd
  have hread : Ends (fun fuel => readIt d (BitVec.ofNat 16 d.sectors) fuel
      { mem := m₂, es := SYSSEG, bx := 0, sread := 1 + SETUPLEN, head := 0, track := 0, calls })
        s := by
    have haligned : ¬ SYSSEG &&& 0x0fff ≠ 0 := by decide
    refine hends.congr fun fuel => ?_
    simp only [readIt, if_neg haligned]
  have hall := hsetup.bind (g := fun fuel r => readIt d (BitVec.ofNat 16 d.sectors) fuel
    { mem := r.2, es := SYSSEG, bx := 0, sread := 1 +
      SETUPLEN, head := 0, track := 0, calls := r.1 }) hread
  refine ⟨s, hall.congr fun fuel => ?_, hs.mem⟩
  rw [bootsect, hmoved]

end Hios.Boot
